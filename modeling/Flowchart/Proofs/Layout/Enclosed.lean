import Flowchart.Proofs.Layout.Distances
import Flowchart.Proofs.Route.Constructs

/-!
# Everything inside its owner

In exact arithmetic the bounds of a node hold its figure, its anchors and its
children, and they leave room beside them for the lanes of a loop, for the way
past a decision and for the padding of a container.
-/

namespace Flowchart

open Scalar

/-- What is left of a rectangle inside a padding. -/
def Rect.inset (rect : Rect Rat) (padding : Insets Rat) : Rect Rat :=
  ⟨rect.minX + padding.left, rect.minY + padding.top,
    rect.maxX - padding.right, rect.maxY - padding.bottom⟩

theorem Rect.inset_translate (rect : Rect Rat) (padding : Insets Rat)
    (offset : Point Rat) :
    (rect.translate offset).inset padding =
      (rect.inset padding).translate offset := by
  simp only [inset, translate, Rect.mk.injEq]
  refine ⟨?_, ?_, ?_, ?_⟩ <;> ring

/-! ## Anchors of one node -/

namespace Frame

/-- All anchors of a node lie in its bounds. -/
def HoldsAnchors (frame : Frame Rat) : Prop :=
  ∀ entry ∈ frame.anchors, (frame.bounds .origin).Holds entry.2

variable {frame : Frame Rat} {figure : Rect Rat} {children : List (Frame Rat)}
  {top : Rat}

theorem Sound.holds_spine (sound : frame.Sound) {y : Rat} (below : 0 ≤ y)
    (above : y ≤ frame.size.height) :
    (frame.bounds .origin).Holds ⟨frame.spine, y⟩ := by
  refine ⟨sound.spine_nonneg, ?_, below, ?_⟩
  · simpa [bounds, Rect.ofTopLeft] using sound.spine_le
  · simpa [bounds, Rect.ofTopLeft] using above

section Headed

variable (headed : frame.Headed figure children top)

include headed

theorem Headed.figure_inside : figure.Inside (frame.bounds .origin) :=
  (headed.fits.figure figure headed.isFigure).2.2.1

theorem Headed.holds_top : (frame.bounds .origin).Holds ⟨frame.spine, 0⟩ :=
  headed.fits.holds_spine (le_refl 0) headed.fits.height_nonneg

theorem Headed.holds_bottom :
    (frame.bounds .origin).Holds ⟨frame.spine, frame.size.height⟩ :=
  headed.fits.holds_spine headed.fits.height_nonneg (le_refl _)

theorem Headed.holds_under :
    (frame.bounds .origin).Holds ⟨frame.spine, figure.maxY⟩ :=
  headed.figure_inside.holds
    ⟨headed.leftOfSpine, headed.rightOfSpine, headed.high.le, le_refl _⟩

theorem Headed.center_between :
    figure.minY ≤ figure.center.y ∧ figure.center.y ≤ figure.maxY := by
  have high := headed.high
  simp only [Rect.center, half_exact]
  exact ⟨by linarith, by linarith⟩

theorem Headed.holds_left :
    (frame.bounds .origin).Holds ⟨figure.minX, figure.center.y⟩ :=
  headed.figure_inside.holds ⟨le_refl _, headed.wide.le, headed.center_between⟩

theorem Headed.holds_right :
    (frame.bounds .origin).Holds ⟨figure.maxX, figure.center.y⟩ :=
  headed.figure_inside.holds ⟨headed.wide.le, le_refl _, headed.center_between⟩

end Headed

theorem holdsAnchors_leaf (label : Label Rat) {size : Size Rat} (goesOn : Bool)
    (wide : 0 < size.width) (high : 0 < size.height) :
    (leaf label size goesOn).HoldsAnchors := by
  have sound := (fits_leaf label goesOn wide high).toSound
  intro entry entryIn
  rcases List.mem_cons.mp entryIn with rfl | isExit
  · exact sound.holds_spine (le_refl 0) high.le
  · cases goesOn with
    | false => cases isExit
    | true =>
        rw [List.mem_singleton.mp isExit]
        exact sound.holds_spine high.le (le_refl _)

theorem holdsAnchors_column (label : Label Rat) {gap : Rat}
    {members : List (Frame Rat)} (sound : (column label gap members).Sound) :
    (column label gap members).HoldsAnchors := by
  refine List.forall_mem_cons.mpr ⟨?_, List.forall_mem_singleton.mpr ?_⟩
  · exact sound.holds_spine (le_refl 0) sound.height_nonneg
  · exact sound.holds_spine sound.height_nonneg (le_refl _)

variable {settings : LayoutSettings Rat} {size : Size Rat}

theorem holdsAnchors_decision {label : Label Rat} {consequent : Frame Rat}
    {alternative : Option (Frame Rat)}
    (headed : (decision label size settings consequent alternative).Headed
      (figureOn (decision label size settings consequent alternative).spine 0
        size) children top) :
    (decision label size settings consequent alternative).HoldsAnchors := by
  refine List.forall_mem_cons.mpr ⟨headed.holds_top, List.forall_mem_cons.mpr
    ⟨headed.holds_under, List.forall_mem_cons.mpr ⟨headed.holds_right,
      List.forall_mem_singleton.mpr headed.holds_bottom⟩⟩⟩

theorem holdsAnchors_selection {label : Label Rat} {arms : List (Frame Rat)}
    (headed : (selection label size settings arms).Headed
      (figureOn (selection label size settings arms).spine 0 size) children
      top) :
    (selection label size settings arms).HoldsAnchors := by
  intro entry entryIn
  rcases List.mem_append.mp entryIn with isUpper | isMerge
  · rcases List.mem_cons.mp isUpper with rfl | isArm
    · exact headed.holds_top
    · obtain ⟨index, -, rfl⟩ := List.mem_map.mp isArm
      exact headed.holds_under
  · rw [List.mem_singleton.mp isMerge]
    exact headed.holds_bottom

theorem holdsAnchors_loop {label : Label Rat} {body : Frame Rat}
    (headed : (loop label size settings body).Headed
      (figureOn (loop label size settings body).spine 0 size) children top) :
    (loop label size settings body).HoldsAnchors := by
  refine List.forall_mem_cons.mpr ⟨headed.holds_top, List.forall_mem_cons.mpr
    ⟨headed.holds_under, List.forall_mem_cons.mpr ⟨headed.holds_left,
      List.forall_mem_singleton.mpr headed.holds_right⟩⟩⟩

/-- Both the body and the figure of a container stay inside its padding. -/
theorem container_inset (label : Label Rat) (accepted : settings.Accepted)
    (kind : ContainerKind) {size : Size Rat} (high : 0 < size.height)
    {body : Frame Rat} (sound : body.Sound) :
    (body.bounds ((container label size settings kind body).offset 0)).Inside
        (((container label size settings kind body).bounds .origin).inset
          settings.padding) ∧
      (figureOn (container label size settings kind body).spine
        settings.padding.top size).Inside
        (((container label size settings kind body).bounds .origin).inset
          settings.padding) := by
  have gap := accepted.spacing_pos
  have tall := sound.height_nonneg
  have bottom := container_bottom label accepted kind size body
  have spineLe := le_max_left body.spine (size.width / 2)
  have halfLe := le_max_right body.spine (size.width / 2)
  have rightLe := le_max_left body.rightOfSpine (size.width / 2)
  have halfLeRight := le_max_right body.rightOfSpine (size.width / 2)
  have right_eq : body.rightOfSpine = body.size.width - body.spine := rfl
  rw [container_offset, figureOn_exact]
  simp only [Rect.Inside, bounds, Rect.ofTopLeft, Rect.inset, Point.origin_x,
    Point.origin_y, container_spine, container_width]
  refine ⟨⟨?_, ?_, ?_, ?_⟩, ?_, ?_, ?_, ?_⟩ <;> linarith

theorem holdsAnchors_container {label : Label Rat} {kind : ContainerKind}
    {body : Frame Rat} (accepted : settings.Accepted) (high : 0 < size.height)
    (sound : body.Sound)
    (headed : (container label size settings kind body).Headed
      (figureOn (container label size settings kind body).spine
        settings.padding.top size) children top) :
    (container label size settings kind body).HoldsAnchors := by
  have gap := accepted.spacing_pos
  have above : 0 ≤ settings.padding.top := not_lt.mp accepted.top
  have below : 0 ≤ settings.padding.bottom := not_lt.mp accepted.bottom
  have tall := sound.height_nonneg
  cases kind with
  | service => exact List.forall_mem_nil _
  | function =>
      refine List.forall_mem_cons.mpr
        ⟨headed.holds_under, List.forall_mem_singleton.mpr ?_⟩
      apply headed.fits.holds_spine
      · linarith
      · simp only [container]
        linarith

end Frame

/-! ## Every node of a program -/

namespace Program

variable {settings : LayoutSettings Rat} (accepted : settings.Accepted)

include accepted

theorem sound_framed (program : Program (Label Rat)) :
    (program.framed settings).label.Sound :=
  (fits_framed_root accepted program).toSound

theorem holdsAnchors_framed (program : Program (Label Rat)) :
    (program.framed settings).label.HoldsAnchors := by
  have figure_pos := accepted.figureSize_pos
  cases program with
  | statement label kind =>
      exact Frame.holdsAnchors_leaf label true (figure_pos _ _).1
        (figure_pos _ _).2
  | result label =>
      exact Frame.holdsAnchors_leaf label false (figure_pos _ _).1
        (figure_pos _ _).2
  | typeDefinition label =>
      exact Frame.holdsAnchors_leaf label true (figure_pos _ _).1
        (figure_pos _ _).2
  | block label members =>
      cases members with
      | nil =>
          exact Frame.holdsAnchors_leaf label true (figure_pos _ _).1
            (figure_pos _ _).2
      | cons first rest =>
          exact Frame.holdsAnchors_column label
            (sound_framed accepted (.block label (first :: rest)))
  | decision label consequent alternative =>
      cases alternative with
      | none =>
          have noneElse : ∀ frame ∈ (none : Option (Frame Rat)),
              frame.Sound := by
            simp
          exact Frame.holdsAnchors_decision (Frame.headed_decision label accepted
            (figure_pos _ _).1 (figure_pos _ _).2
            (sound_framed accepted consequent) noneElse)
      | some alternative =>
          have soundElse : ∀ frame ∈ some (alternative.framed settings).label,
              frame.Sound := by
            simpa using sound_framed accepted alternative
          exact Frame.holdsAnchors_decision (Frame.headed_decision label accepted
            (figure_pos _ _).1 (figure_pos _ _).2
            (sound_framed accepted consequent) soundElse)
  | selection label arms =>
      refine Frame.holdsAnchors_selection (Frame.headed_selection label accepted
        (figure_pos _ _).1 (figure_pos _ _).2 fun frame frameIn => ?_)
      rw [framedArms_eq, List.map_map] at frameIn
      obtain ⟨arm, -, rfl⟩ := List.mem_map.mp frameIn
      exact sound_framed accepted arm.2
  | loop label kind body =>
      exact Frame.holdsAnchors_loop (Frame.headed_loop label accepted
        (figure_pos _ _).1 (figure_pos _ _).2 (sound_framed accepted body))
  | container label kind body =>
      have high := (figure_pos (.container kind) label).2
      exact Frame.holdsAnchors_container accepted high
        (sound_framed accepted body) (Frame.headed_container label accepted
          (figure_pos _ _).1 high (sound_framed accepted body))

omit accepted

/-! ## Room beside the children -/

theorem eq_loop_of_tag {L : Type} {program : Program L} {kind : LoopKind}
    (isLoop : program.tag = .loop kind) :
    ∃ label body, program = .loop label kind body := by
  cases program with
  | loop label found body =>
      obtain rfl : found = kind := by simpa [tag] using isLoop
      exact ⟨label, body, rfl⟩
  | _ => cases isLoop

theorem eq_decision_of_tag {L : Type} {program : Program L}
    (isDecision : program.tag = .decision) :
    ∃ label consequent alternative,
      program = .decision label consequent alternative := by
  cases program with
  | decision label consequent alternative =>
      exact ⟨label, consequent, alternative, rfl⟩
  | _ => cases isDecision

theorem eq_container_of_tag {L : Type} {program : Program L}
    {kind : ContainerKind} (isContainer : program.tag = .container kind) :
    ∃ label body, program = .container label kind body := by
  cases program with
  | container label found body =>
      obtain rfl : found = kind := by simpa [tag] using isContainer
      exact ⟨label, body, rfl⟩
  | _ => cases isContainer

variable (program : Program (Label Rat)) (corner : Point Rat)
  (outer : Option NodeId) (level : Nat)

theorem bounds_shownAt :
    (program.shownAt settings corner outer level).bounds =
      ⟨corner.x, corner.y,
        corner.x + (program.framed settings).label.size.width,
        corner.y + (program.framed settings).label.size.height⟩ := rfl

include accepted in
theorem anchors_shown {entry : Anchor × Point Rat}
    (entryIn : entry ∈ (program.shownAt settings corner outer level).anchors) :
    (program.shownAt settings corner outer level).bounds.Holds entry.2 := by
  obtain ⟨original, originalIn, rfl⟩ := List.mem_map.mp entryIn
  obtain ⟨left, right, top, bottom⟩ :=
    holdsAnchors_framed accepted program original originalIn
  simp only [Frame.bounds, Rect.ofTopLeft, Point.origin_x, Point.origin_y]
    at left right top bottom
  rw [bounds_shownAt]
  refine ⟨?_, ?_, ?_, ?_⟩ <;> simp only [Point.add_x, Point.add_y] <;> linarith

theorem loop_shown {kind : LoopKind}
    (isLoop : (program.framed settings).tag = .loop kind) :
    ∃ body, Arrangement.childNodes corner level (program.framed settings) =
        [body] ∧
      (program.shownAt settings corner outer level).bounds.minX +
          settings.loopClearance ≤ body.bounds.minX ∧
      body.bounds.maxX + settings.loopClearance ≤
        (program.shownAt settings corner outer level).bounds.maxX := by
  rw [tag_framed] at isLoop
  obtain ⟨label, body, rfl⟩ := eq_loop_of_tag isLoop
  have isFrame : (framed settings (.loop label kind body)).label =
      Frame.loop label (Arrangement.figureSize settings (.loop kind) label)
        settings (body.framed settings).label := rfl
  obtain ⟨left, -, -, right⟩ := Channel.loop_sides isFrame
  rw [Frame.rightOfSpine] at right
  refine ⟨_, rfl, ?_, ?_⟩
  all_goals
    rw [Arrangement.bounds_nodeAt, bounds_shownAt, isFrame, Frame.loop_offset,
      ← isFrame]
    linarith

theorem decision_alone_shown
    (isDecision : (program.framed settings).tag = .decision)
    {consequent : DiagramNode Rat}
    (isAlone : Arrangement.childNodes corner level (program.framed settings) =
      [consequent]) :
    consequent.bounds.maxX + settings.branchGap ≤
        (program.shownAt settings corner outer level).bounds.maxX ∧
      ∃ figure, (program.shownAt settings corner outer level).figure =
          some figure ∧
        figure.maxX + settings.branchGap ≤
          (program.shownAt settings corner outer level).bounds.maxX := by
  rw [tag_framed] at isDecision
  obtain ⟨label, body, alternative, rfl⟩ := eq_decision_of_tag isDecision
  cases alternative with
  | some alternative => cases isAlone
  | none =>
      obtain rfl := List.singleton_inj.mp isAlone
      have isFrame : (framed settings (.decision label body none)).label =
          Frame.decision label
            (Arrangement.figureSize settings .decision label) settings
            (body.framed settings).label none := rfl
      obtain ⟨right, rightOfFigure⟩ := Frame.le_decisionRight
        (Arrangement.figureSize settings .decision label)
        (body.framed settings).label
      have isFigure : (shownAt settings corner outer level
          (.decision label body none)).figure = some ((Frame.figureOn
            (framed settings (.decision label body none)).label.spine 0
            (Arrangement.figureSize settings .decision label)).translate
              corner) := rfl
      refine ⟨?_, _, isFigure, ?_⟩
      · rw [Arrangement.bounds_nodeAt, bounds_shownAt, isFrame,
          Frame.decision_offset, Frame.decision_width, Option.map_none,
          Option.getD_none]
        linarith
      · rw [bounds_shownAt, isFrame, Frame.figureOn_exact, Frame.decision_spine,
          Frame.decision_width, Option.map_none, Option.getD_none]
        simp only [Rect.translate]
        linarith

include accepted in
theorem container_shown {kind : ContainerKind}
    (isContainer : (program.framed settings).tag = .container kind) :
    ∃ body figure,
      Arrangement.childNodes corner level (program.framed settings) = [body] ∧
      (program.shownAt settings corner outer level).figure = some figure ∧
      body.bounds.Inside
        ((program.shownAt settings corner outer level).bounds.inset
          settings.padding) ∧
      figure.Inside
        ((program.shownAt settings corner outer level).bounds.inset
          settings.padding) := by
  rw [tag_framed] at isContainer
  obtain ⟨label, body, rfl⟩ := eq_container_of_tag isContainer
  have isFrame : (framed settings (.container label kind body)).label =
      Frame.container label
        (Arrangement.figureSize settings (.container kind) label) settings kind
        (body.framed settings).label := rfl
  obtain ⟨bodyInside, figureInside⟩ := Frame.container_inset label accepted kind
    (accepted.figureSize_pos (.container kind) label).2
    (sound_framed accepted body)
  rw [← isFrame] at bodyInside figureInside
  have isFigure : (shownAt settings corner outer level
      (.container label kind body)).figure = some ((Frame.figureOn
        (framed settings (.container label kind body)).label.spine
        settings.padding.top
        (Arrangement.figureSize settings (.container kind) label)).translate
          corner) := by
    cases kind <;> rfl
  have isBounds : (shownAt settings corner outer level
      (.container label kind body)).bounds =
        ((framed settings (.container label kind body)).label.bounds
          .origin).translate corner :=
    Frame.bounds_eq_translate _ corner
  refine ⟨_, _, rfl, isFigure, ?_, ?_⟩
  · rw [isBounds, Rect.inset_translate]
    have moved := bodyInside.translate corner
    rwa [← Frame.bounds_add] at moved
  · rw [isBounds, Rect.inset_translate]
    exact figureInside.translate corner

end Program

/-! ## The diagram of a program -/

namespace Diagram

variable {settings : LayoutSettings Rat}

/-- All that is drawn for a node lies inside the node and inside the diagram, and
the room that the settings ask for beside it is free. -/
structure Encloses (settings : LayoutSettings Rat) (diagram : Diagram Rat) :
    Prop where
  nodes : ∀ node ∈ diagram.nodes, node.bounds.Inside diagram.bounds
  children : ∀ node ∈ diagram.nodes, ∀ child ∈ diagram.children node.id,
    child.bounds.Inside node.bounds
  figures : ∀ node ∈ diagram.nodes, ∀ figure, node.figure = some figure →
    figure.Inside node.bounds
  anchors : ∀ node ∈ diagram.nodes, ∀ entry ∈ node.anchors,
    node.bounds.Holds entry.2
  loop : ∀ node ∈ diagram.nodes, ∀ kind, node.tag = .loop kind →
    ∃ body, diagram.children node.id = [body] ∧
      node.bounds.minX + settings.loopClearance ≤ body.bounds.minX ∧
      body.bounds.maxX + settings.loopClearance ≤ node.bounds.maxX
  decision : ∀ node ∈ diagram.nodes, node.tag = .decision →
    ∀ consequent, diagram.children node.id = [consequent] →
      consequent.bounds.maxX + settings.branchGap ≤ node.bounds.maxX ∧
        ∃ figure, node.figure = some figure ∧
          figure.maxX + settings.branchGap ≤ node.bounds.maxX
  container : ∀ node ∈ diagram.nodes, ∀ kind, node.tag = .container kind →
    ∃ body figure, diagram.children node.id = [body] ∧
      node.figure = some figure ∧
      body.bounds.Inside (node.bounds.inset settings.padding) ∧
      figure.Inside (node.bounds.inset settings.padding)

theorem encloses_unmarked (accepted : settings.Accepted)
    {program : Program (Label Rat)} (distinct : program.ids.Nodup) :
    (unmarked (program.framed settings)).Encloses settings where
  nodes := fun node nodeIn =>
    Arrangement.bounds_inside (program.fits_framed accepted) nodeIn
  children := fun node nodeIn child childIn =>
    children_inside accepted distinct nodeIn childIn
  figures := fun node nodeIn figure isFigure =>
    figure_inside accepted distinct nodeIn isFigure
  anchors := by
    intro node nodeIn entry entryIn
    obtain ⟨inner, -, corner, outer, level, rfl, -⟩ :=
      exists_shownAt distinct nodeIn
    exact inner.anchors_shown accepted corner outer level entryIn
  loop := by
    intro node nodeIn kind isLoop
    obtain ⟨inner, -, corner, outer, level, rfl, children⟩ :=
      exists_shownAt distinct nodeIn
    rw [children]
    exact inner.loop_shown corner outer level isLoop
  decision := by
    intro node nodeIn isDecision consequent isAlone
    obtain ⟨inner, -, corner, outer, level, rfl, children⟩ :=
      exists_shownAt distinct nodeIn
    rw [children] at isAlone
    exact inner.decision_alone_shown corner outer level isDecision isAlone
  container := by
    intro node nodeIn kind isContainer
    obtain ⟨inner, -, corner, outer, level, rfl, children⟩ :=
      exists_shownAt distinct nodeIn
    rw [children]
    exact inner.container_shown accepted corner outer level isContainer

/-- Marking a diagram leaves everything where it is. -/
theorem Encloses.markReachable {diagram : Diagram Rat}
    (encloses : diagram.Encloses settings) (starts : List NodeId) :
    (diagram.markReachable starts).Encloses settings where
  nodes := by
    intro node nodeIn
    obtain ⟨plain, plainIn, rfl⟩ := List.mem_map.mp nodeIn
    exact encloses.nodes plain plainIn
  children := by
    intro node nodeIn child childIn
    obtain ⟨plain, plainIn, rfl⟩ := List.mem_map.mp nodeIn
    rw [children_markReachable] at childIn
    obtain ⟨plainChild, plainChildIn, rfl⟩ := List.mem_map.mp childIn
    exact encloses.children plain plainIn plainChild plainChildIn
  figures := by
    intro node nodeIn
    obtain ⟨plain, plainIn, rfl⟩ := List.mem_map.mp nodeIn
    exact encloses.figures plain plainIn
  anchors := by
    intro node nodeIn
    obtain ⟨plain, plainIn, rfl⟩ := List.mem_map.mp nodeIn
    exact encloses.anchors plain plainIn
  loop := by
    intro node nodeIn kind isLoop
    obtain ⟨plain, plainIn, rfl⟩ := List.mem_map.mp nodeIn
    obtain ⟨body, children, free⟩ := encloses.loop plain plainIn kind isLoop
    exact ⟨diagram.marked starts body,
      by rw [children_markReachable, children, List.map_singleton], free⟩
  decision := by
    intro node nodeIn isDecision consequent isAlone
    obtain ⟨plain, plainIn, rfl⟩ := List.mem_map.mp nodeIn
    rw [children_markReachable] at isAlone
    obtain ⟨plainChild, plainAlone, rfl⟩ := List.map_eq_singleton_iff.mp isAlone
    exact encloses.decision plain plainIn isDecision plainChild plainAlone
  container := by
    intro node nodeIn kind isContainer
    obtain ⟨plain, plainIn, rfl⟩ := List.mem_map.mp nodeIn
    obtain ⟨body, figure, children, isFigure, inside⟩ :=
      encloses.container plain plainIn kind isContainer
    exact ⟨diagram.marked starts body, figure,
      by rw [children_markReachable, children, List.map_singleton], isFigure,
      inside⟩

/-- What stands below a node lies inside it. -/
theorem Encloses.below {diagram : Diagram Rat}
    (encloses : diagram.Encloses settings) {upper lower : DiagramNode Rat}
    (below : Below diagram.nodes upper lower) :
    lower.bounds.Inside upper.bounds := by
  induction below with
  | child upperIn lowerIn isParent =>
      exact encloses.children _ upperIn _
        (List.mem_filter.mpr ⟨lowerIn, by simpa using isParent⟩)
  | further above lowerIn isParent ih =>
      exact (encloses.children _ above.lower_mem _
        (List.mem_filter.mpr ⟨lowerIn, by simpa using isParent⟩)).trans ih

end Diagram

end Flowchart
