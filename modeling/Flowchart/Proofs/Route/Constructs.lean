import Flowchart.Proofs.Route.Branches
import Flowchart.Proofs.Route.Stacks

/-!
# A channel through every construct

The channels of the children of a construct make one channel through the
construct, whatever its kind is.  So there is a channel through every program in
which nothing is declared.
-/

namespace Flowchart

open Scalar

namespace Channel

variable {settings : LayoutSettings Rat} {arrangement : Arrangement Rat}
  {origin : Point Rat} {parent : Option NodeId} {depth : Nat}
  {label : Label Rat} {size : Size Rat} (fits : arrangement.Fits)

section Own

variable {figure : Rect Rat} {top : Rat}

include fits

/-- A figure of its own that flow passes, or where flow ends. -/
theorem of_leaf (goesOn : Bool) (tag : Tag)
    (isLeaf : arrangement.label = Frame.leaf label size goesOn) :
    Channel settings (arrangement.place origin parent depth)
      (arrangement.label.bounds origin) (origin.x + arrangement.label.spine)
      { Wiring.passing arrangement.label.id tag with
        exits :=
          if goesOn then [⟨⟨arrangement.label.id, .exit⟩, .sequential, none⟩]
          else [] } := by
  refine of_fits fits origin parent depth rfl ?_ ?_ ?_
  · rw [isLeaf]
    rfl
  · intro edge edgeIn
    cases edgeIn
  · intro exit exitIn
    cases goesOn with
    | false => cases exitIn
    | true =>
        obtain rfl := List.mem_singleton.mp exitIn
        refine ⟨_, _, _, leaves_bottom fits origin parent depth rfl rfl ?_⟩
        rw [isLeaf]
        rfl

/-- A construct whose branches come together at the bottom of its spine. -/
theorem of_merging {tag : Tag} {edges : List Edge} {starts : List NodeId}
    {merged : Bool}
    (onTop : arrangement.label.anchors.lookup .entry =
      some ⟨arrangement.label.spine, 0⟩)
    (atBottom : arrangement.label.anchors.lookup .merge =
      some ⟨arrangement.label.spine, arrangement.label.size.height⟩)
    (clear : ∀ edge ∈ edges,
      IsClear settings (arrangement.place origin parent depth)
        (arrangement.label.bounds origin) edge) :
    Channel settings (arrangement.place origin parent depth)
      (arrangement.label.bounds origin) (origin.x + arrangement.label.spine)
      (.merging arrangement.label.id tag edges starts merged) := by
  refine of_fits fits origin parent depth rfl onTop clear ?_
  intro exit exitIn
  rw [Wiring.merging] at exitIn
  split at exitIn
  · obtain rfl := List.mem_singleton.mp exitIn
    exact ⟨_, _, _, leaves_bottom fits origin parent depth rfl rfl atBottom⟩
  · cases exitIn

end Own

/-! ## Decisions -/

section Decision

variable {consequent alternative : Arrangement Rat} {wiring next : Wiring}
  (accepted : settings.Accepted) (wide : 0 < size.width) (high : 0 < size.height)

include fits accepted wide high

theorem headed_of_decision (other : Option (Arrangement Rat))
    (isDecision : arrangement.label =
      Frame.decision label size settings consequent.label
        (other.map Program.label))
    (children_eq : arrangement.children = consequent :: other.toList) :
    arrangement.label.Headed (Frame.figureOn arrangement.label.spine 0 size)
      (arrangement.children.map Program.label)
      (size.height + settings.statementSpacing) := by
  have sound : ∀ child ∈ arrangement.children, child.label.Sound :=
    fun child childIn => (fits.child childIn).root.toSound
  rw [children_eq] at sound
  have otherSound : ∀ frame ∈ other.map Program.label, frame.Sound := by
    intro frame isFrame
    obtain ⟨child, isChild, rfl⟩ := Option.map_eq_some_iff.mp isFrame
    exact sound child (List.mem_cons_of_mem _ (Option.mem_toList.mpr isChild))
  have frames_eq : arrangement.children.map Program.label =
      consequent.label :: (other.map Program.label).toList := by
    rw [children_eq, List.map_cons, Option.toList_map]
  rw [isDecision, frames_eq]
  exact Frame.headed_decision label accepted wide high
    (sound consequent List.mem_cons_self) otherSound

/-- A decision without alternative has a lane to the right of the consequent. -/
theorem of_decision
    (isDecision : arrangement.label =
      Frame.decision label size settings consequent.label none)
    (children_eq : arrangement.children = [consequent])
    (branch : Branch settings arrangement origin depth 0 consequent wiring) :
    Channel settings (arrangement.place origin parent depth)
      (arrangement.label.bounds origin) (origin.x + arrangement.label.spine)
      (.decision arrangement.label.id wiring none) := by
  have headed := headed_of_decision fits accepted wide high none isDecision
    children_eq
  have gap := accepted.branchGap_pos
  obtain ⟨columnLe, figureLe⟩ := Frame.le_decisionRight size consequent.label
  have atBottom : arrangement.label.anchors.lookup .merge =
      some ⟨arrangement.label.spine, arrangement.label.size.height⟩ := by
    rw [isDecision]
    rfl
  have spine_eq : (Frame.decision label size settings consequent.label
      none).spine = _ := Frame.decision_spine label
  have width_eq : (Frame.decision label size settings consequent.label
      none).size.width = _ := Frame.decision_width label
  refine of_merging fits (by rw [isDecision]; rfl) atBottom fun edge edgeIn => ?_
  rcases List.mem_append.mp edgeIn with inBranch | isBypass
  · refine branch.branchEdges fits headed ?_ atBottom edge inBranch
    refine branch.enters fits headed rfl rfl ?_
    rw [isDecision]
    rfl
  · obtain rfl := List.mem_singleton.mp isBypass
    refine bypass fits headed rfl rfl ?_ atBottom gap.le ?_ ?_
    · rw [isDecision]
      rfl
    · rw [Frame.figureOn_exact, isDecision, width_eq, spine_eq]
      simp only [Option.map_none, Option.getD_none]
      linarith
    · intro index child isChild
      obtain ⟨rfl, rfl⟩ : index = 0 ∧ consequent = child := by
        simpa [children_eq, List.getElem?_singleton] using isChild
      rw [isDecision, width_eq, Frame.decision_offset]
      simp only [Option.map_none, Option.getD_none]
      linarith

theorem of_choice
    (isDecision : arrangement.label =
      Frame.decision label size settings consequent.label
        (some alternative.label))
    (children_eq : arrangement.children = [consequent, alternative])
    (branch : Branch settings arrangement origin depth 0 consequent wiring)
    (other : Branch settings arrangement origin depth 1 alternative next) :
    Channel settings (arrangement.place origin parent depth)
      (arrangement.label.bounds origin) (origin.x + arrangement.label.spine)
      (.decision arrangement.label.id wiring (some next)) := by
  have headed := headed_of_decision fits accepted wide high (some alternative)
    isDecision children_eq
  have gap := accepted.branchGap_pos
  obtain ⟨-, figureLe⟩ := Frame.le_decisionRight size consequent.label
  have atBottom : arrangement.label.anchors.lookup .merge =
      some ⟨arrangement.label.spine, arrangement.label.size.height⟩ := by
    rw [isDecision]
    rfl
  refine of_merging fits (by rw [isDecision]; rfl) atBottom fun edge edgeIn => ?_
  rcases List.mem_append.mp edgeIn with inBranch | inOther
  · refine branch.branchEdges fits headed ?_ atBottom edge inBranch
    refine branch.enters fits headed rfl rfl ?_
    rw [isDecision]
    rfl
  · refine other.branchEdges fits headed ?_ atBottom edge inOther
    refine Branch.entersAside fits headed rfl rfl ?_ other ?_
    · rw [isDecision]
      rfl
    · rw [Frame.figureOn_exact, isDecision, Frame.decision_spine,
        Frame.choice_offset]
      simp only
      linarith

end Decision

/-! ## Selections -/

section Selection

variable {arms : List (String × Arrangement Rat)}

theorem anchors_nodup (frames : List (Frame Rat)) :
    ((Frame.selection label size settings frames).anchors.map
      Prod.fst).Nodup := by
  have names_eq : (Frame.selection label size settings frames).anchors.map
      Prod.fst = .entry :: (List.range frames.length).map .arm ++ [.merge] := by
    simp [Frame.selection, Function.comp_def]
  rw [names_eq]
  refine List.nodup_append.mpr ⟨List.nodup_cons.mpr ⟨by simp, ?_⟩, by simp,
    by simp⟩
  exact List.nodup_range.map fun first second same => by simpa using same

theorem lookup_arm {frames : List (Frame Rat)} {index : Nat}
    (inside : index < frames.length) :
    (Frame.selection label size settings frames).anchors.lookup (.arm index) =
      some ⟨(Frame.selection label size settings frames).spine,
        (Frame.figureOn (Frame.selection label size settings frames).spine 0
          size).maxY⟩ := by
  rw [Keyed.lookup_eq_some (anchors_nodup frames)]
  simp only [Frame.selection, List.cons_append, List.mem_cons, List.mem_append,
    List.mem_map, List.mem_range]
  exact .inr (.inl ⟨index, inside, rfl⟩)

theorem lookup_merge (frames : List (Frame Rat)) :
    (Frame.selection label size settings frames).anchors.lookup .merge =
      some ⟨(Frame.selection label size settings frames).spine,
        (Frame.selection label size settings frames).size.height⟩ := by
  rw [Keyed.lookup_eq_some (anchors_nodup frames)]
  exact List.mem_append_right _ List.mem_cons_self

include fits

theorem of_selection (accepted : settings.Accepted) (wide : 0 < size.width)
    (high : 0 < size.height)
    (isSelection : arrangement.label = Frame.selection label size settings
      (arms.map fun arm => arm.2.label))
    (children_eq : arrangement.children = arms.map Prod.snd)
    (branches : ∀ (index : Nat) (arm : String × Arrangement Rat),
      arms[index]? = some arm →
      Branch settings arrangement origin depth index arm.2
        (Arrangement.wiring arm.2)) :
    Channel settings (arrangement.place origin parent depth)
      (arrangement.label.bounds origin) (origin.x + arrangement.label.spine)
      (.selection arrangement.label.id
        (arms.map fun arm => (arm.1, Arrangement.wiring arm.2))) := by
  have frames_eq : arrangement.children.map Program.label =
      arms.map fun arm => arm.2.label := by
    rw [children_eq, List.map_map]
    rfl
  have sound : ∀ frame ∈ arms.map (fun arm => arm.2.label), frame.Sound := by
    intro frame frameIn
    rw [← frames_eq] at frameIn
    obtain ⟨child, childIn, rfl⟩ := List.mem_map.mp frameIn
    exact (fits.child childIn).root.toSound
  have headed : arrangement.label.Headed
      (Frame.figureOn arrangement.label.spine 0 size)
      (arrangement.children.map Program.label)
      (size.height + settings.statementSpacing) := by
    rw [isSelection, frames_eq]
    exact Frame.headed_selection label accepted wide high sound
  have atBottom : arrangement.label.anchors.lookup .merge =
      some ⟨arrangement.label.spine, arrangement.label.size.height⟩ := by
    rw [isSelection]
    exact lookup_merge _
  refine of_merging fits (by rw [isSelection]; rfl) atBottom fun edge edgeIn => ?_
  obtain ⟨edges, edgesIn, edgeIn⟩ := List.mem_flatten.mp edgeIn
  obtain ⟨index, inside, rfl⟩ := List.mem_mapIdx.mp edgesIn
  rw [List.length_map] at inside
  rw [List.getElem_map] at edgeIn
  have branch := branches index arms[index] (List.getElem?_eq_getElem inside)
  refine branch.branchEdges fits headed ?_ atBottom edge edgeIn
  refine branch.enters fits headed rfl rfl ?_
  rw [isSelection]
  exact lookup_arm (by simpa using inside)

end Selection

/-! ## Loops -/

section Loop

variable {body : Arrangement Rat} {wiring : Wiring}
  (accepted : settings.Accepted) (wide : 0 < size.width) (high : 0 < size.height)
  (isLoop : arrangement.label = Frame.loop label size settings body.label)
  (children_eq : arrangement.children = [body])
  (branch : Branch settings arrangement origin depth 0 body wiring)

include isLoop

/-- Both the figure and the body keep clear of the lanes. -/
theorem loop_sides :
    settings.loopClearance ≤ arrangement.label.spine - body.label.spine ∧
      settings.loopClearance ≤ arrangement.label.spine - size.width / 2 ∧
      arrangement.label.spine + size.width / 2 + settings.loopClearance ≤
        arrangement.label.size.width ∧
      arrangement.label.spine + body.label.rightOfSpine +
        settings.loopClearance ≤ arrangement.label.size.width := by
  have spineLe := le_max_left body.label.spine (size.width / 2)
  have halfLe := le_max_right body.label.spine (size.width / 2)
  have rightLe := le_max_left body.label.rightOfSpine (size.width / 2)
  have halfLeRight := le_max_right body.label.rightOfSpine (size.width / 2)
  rw [isLoop, Frame.loop_spine, Frame.loop_width]
  exact ⟨by linarith, by linarith, by linarith, by linarith⟩

theorem loop_corner (origin : Point Rat) :
    Arrangement.childOrigin origin arrangement.label 0 =
      ⟨origin.x + (arrangement.label.spine - body.label.spine),
        origin.y + (size.height + settings.statementSpacing)⟩ := by
  rw [isLoop]
  rfl

theorem lookup_loopBack : arrangement.label.anchors.lookup .loopBack =
    some ⟨arrangement.label.spine - size.width / 2, size.height / 2⟩ := by
  have isAnchor : arrangement.label.anchors.lookup .loopBack =
      some ⟨(Frame.figureOn arrangement.label.spine 0 size).minX,
        (Frame.figureOn arrangement.label.spine 0 size).center.y⟩ := by
    rw [isLoop]
    rfl
  simpa [Frame.figureOn_exact, Rect.center, half_exact] using isAnchor

theorem lookup_loopExit : arrangement.label.anchors.lookup .loopExit =
    some ⟨arrangement.label.spine + size.width / 2, size.height / 2⟩ := by
  have isAnchor : arrangement.label.anchors.lookup .loopExit =
      some ⟨(Frame.figureOn arrangement.label.spine 0 size).maxX,
        (Frame.figureOn arrangement.label.spine 0 size).center.y⟩ := by
    rw [isLoop]
    rfl
  simpa [Frame.figureOn_exact, Rect.center, half_exact] using isAnchor

include fits accepted wide high children_eq branch

theorem headed_of_loop : arrangement.label.Headed
    (Frame.figureOn arrangement.label.spine 0 size)
    (arrangement.children.map Program.label)
    (size.height + settings.statementSpacing) := by
  rw [isLoop, children_eq]
  exact Frame.headed_loop label accepted wide high
    (fits.child_of_getElem? branch.isChild).root.toSound

/-- From the end of the body flow goes around the left of it to the head. -/
theorem loop_back {tag : Tag} :
    ∀ edge ∈ wiring.close ⟨arrangement.label.id, .loopBack⟩ tag,
      IsClear settings (arrangement.place origin parent depth)
        (arrangement.label.bounds origin) edge := by
  intro edge edgeIn
  obtain ⟨exit, exitIn, rfl⟩ := List.mem_map.mp edgeIn
  obtain ⟨source, start, lane, leaves⟩ := branch.channel.exits exit exitIn
  have headed := headed_of_loop fits accepted wide high isLoop children_eq branch
  obtain ⟨bodyLeft, figureLeft, figureRight, -⟩ := loop_sides isLoop
  have corner_eq := loop_corner isLoop origin
  have height_eq : arrangement.label.size.height =
      size.height + settings.statementSpacing + body.label.size.height +
        settings.statementSpacing := by
    rw [isLoop]
    rfl
  have gap := accepted.spacing_pos
  have clearance := accepted.clearance_pos
  have bodyTall := (fits.child_of_getElem? branch.isChild).root.height_nonneg
  have isBack := lookup_loopBack isLoop
  refine ⟨source, _, start,
    ⟨origin.x + (arrangement.label.spine - size.width / 2),
      origin.y + size.height / 2⟩,
    leaves.way_back branch.channel.within branch.channel.left rfl
      (Arrangement.self_mem_place origin parent depth arrangement) rfl
      (Arrangement.anchor?_nodeAt isBack)
      (Arrangement.place_subset branch.isChild _ _ _)
      (Arrangement.child_inside fits branch.isChild origin) ?_ ?_ ?_ ?_ ?_ ?_
      ?_ ?_⟩
  · simp only [Frame.bounds, Rect.ofTopLeft, Rect.Holds]
    exact ⟨by linarith, by linarith, by linarith, by linarith⟩
  · simp only [Arrangement.nodeAt, Frame.bounds, Rect.ofTopLeft, corner_eq]
    linarith
  · simp only [Arrangement.nodeAt, Frame.bounds, Rect.ofTopLeft]
    linarith
  · simp only [Arrangement.nodeAt, Frame.bounds, Rect.ofTopLeft, corner_eq]
    linarith
  · simp only [Arrangement.nodeAt, Frame.bounds, Rect.ofTopLeft]
    linarith
  · simp only [Arrangement.nodeAt, Rect.ofTopLeft]
    linarith
  · simp only [Frame.bounds, Rect.ofTopLeft, corner_eq]
    linarith
  · intro node nodeIn
    rcases Arrangement.mem_place.mp nodeIn with
      rfl | ⟨index, child, isChild, inChild⟩
    · refine .inr fun figure isFigure => ?_
      rw [Arrangement.nodeAt, headed.isFigure, Frame.figureOn_exact] at isFigure
      obtain rfl := Option.some.inj isFigure
      simp only [Frame.bounds, Rect.ofTopLeft, Rect.translate, corner_eq]
      exact ⟨by linarith, by linarith⟩
    · obtain ⟨rfl, rfl⟩ : index = 0 ∧ body = child := by
        simpa [children_eq, List.getElem?_singleton] using isChild
      exact .inl inChild

/-- Where the condition fails flow goes down the right of the body. -/
theorem loop_exit : ∃ source start lane,
    Leaves settings (arrangement.place origin parent depth)
      (arrangement.label.bounds origin) (origin.x + arrangement.label.spine)
      ⟨⟨arrangement.label.id, .loopExit⟩, .loopExit, none⟩ source start lane := by
  have headed := headed_of_loop fits accepted wide high isLoop children_eq branch
  obtain ⟨-, -, figureRight, bodyRight⟩ := loop_sides isLoop
  have right_eq : body.label.rightOfSpine =
    body.label.size.width - body.label.spine := rfl
  have corner_eq := loop_corner isLoop origin
  have gap := accepted.spacing_pos
  have clearance := accepted.clearance_pos
  have bottom := headed.bottom
  have isExit := lookup_loopExit isLoop
  have figures : Figures (arrangement.place origin parent depth) fun figure =>
      figure.maxX ≤ origin.x + (arrangement.label.spine + size.width / 2) ∨
        origin.y + (size.height + settings.statementSpacing) ≤ figure.minY ∧
        figure.maxX + settings.loopClearance ≤
          origin.x + arrangement.label.size.width := by
    intro node nodeIn figure isFigure
    rcases figure_cases fits headed nodeIn isFigure with
      rfl | ⟨index, child, isChild, -, -, isRight, below, -⟩
    · rw [Frame.figureOn_exact]
      simp only [Rect.translate]
      exact .inl (by linarith)
    · obtain ⟨rfl, rfl⟩ : index = 0 ∧ body = child := by
        simpa [children_eq, List.getElem?_singleton] using isChild
      simp only [Frame.bounds, Rect.ofTopLeft, corner_eq] at isRight below
      exact .inr ⟨below, by linarith⟩
  refine ⟨_, _, origin.x + arrangement.label.size.width -
    settings.loopClearance / 2, {
      sourceIn := Arrangement.self_mem_place origin parent depth arrangement
      isSource := rfl
      isStart := Arrangement.anchor?_nodeAt isExit
      kind := .inr ⟨rfl, rfl, rfl⟩
      right := ?_
      laneRight := ?_
      laneInside := ?_
      top := ?_
      bottom := ?_
      sideways := ?_
      downwards := ?_ }⟩
  · dsimp only
    linarith
  · dsimp only
    linarith
  · simp only [Frame.bounds, Rect.ofTopLeft]
    linarith
  · simp only [Frame.bounds, Rect.ofTopLeft]
    linarith
  · simp only [Frame.bounds, Rect.ofTopLeft]
    linarith
  · intro node nodeIn figure isFigure
    rcases figures node nodeIn figure isFigure with isLeft | ⟨below, -⟩
    · exact .inr (.inl ⟨by dsimp only; linarith, by dsimp only; linarith⟩)
    · exact .inr (.inr (.inl ⟨by dsimp only; linarith, by dsimp only; linarith⟩))
  · intro node nodeIn figure isFigure
    rcases figures node nodeIn figure isFigure with isLeft | ⟨-, isLeft⟩
    · exact .inl (by linarith)
    · exact .inl (by linarith)

theorem of_loop (kind : LoopKind) :
    Channel settings (arrangement.place origin parent depth)
      (arrangement.label.bounds origin) (origin.x + arrangement.label.spine)
      (.loop arrangement.label.id kind wiring) := by
  have headed := headed_of_loop fits accepted wide high isLoop children_eq branch
  refine of_fits fits origin parent depth rfl ?_ ?_ ?_
  · rw [isLoop]
    rfl
  · intro edge edgeIn
    rw [Wiring.loop, List.mem_append, List.mem_append] at edgeIn
    rcases edgeIn with (inner | enters) | closes
    · exact branch.inner fits edge inner
    · refine branch.enters fits headed rfl rfl ?_ edge enters
      rw [isLoop]
      rfl
    · exact loop_back fits accepted wide high isLoop children_eq branch edge
        closes
  · intro exit exitIn
    obtain rfl := List.mem_singleton.mp exitIn
    exact loop_exit fits accepted wide high isLoop children_eq branch

end Loop

end Channel

/-! ## Programs in which nothing is declared -/

namespace Program

variable {settings : LayoutSettings Rat} {program : Program (Label Rat)}

/-- A child of the arrangement is one of the program. -/
theorem exists_of_getElem?_framed {index : Nat} {child : Arrangement Rat}
    (isChild : (program.framed settings).children[index]? = some child) :
    ∃ original ∈ program.children, original.framed settings = child := by
  have childIn := List.mem_of_getElem? isChild
  rw [children_framed] at childIn
  exact List.mem_map.mp childIn

theorem wiring_block {label : Label Rat} {members : List (Program (Label Rat))}
    (filled : members ≠ [])
    (flowing : ∀ member ∈ members, member.tag.isDeclaration = false) :
    Arrangement.wiring ((block label members).framed settings) =
      .chain (((block label members).framed settings).children.map
        Arrangement.wiring) := by
  have noneDeclared : ((members.map (map Label.id)).any
      fun member => member.tag.isDeclaration) = false := by
    rw [List.any_eq_false]
    intro member memberIn
    obtain ⟨original, originalIn, rfl⟩ := List.mem_map.mp memberIn
    simp [flowing original originalIn]
  have wirings_eq : ((block label members).framed settings).children.map
      Arrangement.wiring = (members.map (map Label.id)).map (wire false) := by
    rw [children_framed, List.map_map, List.map_map]
    refine List.map_congr_left fun member _ => ?_
    simp [Arrangement.wiring, map_framed]
  rw [Arrangement.wiring, map_framed, map, mapMembers_eq,
    wire_block false _ (by simpa using filled), noneDeclared, wirings_eq]
  rfl

theorem wiring_selection (label : Label Rat)
    (arms : List (String × Program (Label Rat))) :
    Arrangement.wiring ((selection label arms).framed settings) =
      .selection ((selection label arms).framed settings).label.id
        ((framedArms settings arms).map fun arm =>
          (arm.1, Arrangement.wiring arm.2)) := by
  rw [Arrangement.wiring, framed, map, wire, wireArms_eq, mapArms_eq,
    List.map_map]
  rfl

/-- Nothing bars the flow through a program in which nothing is declared. -/
theorem Flowing.channel (accepted : settings.Accepted)
    (flowing : program.Flowing) (origin : Point Rat) (parent : Option NodeId)
    (depth : Nat) :
    Channel settings
      (Arrangement.place origin parent depth (program.framed settings))
      ((program.framed settings).label.bounds origin)
      (origin.x + (program.framed settings).label.spine)
      (Arrangement.wiring (program.framed settings)) := by
  have figure_pos := accepted.figureSize_pos
  induction program generalizing origin parent depth with
  | statement label kind =>
      have fits := fits_framed accepted (.statement label kind)
      exact Channel.of_leaf fits true .statement rfl
  | result label =>
      have fits := fits_framed accepted (.result label)
      exact Channel.of_leaf fits false .result rfl
  | block label members ih =>
      have fits := fits_framed accepted (.block label members)
      cases members with
      | nil => exact Channel.of_leaf fits true .block rfl
      | cons first rest =>
          rw [wiring_block (List.cons_ne_nil _ _) fun member memberIn =>
            (flowing.child memberIn).root]
          refine Arrangement.channel_pieces fits accepted.spacing_pos.le rfl
            (List.cons_ne_nil _ _) fun member memberIn => ?_
          obtain ⟨index, child, isChild, rfl⟩ := Arrangement.mem_pieces.mp memberIn
          obtain ⟨original, originalIn, rfl⟩ :=
            exists_of_getElem?_framed isChild
          exact Arrangement.flows_piece fits rfl isChild
            (ih original originalIn (flowing.child originalIn) _ _ _)
  | decision label consequent ih =>
      have fits := fits_framed accepted (.decision label consequent none)
      refine Channel.of_decision fits accepted (figure_pos _ _).1 (figure_pos _ _).2
        rfl rfl ⟨rfl, ih (flowing.child ?_) _ _ _⟩
      simp [children]
  | choice label consequent alternative ih₁ ih₂ =>
      have fits := fits_framed accepted (.decision label consequent (some alternative))
      refine Channel.of_choice fits accepted (figure_pos _ _).1 (figure_pos _ _).2
        rfl rfl ⟨rfl, ih₁ (flowing.child ?_) _ _ _⟩
        ⟨rfl, ih₂ (flowing.child ?_) _ _ _⟩
      · simp [children]
      · simp [children]
  | selection label arms ih =>
      have fits := fits_framed accepted (.selection label arms)
      rw [wiring_selection]
      refine Channel.of_selection fits accepted (figure_pos _ _).1
        (figure_pos _ _).2 rfl rfl fun index arm isArm => ?_
      have isChild : ((selection label arms).framed settings).children[index]? =
          some arm.2 := by
        change ((framedArms settings arms).map Prod.snd)[index]? = some arm.2
        rw [List.getElem?_map, isArm]
        rfl
      obtain ⟨original, originalIn, framed_eq⟩ :=
        exists_of_getElem?_framed isChild
      obtain ⟨written, writtenIn, rfl⟩ := List.mem_map.mp originalIn
      rw [← framed_eq] at isChild ⊢
      exact ⟨isChild, ih written writtenIn (flowing.child originalIn) _ _ _⟩
  | loop label kind body ih =>
      have fits := fits_framed accepted (.loop label kind body)
      refine Channel.of_loop fits accepted (figure_pos _ _).1 (figure_pos _ _).2
        rfl rfl ⟨rfl, ih (flowing.child ?_) _ _ _⟩ kind
      simp [children]
  | container label kind body =>
      exact absurd flowing.root (by simp [tag, Tag.isDeclaration])
  | typeDefinition label =>
      exact absurd flowing.root (by simp [tag, Tag.isDeclaration])

end Program

end Flowchart
