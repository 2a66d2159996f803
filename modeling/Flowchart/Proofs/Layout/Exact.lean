import Flowchart.Proofs.Flow.Endpoints
import Flowchart.Proofs.Layout.Fitting

/-!
# Layout in exact arithmetic

Without rounding every node fits into its parent and no siblings overlap.  So
layout succeeds for every tree that passes validation.
-/

namespace Flowchart

open Scalar

/-- Every node of an arrangement has room for what is in it. -/
def Arrangement.Fits (arrangement : Arrangement Rat) : Prop :=
  ∀ node ∈ arrangement.preorder,
    node.label.Fits (node.children.map Program.label)

theorem Arrangement.Fits.root {arrangement : Arrangement Rat}
    (fits : arrangement.Fits) :
    arrangement.label.Fits (arrangement.children.map Program.label) :=
  fits arrangement arrangement.self_mem_preorder

theorem Arrangement.Fits.child {arrangement child : Arrangement Rat}
    (fits : arrangement.Fits) (childIn : child ∈ arrangement.children) :
    child.Fits :=
  fun node nodeIn => fits node (Program.mem_preorder_of_child childIn nodeIn)

namespace Program

variable {settings : LayoutSettings Rat}

theorem fits_framed_root (accepted : settings.Accepted)
    (program : Program (Label Rat)) :
    (program.framed settings).label.Fits
      ((program.framed settings).children.map Program.label) := by
  have figure_pos := accepted.figureSize_pos
  induction program with
  | statement label kind =>
      exact Frame.fits_leaf label true (figure_pos _ _).1 (figure_pos _ _).2
  | result label =>
      exact Frame.fits_leaf label false (figure_pos _ _).1 (figure_pos _ _).2
  | typeDefinition label =>
      exact Frame.fits_leaf label true (figure_pos _ _).1 (figure_pos _ _).2
  | block label members ih =>
      cases members with
      | nil =>
          exact Frame.fits_leaf label true (figure_pos _ _).1 (figure_pos _ _).2
      | cons first rest =>
          refine Frame.fits_column label accepted.spacing_pos.le
            (List.cons_ne_nil _ _) fun frame frameIn => ?_
          have isMember : frame ∈ (framedMembers settings (first :: rest)).map
              Program.label := frameIn
          rw [framedMembers_eq, List.map_map] at isMember
          obtain ⟨member, memberIn, rfl⟩ := List.mem_map.mp isMember
          exact (ih member memberIn).toSound
  | decision label consequent ih =>
      have noneElse : ∀ frame ∈ (none : Option (Frame Rat)), frame.Sound := by
        simp
      exact (Frame.headed_decision label accepted (figure_pos _ _).1
        (figure_pos _ _).2 ih.toSound noneElse).fits
  | choice label consequent alternative ih₁ ih₂ =>
      have soundElse : ∀ frame ∈ some (alternative.framed settings).label,
          frame.Sound := by
        rintro _ ⟨⟩
        exact ih₂.toSound
      exact (Frame.headed_decision label accepted (figure_pos _ _).1
        (figure_pos _ _).2 ih₁.toSound soundElse).fits
  | selection label arms ih =>
      have children_eq : (framed settings (.selection label arms)).children.map
          Program.label =
            (framedArms settings arms).map fun arm => arm.2.label := by
        simp [framed, children]
      rw [children_eq]
      refine (Frame.headed_selection label accepted (figure_pos _ _).1
        (figure_pos _ _).2 fun frame isFrame => ?_).fits
      rw [framedArms_eq, List.map_map] at isFrame
      obtain ⟨arm, armIn, rfl⟩ := List.mem_map.mp isFrame
      exact (ih arm armIn).toSound
  | loop label kind body ih =>
      exact (Frame.headed_loop label accepted (figure_pos _ _).1
        (figure_pos _ _).2 ih.toSound).fits
  | container label kind body ih =>
      exact (Frame.headed_container label accepted (figure_pos _ _).1
        (figure_pos _ _).2 ih.toSound).fits

theorem fits_framed (accepted : settings.Accepted)
    (program : Program (Label Rat)) : Arrangement.Fits (program.framed settings) := by
  intro node nodeIn
  rw [preorder_framed] at nodeIn
  obtain ⟨inner, -, rfl⟩ := List.mem_map.mp nodeIn
  exact fits_framed_root accepted inner

end Program

namespace Arrangement

theorem fault?_eq_none {arrangement : Arrangement Rat} (fits : arrangement.Fits) :
    fault? arrangement = none := by
  rw [fault?_eq_none_iff]
  intro node nodeIn
  have sound := (fits node nodeIn).toSound
  have width : (0 : Rat) ≤ node.label.size.width :=
    sound.spine_nonneg.trans sound.spine_le
  have isValid : node.label.size.isValid = true := by
    simp only [Size.isValid, Bool.and_eq_true, decide_eq_true_eq]
    exact ⟨⟨⟨rfl, rfl⟩, width⟩, sound.height_nonneg⟩
  have isFinite : Scalar.isFinite node.label.spine = true := rfl
  simp [Frame.fault?, isValid, isFinite]

/-! ## Siblings -/

theorem firstOverlap?_eq_none {placed : List (NodeId × Rect Rat)}
    (apart : placed.Pairwise fun first second => first.2.Apart second.2) :
    firstOverlap? placed = none := by
  induction placed with
  | nil => rfl
  | cons first rest ih =>
      obtain ⟨firstApart, restApart⟩ := List.pairwise_cons.mp apart
      have noneFound : rest.find? (fun entry => first.2.overlaps entry.2) =
          none :=
        List.find?_eq_none.mpr fun entry entryIn => by
          simp [(firstApart entry entryIn).overlaps_eq]
      rw [firstOverlap?, noneFound]
      exact ih restApart

theorem childOrigin_eq (origin : Point Rat) (frame : Frame Rat) (index : Nat) :
    childOrigin origin frame index = origin + frame.offset index := rfl

theorem childBounds_apart (origin : Point Rat) {frame : Frame Rat}
    {children : List (Arrangement Rat)}
    (fits : frame.Fits (children.map Program.label)) :
    (childBounds origin frame children).Pairwise fun first second =>
      first.2.Apart second.2 := by
  rw [List.pairwise_iff_getElem]
  intro index later inside insideLater isBefore
  simp only [childBounds, List.length_mapIdx] at inside insideLater
  simp only [childBounds, List.getElem_mapIdx]
  have apart := fits.apart index later children[index].label
    children[later].label isBefore (by simp [inside]) (by simp [insideLater])
  rw [childOrigin_eq, childOrigin_eq, Rect.ofTopLeft_add, Rect.ofTopLeft_add]
  exact apart.translate origin

theorem membersOverlap?_eq_none {origin : Point Rat} {frame : Frame Rat}
    {index : Nat} {members : List (Arrangement Rat)}
    (each : ∀ member ∈ members, ∀ origin, overlap? origin member = none) :
    membersOverlap? origin frame index members = none := by
  induction members generalizing index with
  | nil => rfl
  | cons member rest ih =>
      rw [membersOverlap?, each member List.mem_cons_self,
        ih fun other otherIn => each other (List.mem_cons_of_mem _ otherIn)]
      rfl

theorem overlap?_eq_none {arrangement : Arrangement Rat}
    (fits : arrangement.Fits) (origin : Point Rat) :
    overlap? origin arrangement = none := by
  induction arrangement using Program.childrenInduction generalizing origin with
  | step arrangement ih =>
    have noneBelow :
        membersOverlap? origin arrangement.label 0 arrangement.children = none :=
      membersOverlap?_eq_none fun child childIn origin =>
        ih child childIn (fits.child childIn) origin
    rw [overlap?_eq, firstOverlap?_eq_none (childBounds_apart origin fits.root),
      noneBelow]
    rfl

end Arrangement

/-! ## Every tree -/

/-- A program is measured, whatever its labels are. -/
theorem Program.measure_exact {settings : LayoutSettings Rat}
    (accepted : settings.Accepted) {program : Program (Label Rat)}
    (distinct : program.ids.Nodup) :
    ((program.measure settings).run.run .empty).1 = .ok (program.framed settings) := by
  rw [(measure_gives distinct (Tree.sound_empty program)).result_eq, arrange,
    Arrangement.fault?_eq_none (fits_framed accepted program)]
  rfl

theorem Program.diagram_exact {settings : LayoutSettings Rat}
    {program : Program (Label Rat)} (accepted : settings.Accepted)
    (distinct : program.ids.Nodup) :
    program.diagram settings =
      .ok ((Diagram.unmarked (program.framed settings)).markReachable
        (program.map Label.id).flow.2) := by
  have fits := fits_framed accepted program
  rw [diagram_eq distinct, Arrangement.fault?_eq_none fits,
    Arrangement.overlap?_eq_none fits]
  rfl

/-- A tree that passes validation is laid out. -/
theorem Tree.layout_exact {settings : LayoutSettings Rat} {tree : Tree Rat}
    {program : Located Rat} (accepted : settings.Accepted)
    (valid : tree.validate settings.maxDepth = .ok ())
    (stores : tree.Stores settings.maxDepth program) :
    tree.layout settings =
      .ok ((Diagram.unmarked (program.written.framed settings)).markReachable
        (program.written.map Label.id).flow.2) := by
  rw [layout_eq (program_eq valid stores) stores.ids_nodup,
    Program.diagram_exact accepted stores.ids_nodup]
  rfl

theorem LayoutSettings.standard_accepted :
    (LayoutSettings.standard : LayoutSettings Rat).Accepted :=
  validate_accepted (by cbv)

theorem Tree.exists_standard_layout {tree : Tree Rat}
    (valid : tree.validate
      (LayoutSettings.standard : LayoutSettings Rat).maxDepth = .ok ()) :
    ∃ diagram, tree.layout .standard = .ok diagram := by
  obtain ⟨program, stores⟩ := exists_stores valid
  exact ⟨_, layout_exact LayoutSettings.standard_accepted valid stores⟩

end Flowchart
