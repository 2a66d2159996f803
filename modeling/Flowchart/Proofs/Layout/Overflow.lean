import Flowchart.Proofs.Layout.Extent
import Flowchart.Proofs.Scalar.Value
import Flowchart.Proofs.Tree.Verdict

/-!
# Measures beyond single precision

Validation bounds the hints of a tree, but of the numbers in the settings it asks
only that they are finite.  Where these are bounded as well, no measure of a tree of
a million nodes is greater than the greatest number of single precision.  Where they
are not, two statements may be too tall together.
-/

namespace Flowchart

open Scalar

/-! ## The numbers that are written -/

def Size.exact (size : Size Float32) : Size Rat :=
  ⟨Single.value size.width, Single.value size.height⟩

def MinimumSizes.exact (sizes : MinimumSizes Float32) : MinimumSizes Rat where
  statement := sizes.statement.exact
  condition := sizes.condition.exact
  loopHeader := sizes.loopHeader.exact
  terminal := sizes.terminal.exact
  header := sizes.header.exact
  typeDefinition := sizes.typeDefinition.exact

theorem MinimumSizes.forTag_exact (sizes : MinimumSizes Float32) (tag : Tag) :
    sizes.exact.forTag tag = (sizes.forTag tag).exact := by
  cases tag <;> rfl

/-- A label with the rational numbers that its numbers stand for. -/
def Label.exact (label : Label Float32) : Label Rat :=
  ⟨label.id, label.text, label.hint.map Size.exact⟩

/-- A hint that validation passes is within the bound for hints. -/
theorem Label.isWithin_exact {label : Label Float32}
    (valid : label.hasValidHint = true) {span : Rat}
    (room : (Label.greatestHint : Rat) ≤ span) : label.exact.IsWithin span := by
  have bound : Single.value (ofNat Label.greatestHint) = (Label.greatestHint : Rat) := by
    decide +kernel
  have boundFinite : (ofNat Label.greatestHint : Float32).isFinite = true := by
    decide +kernel
  intro hint isHint
  obtain ⟨written, isWritten, rfl⟩ := Option.map_eq_some_iff.mp isHint
  have modest := hasValidHint_iff.mp valid written isWritten
  have width := Single.value_le_value modest.finite.1 boundFinite modest.width.2
  have height := Single.value_le_value modest.finite.2 boundFinite modest.height.2
  rw [bound] at width height
  exact ⟨width.trans room, height.trans room⟩

namespace LayoutSettings

/-- The settings with the rational numbers that their numbers stand for. -/
def exact (settings : LayoutSettings Float32) : LayoutSettings Rat where
  statementSpacing := Single.value settings.statementSpacing
  branchGap := Single.value settings.branchGap
  loopClearance := Single.value settings.loopClearance
  padding := {
    top := Single.value settings.padding.top
    right := Single.value settings.padding.right
    bottom := Single.value settings.padding.bottom
    left := Single.value settings.padding.left }
  maxDepth := settings.maxDepth
  minimumSizes := settings.minimumSizes.exact

variable {name : String} {number : Float32}

theorem value_pos_of_checkPositive (passed : checkPositive name number = .ok ()) :
    0 < Single.value number := by
  have above := of_checkPositive passed
  unfold checkPositive at passed
  split at passed
  · cases passed
  · rename_i sound
    have finite : Scalar.isFinite number = true := by
      simp only [Bool.or_eq_true, not_or] at sound
      simpa using sound.1
    exact Single.value_pos finite above

theorem value_nonneg_of_checkNotNegative
    (passed : checkNotNegative name number = .ok ()) : 0 ≤ Single.value number :=
  Single.value_nonneg (of_checkNotNegative passed)

theorem accepted_exact {settings : LayoutSettings Float32}
    (usable : settings.validate = .ok ()) : settings.exact.Accepted := by
  have accepted := validate_accepted usable
  unfold validate at usable
  simp only [bind_eq_ok] at usable
  obtain ⟨⟨⟩, spacing, ⟨⟩, branchGap, ⟨⟩, clearance, ⟨⟩, top, ⟨⟩, right, ⟨⟩, bottom,
    ⟨⟩, left, -⟩ := usable
  exact {
    spacing := not_le.mpr (value_pos_of_checkPositive spacing)
    branchGap := not_le.mpr (value_pos_of_checkPositive branchGap)
    clearance := not_le.mpr (value_pos_of_checkPositive clearance)
    top := not_lt.mpr (value_nonneg_of_checkNotNegative top)
    right := not_lt.mpr (value_nonneg_of_checkNotNegative right)
    bottom := not_lt.mpr (value_nonneg_of_checkNotNegative bottom)
    left := not_lt.mpr (value_nonneg_of_checkNotNegative left)
    minimum := by
      intro tag
      obtain ⟨valid, wide, high⟩ := accepted.minimum tag
      unfold Size.isValid at valid
      simp only [Bool.and_eq_true] at valid
      have width := Single.value_pos valid.1.1.1 wide
      have height := Single.value_pos valid.1.1.2 high
      have sizes_eq : settings.exact.minimumSizes.forTag tag =
          (settings.minimumSizes.forTag tag).exact :=
        settings.minimumSizes.forTag_exact tag
      rw [sizes_eq]
      refine ⟨?_, not_le.mpr width, not_le.mpr height⟩
      unfold Size.isValid
      simp only [Bool.and_eq_true, decide_eq_true_eq]
      exact ⟨⟨⟨rfl, rfl⟩, width.le⟩, height.le⟩ }

end LayoutSettings

/-! ## Trees -/

/-- The numbers of a tree that passes validation are within the bound for hints. -/
theorem Tree.Stores.isWithin_exact {tree : Tree Float32} {limit : Nat}
    {program : Located Float32} (stores : tree.Stores limit program) {span : Rat}
    (room : (Label.greatestHint : Rat) ≤ span) :
    ∀ label ∈ (program.written.map Label.exact).labels, label.IsWithin span := by
  intro label labelIn
  rw [Program.labels_map, Program.written, Program.labels_map] at labelIn
  obtain ⟨written, writtenIn, rfl⟩ := List.mem_map.mp labelIn
  obtain ⟨located, locatedIn, rfl⟩ := List.mem_map.mp writtenIn
  obtain ⟨node, nodeIn, rfl⟩ := List.mem_map.mp locatedIn
  exact Label.isWithin_exact (stores.hasValidHint nodeIn) room

/-- In exact arithmetic a tree that passes validation is measured, and no measure is
greater than five times the greatest number in the settings and the hints, for each
node of the tree.  So none is beyond single precision where a tree has no more than
a million nodes and the settings no number above a certain one. -/
theorem Tree.measures_bounded {settings : LayoutSettings Float32} {tree : Tree Float32}
    (usable : settings.validate = .ok ())
    (valid : tree.validate settings.maxDepth = .ok ()) :
    ∃ program arrangement, tree.program settings.maxDepth = .ok program ∧
      (((program.map Label.exact).measure settings.exact).run.run .empty).1 =
        .ok arrangement ∧
      (∀ span, (Label.greatestHint : Rat) ≤ span → settings.exact.IsWithin span →
        ∀ node ∈ arrangement.preorder,
          node.label.IsWithin (5 * span * tree.size)) ∧
      (tree.size ≤ 2 ^ 20 → settings.exact.IsWithin (2 ^ 105) →
        ∀ node ∈ arrangement.preorder,
          node.label.IsWithin (Single.value Single.greatest)) := by
  obtain ⟨located, stores⟩ := exists_stores valid
  have accepted := LayoutSettings.accepted_exact usable
  have distinct : (located.written.map Label.exact).ids.Nodup := by
    rw [← Program.labels_map_id, Program.map_map]
    exact (Program.labels_map_id located.written).symm ▸ stores.ids_nodup
  have count : (located.written.map Label.exact).preorder.length ≤ tree.size := by
    rw [Program.preorder_map, Program.written, Program.preorder_map, List.length_map,
      List.length_map]
    exact stores.length_preorder_le
  have bounded : ∀ span, (Label.greatestHint : Rat) ≤ span →
      settings.exact.IsWithin span →
        ∀ node ∈ ((located.written.map Label.exact).framed settings.exact).preorder,
          node.label.IsWithin (5 * span * tree.size) := by
    intro span room within node nodeIn
    have measured := Program.framed_isWithin accepted within (stores.isWithin_exact room)
      node nodeIn
    have spanPos : 0 < span := accepted.spacing_pos.trans_le within.spacing
    refine measured.mono ?_
    gcongr
  refine ⟨located.written, _, program_eq valid stores,
    Program.measure_exact accepted distinct, bounded, fun few within node nodeIn => ?_⟩
  have room : (Label.greatestHint : Rat) ≤ 2 ^ 105 := by norm_num [Label.greatestHint]
  have fewer : (tree.size : Rat) ≤ 2 ^ 20 := by exact_mod_cast few
  refine (bounded _ room within node nodeIn).mono ?_
  rw [Single.value_greatest]
  calc (5 * 2 ^ 105 * tree.size : Rat)
      ≤ 5 * 2 ^ 105 * 2 ^ 20 := by gcongr
    _ ≤ (2 ^ 24 - 1) * 2 ^ 104 := by norm_num

/-- A block of two statements. -/
def twoStatements : Tree Float32 where
  nodes := #[
    ⟨⟨"first", "", none⟩, .statement .expression⟩,
    ⟨⟨"second", "", none⟩, .statement .expression⟩,
    ⟨⟨"root", "", none⟩, .block [0, 1]⟩]
  root := some 2

theorem twoStatements_valid : twoStatements.validate 64 = .ok () := by
  cbv

theorem Tree.measures_bounded_twoStatements :
    (LayoutSettings.standard : LayoutSettings Float32).validate = .ok () ∧
      twoStatements.validate
        (LayoutSettings.standard : LayoutSettings Float32).maxDepth = .ok () ∧
      ∃ program arrangement,
        twoStatements.program
            (LayoutSettings.standard : LayoutSettings Float32).maxDepth = .ok program ∧
          (((program.map Label.exact).measure
            (LayoutSettings.standard : LayoutSettings Float32).exact).run.run .empty).1 =
              .ok arrangement ∧
          ∀ node ∈ arrangement.preorder,
            node.label.IsWithin (Single.value Single.greatest) := by
  have usable : (LayoutSettings.standard : LayoutSettings Float32).validate = .ok () := by
    decide +kernel
  have within : (LayoutSettings.standard : LayoutSettings Float32).exact.IsWithin
      (2 ^ 105) := by
    refine ⟨by decide +kernel, by decide +kernel, by decide +kernel, by decide +kernel,
      by decide +kernel, by decide +kernel, by decide +kernel, fun tag => ?_⟩
    cases tag with
    | loop kind => cases kind <;> decide +kernel
    | container kind => cases kind <;> decide +kernel
    | _ => decide +kernel
  obtain ⟨program, arrangement, read, measured, -, bounded⟩ :=
    measures_bounded usable twoStatements_valid
  exact ⟨usable, twoStatements_valid, program, arrangement, read, measured,
    bounded (by decide +kernel) within⟩

/-- Statements are at least as tall as half the range of single precision. -/
def tallStatements : LayoutSettings Float32 :=
  { LayoutSettings.standard with
    minimumSizes :=
      { MinimumSizes.standard with statement := ⟨160, Float32.ofNat (2 ^ 127)⟩ } }

/-- Two tall statements pass validation, as do their settings, but they are too tall
together: there is no layout of them. -/
theorem Tree.twoStatements_overflow :
    tallStatements.validate = .ok () ∧
      twoStatements.validate tallStatements.maxDepth = .ok () ∧
      twoStatements.size ≤ 2 ^ 20 ∧
      (∃ program arrangement,
        twoStatements.program tallStatements.maxDepth = .ok program ∧
          (((program.map Label.exact).measure tallStatements.exact).run.run .empty).1 =
            .ok arrangement ∧
          Single.value Single.greatest < arrangement.label.size.height) ∧
      twoStatements.layout tallStatements =
        .error (.inconsistent (.invalidGeometry "root")) := by
  have usable : tallStatements.validate = .ok () := by
    decide +kernel
  have read : twoStatements.program tallStatements.maxDepth =
      .ok (.block ⟨"root", "", none⟩ [.statement ⟨"first", "", none⟩ .expression,
        .statement ⟨"second", "", none⟩ .expression]) := by
    have limit : tallStatements.maxDepth = 64 := rfl
    rw [limit]
    cbv
  refine ⟨usable, twoStatements_valid, by decide +kernel, ⟨_, _, read,
    Program.measure_exact (LayoutSettings.accepted_exact usable) (by decide), ?_⟩, ?_⟩
  · decide +kernel
  · rw [layout_eq read (by decide), Program.diagram]
    decide +kernel

end Flowchart
