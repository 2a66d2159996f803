import Flowchart.Proofs.Results
import Flowchart.Settings.Layout

/-!
# Accepted settings

What validation tells of the settings of a layout: every distance is finite and
has the sign it needs, and every smallest figure encloses an area.  The zoom of a
view starts between limits above zero.
-/

namespace Flowchart

/-- The smallest figure of every construct has a name and is checked. -/
theorem MinimumSizes.exists_name {α : Type} (sizes : MinimumSizes α)
    (tag : Tag) : ∃ name, (name, sizes.forTag tag) ∈ sizes.toList := by
  cases tag with
  | statement | block =>
      exact ⟨"statement", by simp [forTag, toList]⟩
  | decision | selection =>
      exact ⟨"condition", by simp [forTag, toList]⟩
  | loop kind => exact ⟨"loop_header", by simp [forTag, toList]⟩
  | result => exact ⟨"terminal", by simp [forTag, toList]⟩
  | container kind => exact ⟨"header", by simp [forTag, toList]⟩
  | typeDefinition =>
      exact ⟨"type_definition", by simp [forTag, toList]⟩

namespace LayoutSettings

open Scalar

variable {α : Type} [Scalar α]

structure Accepted (settings : LayoutSettings α) : Prop where
  spacing : ¬ settings.statementSpacing ≤ zero
  branchGap : ¬ settings.branchGap ≤ zero
  clearance : ¬ settings.loopClearance ≤ zero
  top : ¬ settings.padding.top < zero
  right : ¬ settings.padding.right < zero
  bottom : ¬ settings.padding.bottom < zero
  left : ¬ settings.padding.left < zero
  minimum : ∀ tag, (settings.minimumSizes.forTag tag).isValid = true ∧
    ¬ (settings.minimumSizes.forTag tag).width ≤ zero ∧
    ¬ (settings.minimumSizes.forTag tag).height ≤ zero

theorem of_checkPositive {name : String} {value : α}
    (passed : checkPositive name value = .ok ()) : ¬ value ≤ zero := by
  unfold checkPositive at passed
  split at passed
  · cases passed
  · rename_i sound
    simp at sound
    exact sound.2

theorem of_checkNotNegative {name : String} {value : α}
    (passed : checkNotNegative name value = .ok ()) : ¬ value < zero := by
  unfold checkNotNegative at passed
  split at passed
  · cases passed
  · rename_i sound
    simp at sound
    exact sound.2

theorem of_checkMinimum {name : String} {size : Size α}
    (passed : checkMinimum name size = .ok ()) :
    size.isValid = true ∧ ¬ size.width ≤ zero ∧ ¬ size.height ≤ zero := by
  unfold checkMinimum at passed
  split at passed
  · cases passed
  · rename_i sound
    simp at sound
    exact ⟨sound.1.1, sound.1.2, sound.2⟩

theorem validate_accepted {settings : LayoutSettings α}
    (accepted : settings.validate = .ok ()) : settings.Accepted := by
  unfold validate at accepted
  simp only [bind_eq_ok] at accepted
  obtain ⟨⟨⟩, spacing, ⟨⟩, branchGap, ⟨⟩, clearance, ⟨⟩, top, ⟨⟩, right, ⟨⟩, bottom,
    ⟨⟩, left, ⟨⟩, sizes, -⟩ := accepted
  exact {
    spacing := of_checkPositive spacing
    branchGap := of_checkPositive branchGap
    clearance := of_checkPositive clearance
    top := of_checkNotNegative top
    right := of_checkNotNegative right
    bottom := of_checkNotNegative bottom
    left := of_checkNotNegative left
    minimum := by
      intro tag
      obtain ⟨name, isListed⟩ := settings.minimumSizes.exists_name tag
      exact of_checkMinimum (of_forM_eq_ok sizes isListed) }

end LayoutSettings

/-- An accepted zoom starts between limits above zero. -/
theorem ZoomSettings.of_validate {α : Type} [Scalar α] {zoom : ZoomSettings α}
    (accepted : zoom.validate = .ok ()) :
    Scalar.zero < zoom.minZoom ∧ zoom.minZoom ≤ zoom.initialZoom ∧
      zoom.initialZoom ≤ zoom.maxZoom := by
  unfold validate at accepted
  dsimp only at accepted
  split at accepted
  · rename_i sound
    simp only [Bool.and_eq_true, decide_eq_true_eq] at sound
    obtain ⟨-, ⟨positive, least⟩, greatest⟩ := sound
    exact ⟨positive, least, greatest⟩
  · cases accepted

end Flowchart
