import Flowchart.Proofs.Program.Structure
import Flowchart.Tree.Arena

/-!
# Programs without what is only written

A program that is left blank keeps its constructs and how they are nested.  All
statements become of one kind, the patterns of arms are left out, and so is
whatever the change of the labels leaves out.  Two nodes are the same when left
blank if they have the same tag, the same label, and children that are the same.
-/

namespace Flowchart

/-- The label without its text. -/
def Label.blank {α : Type} (label : Label α) : Label α :=
  { label with text := "" }

namespace Program

variable {L M N : Type}

mutual

/-- The same constructs with every label changed, and without the kinds of
statements and the patterns of arms. -/
def blank (change : L → M) : Program L → Program M
  | .statement label _ => .statement (change label) .expression
  | .block label members => .block (change label) (blankMembers change members)
  | .decision label consequent none =>
      .decision (change label) (blank change consequent) none
  | .decision label consequent (some alternative) =>
      .decision (change label) (blank change consequent)
        (some (blank change alternative))
  | .selection label arms => .selection (change label) (blankArms change arms)
  | .loop label kind body => .loop (change label) kind (blank change body)
  | .result label => .result (change label)
  | .container label kind body =>
      .container (change label) kind (blank change body)
  | .typeDefinition label => .typeDefinition (change label)

def blankMembers (change : L → M) : List (Program L) → List (Program M)
  | [] => []
  | member :: rest => blank change member :: blankMembers change rest

def blankArms (change : L → M) :
    List (String × Program L) → List (String × Program M)
  | [] => []
  | (_, body) :: rest => ("", blank change body) :: blankArms change rest

end

theorem blankMembers_eq (change : L → M) (members : List (Program L)) :
    blankMembers change members = members.map (blank change) := by
  induction members with
  | nil => rfl
  | cons member rest ih => simp [blankMembers, ih]

theorem blankArms_eq (change : L → M) (arms : List (String × Program L)) :
    blankArms change arms = arms.map fun arm => ("", blank change arm.2) := by
  induction arms with
  | nil => rfl
  | cons arm rest ih => simp [blankArms, ih]

@[simp]
theorem label_blank (change : L → M) (program : Program L) :
    (program.blank change).label = change program.label := by
  cases program with
  | decision label consequent alternative => cases alternative <;> rfl
  | _ => rfl

@[simp]
theorem tag_blank (change : L → M) (program : Program L) :
    (program.blank change).tag = program.tag := by
  cases program with
  | decision label consequent alternative => cases alternative <;> rfl
  | _ => rfl

@[simp]
theorem children_blank (change : L → M) (program : Program L) :
    (program.blank change).children = program.children.map (blank change) := by
  cases program with
  | decision label consequent alternative =>
      cases alternative <;> simp [blank, children]
  | _ => simp [blank, children, blankMembers_eq, blankArms_eq]

theorem postorder_blank (change : L → M) (program : Program L) :
    (program.blank change).postorder =
      program.postorder.map (blank change) := by
  induction program using childrenInduction with
  | step program ih =>
    rw [postorder_eq, postorder_eq program, children_blank, List.map_append,
      List.flatMap_map, List.map_flatMap]
    congr 1
    exact List.flatMap_congr fun child childIn => ih child childIn

/-- The construct with a tag, a label and children, left blank. -/
def assembled (tag : Tag) (label : M) (children : List (Program M)) :
    Program M :=
  match tag, children with
  | .statement, _ => .statement label .expression
  | .block, members => .block label members
  | .decision, [consequent] => .decision label consequent none
  | .decision, [consequent, alternative] =>
      .decision label consequent (some alternative)
  | .selection, arms => .selection label (arms.map fun body => ("", body))
  | .loop kind, [body] => .loop label kind body
  | .container kind, [body] => .container label kind body
  | .typeDefinition, _ => .typeDefinition label
  | _, _ => .result label

/-- What is left of a node is told by its tag, its label and its children. -/
theorem blank_eq_assembled (change : L → M) (program : Program L) :
    program.blank change =
      assembled program.tag (change program.label)
        (program.children.map (blank change)) := by
  cases program with
  | decision label consequent alternative => cases alternative <;> rfl
  | block label members =>
      rw [blank, blankMembers_eq]
      rfl
  | selection label arms =>
      have paired : (((arms.map Prod.snd).map (blank change)).map
          fun body => ("", body)) = arms.map fun arm => ("", blank change arm.2) := by
        rw [List.map_map, List.map_map]
        rfl
      rw [blank, blankArms_eq, ← paired]
      rfl
  | _ => rfl

/-! ## Changed labels -/

theorem blank_map (first : L → M) (second : M → N) (program : Program L) :
    (program.map first).blank second = program.blank (second ∘ first) := by
  induction program using childrenInduction with
  | step program ih =>
    rw [blank_eq_assembled, blank_eq_assembled (second ∘ first), tag_map,
      label_map, children_map, List.map_map]
    exact congrArg _ (List.map_congr_left ih)

theorem map_blank (first : L → M) (second : M → N) (program : Program L) :
    (program.blank first).map second = program.blank (second ∘ first) := by
  induction program with
  | block label members ih =>
      simp only [map, blank, mapMembers_eq, blankMembers_eq, List.map_map,
        block.injEq]
      exact ⟨rfl, List.map_congr_left ih⟩
  | selection label arms ih =>
      simp only [map, blank, mapArms_eq, blankArms_eq, List.map_map,
        selection.injEq]
      exact ⟨rfl, List.map_congr_left fun arm armIn => by simp [ih arm armIn]⟩
  | decision label consequent ih => simp [map, blank, ih]
  | choice label consequent alternative ih₁ ih₂ => simp [map, blank, ih₁, ih₂]
  | loop label kind body ih => simp [map, blank, ih]
  | container label kind body ih => simp [map, blank, ih]
  | _ => rfl

end Program

end Flowchart
