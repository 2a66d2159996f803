import Flowchart.Proofs.Layout.Exact
import Flowchart.Proofs.Route.Blank
import Flowchart.Proofs.Tree.Limits
import Flowchart.Proofs.Tree.Matching

/-!
# Geometry depends on the shape only

Two trees have the same shape if what they reach can be paired so that identities,
tags, size hints and places agree.  Neither texts nor kinds of statements nor
patterns nor handles count, and nor does what is out of reach.  Well-formed trees
of the same shape store programs that are the same when left blank, so that
layout and routing come to the same end with both.
-/

namespace Flowchart

namespace Node

variable {α : Type}

/-- A node that differs at most in its text, in its kind of statement, in its
patterns, and in where its children are stored. -/
structure SameShape (image : Handle → Handle) (node other : Node α) : Prop where
  id : other.id = node.id
  tag : other.tag = node.tag
  hint : other.hint = node.hint
  slots : other.construct.slots =
    node.construct.slots.map (Slot.rename image)

end Node

namespace Program

theorem level?_blank {L M : Type} (change : L → M) (depth : Nat)
    (program : Program L) :
    (program.blank change).level? depth =
      (program.level? depth).map (blank change) := by
  induction depth generalizing program with
  | zero => rfl
  | succ depth ih =>
      rw [level?, level?, children_blank, List.findSome?_map,
        List.map_findSome?]
      exact congrArg (fun test => program.children.findSome? test) (funext ih)

end Program

namespace Tree

variable {α : Type} [Scalar α]

omit [Scalar α] in
/-- Both trees reach nodes of the same shape in the same places. -/
def SameShape (first second : Tree α) : Prop :=
  ∃ image, first.Matches second image (Node.SameShape image)

variable {first second : Tree α} {limit otherLimit : Nat}
  {program otherProgram : Located α}

omit [Scalar α] in
/-- What is left of a stored program without its texts and handles. -/
theorem Bears.blank_eq (same : first.SameShape second)
    (bears : first.Bears program)
    (otherBears : second.Bears otherProgram) :
    program.blank (Label.blank ∘ Prod.snd) =
      otherProgram.blank (Label.blank ∘ Prod.snd) := by
  obtain ⟨image, paired⟩ := same
  suffices each : ∀ node : Located α, node ∈ program.preorder →
      ∀ other ∈ otherProgram.preorder, other.handle = image node.handle →
        node.blank (Label.blank ∘ Prod.snd) =
          other.blank (Label.blank ∘ Prod.snd) from
    each program program.self_mem_preorder otherProgram
      otherProgram.self_mem_preorder (paired.handle_eq bears otherBears)
  intro node
  induction node using Program.childrenInduction with
  | step node ih =>
    intro nodeIn other otherIn atImage
    obtain ⟨found, foundIn, isFound, id, tag, hint, slots⟩ :=
      paired.exists_node bears otherBears nodeIn
    obtain rfl := otherBears.eq_of_handle otherIn foundIn
      (atImage.trans isFound.symm)
    have sameTag : other.tag = node.tag := by
      simpa [Node.tag, Program.node] using tag
    have sameLabel : node.label.2.blank = other.label.2.blank :=
      (Label.mk.injEq ..).mpr ⟨id.symm, rfl, hint.symm⟩
    have moved := Program.handles_of_slots slots
    rw [List.map_map] at moved
    have sameChildren : node.children.map (Program.blank (Label.blank ∘ Prod.snd)) =
        other.children.map (Program.blank (Label.blank ∘ Prod.snd)) :=
      map_eq_map_of_keys moved.symm fun child childIn mate mateIn atChild =>
        ih child childIn
          (Program.mem_preorder_trans nodeIn (Program.child_mem_preorder childIn))
          mate
          (Program.mem_preorder_trans otherIn (Program.child_mem_preorder mateIn))
          atChild.symm
    rw [Program.blank_eq_assembled, Program.blank_eq_assembled _ other, sameTag,
      sameChildren, Function.comp_apply, Function.comp_apply, sameLabel]

omit [Scalar α] in
/-- Only the identity of a node that is too deep is told. -/
theorem depthVerdict_eq_of_blank {found other : Option (Located α)}
    (same : found.map (Program.blank (Label.blank ∘ Prod.snd)) =
      other.map (Program.blank (Label.blank ∘ Prod.snd))) (limit : Nat) :
    depthVerdict limit found = depthVerdict limit other := by
  cases found with
  | none =>
      cases other with
      | none => rfl
      | some other => cases same
  | some node =>
      cases other with
      | none => cases same
      | some other =>
          have sameLabel := congrArg Program.label (Option.some.inj same)
          rw [Program.label_blank, Program.label_blank] at sameLabel
          have sameId : node.label.2.blank.id = other.label.2.blank.id :=
            congrArg Label.id sameLabel
          change node.identity = other.identity at sameId
          rw [depthVerdict, depthVerdict, sameId]

/-- Validation comes to the same end with any one limit. -/
theorem Stores.validate_eq_of_sameShape (same : first.SameShape second)
    (stores : first.Stores limit program)
    (otherStores : second.Stores otherLimit otherProgram) (depth : Nat) :
    first.validate depth = second.validate depth := by
  have sameLevel := congrArg (Program.level? (depth + 1))
    (stores.blank_eq same otherStores.toBears)
  rw [Program.level?_blank, Program.level?_blank] at sameLevel
  rw [stores.validate_eq, otherStores.validate_eq]
  exact depthVerdict_eq_of_blank sameLevel depth

/-- What is left blank of the layout is that of the program left blank. -/
theorem Stores.layout_map_blank {tree : Tree α} {settings : LayoutSettings α}
    (valid : tree.validate settings.maxDepth = .ok ())
    (stores : tree.Stores settings.maxDepth program) :
    (tree.layout settings).map Diagram.blank =
      ((program.blank (Label.blank ∘ Prod.snd)).diagram settings).mapError
        .inconsistent := by
  rw [layout_eq (program_eq valid stores) stores.ids_nodup,
    ← Program.blank_map, ← Program.written, Program.diagram_blank]
  cases program.written.diagram settings <;> rfl

/-- Layout and routing of two well-formed trees of the same shape, whatever the
limits that they keep to, end with the same error or with the same diagram but
for the texts of nodes and the patterns beside connectors into arms. -/
theorem layout_sameShape (firstValid : first.validate limit = .ok ())
    (secondValid : second.validate otherLimit = .ok ())
    (same : first.SameShape second) (settings : LayoutSettings α) :
    (first.layout settings).map Diagram.blank =
        (second.layout settings).map Diagram.blank ∧
      ∀ diagram other, first.layout settings = .ok diagram →
        second.layout settings = .ok other →
        ∀ routing : LayoutSettings α,
          (diagram.route routing).map RoutedDiagram.blank =
            (other.route routing).map RoutedDiagram.blank := by
  obtain ⟨program, stores⟩ := exists_stores firstValid
  obtain ⟨otherProgram, otherStores⟩ := exists_stores secondValid
  have sameVerdict :=
    stores.validate_eq_of_sameShape same otherStores settings.maxDepth
  have sameLayout : (first.layout settings).map Diagram.blank =
      (second.layout settings).map Diagram.blank := by
    cases verdict : first.validate settings.maxDepth with
    | error defect =>
        rw [layout, layoutCached_of_defect verdict, layout,
          layoutCached_of_defect (sameVerdict.symm.trans verdict)]
    | ok _ =>
        have otherVerdict := sameVerdict.symm.trans verdict
        obtain ⟨shallow, shallowStores⟩ := exists_stores verdict
        obtain ⟨otherShallow, otherShallowStores⟩ := exists_stores otherVerdict
        rw [shallowStores.layout_map_blank verdict,
          otherShallowStores.layout_map_blank otherVerdict,
          shallowStores.blank_eq same otherShallowStores.toBears]
  refine ⟨sameLayout, fun diagram other isDiagram isOther routing => ?_⟩
  rw [isDiagram, isOther] at sameLayout
  have sameBlank : diagram.blank = other.blank := Except.ok.inj sameLayout
  rw [← Diagram.route_blank, ← Diagram.route_blank, sameBlank]

/-- A question with two answers. -/
def question : Tree Rat :=
  ⟨#[⟨⟨"ask", "which way?", some ⟨200, 60⟩⟩,
      .selection [⟨"left", some 1⟩, ⟨"right", some 2⟩]⟩,
    ⟨⟨"go", "go on", none⟩, .statement .expression⟩,
    ⟨⟨"stop", "turn back", none⟩, .result⟩], some 0⟩

/-- The same question in other words and stored the other way round, with a node
that is out of reach. -/
def reworded : Tree Rat :=
  ⟨#[⟨⟨"stop", "", none⟩, .result⟩,
    ⟨⟨"ask", "stray", none⟩, .block []⟩,
    ⟨⟨"go", "way := next", none⟩, .statement .assignment⟩,
    ⟨⟨"ask", "and now?", some ⟨200, 60⟩⟩,
      .selection [⟨"yes", some 2⟩, ⟨"no", some 0⟩]⟩], some 3⟩

theorem question_sameShape : question.SameShape reworded := by
  have valid : question.validate 8 = .ok () := by cbv
  have otherValid : reworded.validate 8 = .ok () := by cbv
  obtain ⟨program, stores⟩ := exists_stores valid
  obtain ⟨otherProgram, otherStores⟩ := exists_stores otherValid
  have walk : question.walk.map Prod.fst = [0, 1, 2] := by cbv
  have otherWalk : reworded.walk.map Prod.fst = [3, 2, 0] := by cbv
  refine ⟨fun handle => [3, 2, 0].getD handle 0,
    .of_walk stores.toBears otherStores.toBears ?_ rfl ?_⟩
  · rw [walk, otherWalk]
    rfl
  · rw [walk]
    intro handle handleIn node isNode
    fin_cases handleIn
    all_goals
      obtain rfl := Option.some.inj isNode
      exact ⟨_, rfl, rfl, rfl, rfl, rfl⟩

theorem layout_sameShape_reworded :
    question.validate 8 = .ok () ∧ reworded.validate 16 = .ok () ∧
      question.SameShape reworded ∧
      ∃ diagram other, question.layout .standard = .ok diagram ∧
        reworded.layout .standard = .ok other ∧ diagram.blank = other.blank ∧
        (diagram.route .standard).map RoutedDiagram.blank =
          (other.route .standard).map RoutedDiagram.blank := by
  have valid : question.validate 8 = .ok () := by cbv
  have otherValid : reworded.validate 16 = .ok () := by cbv
  have laidOut : ∃ diagram, question.layout .standard = .ok diagram :=
    exists_standard_layout (by cbv)
  have otherLaidOut : ∃ other, reworded.layout .standard = .ok other :=
    exists_standard_layout (by cbv)
  obtain ⟨diagram, isDiagram⟩ := laidOut
  obtain ⟨other, isOther⟩ := otherLaidOut
  obtain ⟨sameLayout, sameRouting⟩ :=
    layout_sameShape valid otherValid question_sameShape .standard
  rw [isDiagram, isOther] at sameLayout
  exact ⟨valid, otherValid, question_sameShape, diagram, other, isDiagram, isOther,
    Except.ok.inj sameLayout,
    sameRouting diagram other isDiagram isOther .standard⟩

end Tree

end Flowchart
