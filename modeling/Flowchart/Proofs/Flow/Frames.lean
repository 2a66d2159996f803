import Flowchart.Proofs.Flow.Origins

/-!
# Flow inside functions and services

A function or a service is a frame around what it holds.  Flow keeps to one frame:
the two ends of an edge lie in the same innermost one, or both in none.  Wherever
flow comes from or goes to, the constructs there declare nothing, so that no frame
lies between them and the node that the edge is wired at.
-/

namespace Flowchart.Program

variable {L : Type}

def isContainer : Program L → Bool
  | .container _ _ _ => true
  | _ => false

/-- The label of the innermost function or service around a node that stands right
below the given nodes, the nearest first.  A function is inside itself. -/
def frame (above : List (Program L)) (node : Program L) : Option L :=
  ((if node.tag = .container .function then node :: above else above).find?
    isContainer).map label

theorem Flowing.not_isContainer {program : Program L} (flowing : program.Flowing) :
    ∀ node ∈ program.preorder, node.isContainer = false := by
  intro node nodeIn
  have plain := flowing node nodeIn
  cases node with
  | container label kind body => cases plain
  | _ => rfl

section

variable {node child inner : Program L} {above between : List (Program L)}

/-- A node other than a service is in the frame of what is right below it. -/
theorem frame_of_node (notService : node.tag ≠ .container .service) :
    node.frame above = ((node :: above).find? isContainer).map label := by
  cases node with
  | container label kind body =>
      cases kind with
      | function => rfl
      | service => exact absurd rfl notService
  | _ => rfl

theorem frame_of_flowing (flowing : child.Flowing)
    (stands : child.Stands between inner) :
    inner.frame (between ++ node :: above) =
      ((node :: above).find? isContainer).map label := by
  have plain := flowing.not_isContainer
  have innerPlain : inner.tag ≠ .container .function := by
    intro isFunction
    have declared := flowing inner stands.mem_preorder
    rw [isFunction] at declared
    cases declared
  have skipped : between.find? isContainer = none :=
    List.find?_eq_none.mpr fun other otherIn => by
      simp [plain other (stands.above_mem_preorder other otherIn)]
  rw [frame, if_neg innerPlain, List.find?_append, skipped, Option.none_or]

end

namespace Stands

variable {root node : Program L} {above other : List (Program L)}

/-- Nothing is its own child, at any depth. -/
theorem not_root {parent : Program L} (parentIn : parent ∈ root.preorder) :
    root ∉ parent.children := by
  intro rootIn
  have shorter := (preorder_sublist parentIn).length_le
  obtain ⟨earlier, later, isSplit⟩ := List.append_of_mem rootIn
  rw [preorder_eq parent, isSplit, List.flatMap_append, List.flatMap_cons,
    List.length_cons, List.length_append, List.length_append] at shorter
  omega

theorem above_unique (distinct : root.labels.Nodup) (stands : root.Stands above node)
    (again : root.Stands other node) : above = other := by
  induction stands generalizing other with
  | root =>
      cases again with
      | root => rfl
      | child parentStands rootIn =>
          exact absurd rootIn (not_root parentStands.mem_preorder)
  | child parentStands nodeIn ih =>
      cases again with
      | root => exact absurd nodeIn (not_root parentStands.mem_preorder)
      | child otherStands inOther =>
          obtain rfl := parent_unique distinct parentStands.mem_preorder
            otherStands.mem_preorder nodeIn inOther
          rw [ih otherStands]

end Stands

/-! ## The ends of an edge -/

/-- A label is that of a node, or lies in a child of it that declares nothing. -/
def Adjoins (node : Program L) (label : L) : Prop :=
  label = node.label ∨ ∃ child ∈ node.children, child.Flowing ∧ label ∈ child.labels

/-- What adjoins a node is in one frame. -/
theorem Adjoins.frame_eq {root node : Program L} {above : List (Program L)}
    (distinct : root.labels.Nodup) (stands : root.Stands above node)
    (notService : node.tag ≠ .container .service) {label : L}
    (adjoins : node.Adjoins label) {inner : Program L} {around : List (Program L)}
    (innerStands : root.Stands around inner) (isLabel : inner.label = label) :
    inner.frame around = ((node :: above).find? isContainer).map Program.label := by
  have same : ∀ {found : Program L}, found ∈ root.preorder → found.label = label →
      inner = found := fun foundIn isFound =>
    List.inj_on_of_nodup_map distinct innerStands.mem_preorder foundIn
      (isLabel.trans isFound.symm)
  rcases adjoins with isNode | ⟨child, childIn, flowing, inChild⟩
  · obtain rfl := same stands.mem_preorder isNode.symm
    rw [innerStands.above_unique distinct stands]
    exact frame_of_node notService
  · obtain ⟨found, foundIn, isFound⟩ := List.mem_map.mp inChild
    obtain ⟨between, foundStands⟩ := Stands.of_mem_preorder foundIn
    have whole := (stands.child childIn).trans foundStands
    obtain rfl := same whole.mem_preorder isFound
    rw [innerStands.above_unique distinct whole]
    exact frame_of_flowing flowing foundStands

theorem entrance_mem_preorder (program : Program L) :
    program.entrance ∈ program.preorder := by
  induction program with
  | block label members ih =>
      cases members with
      | nil => exact self_mem_preorder _
      | cons first later =>
          have firstIn : first ∈ (block label (first :: later)).children :=
            List.mem_cons_self
          exact mem_preorder_of_child firstIn (ih first List.mem_cons_self)
  | _ => exact self_mem_preorder _

theorem entry_mem_labels (program : Program NodeId) :
    program.entry.node ∈ program.labels :=
  List.mem_map_of_mem program.entrance_mem_preorder

theorem outlet_mem_labels {program : Program NodeId} {source : Endpoint}
    (isOutlet : program.outlet = some source) : source.node ∈ program.labels := by
  induction program using columnInduction with
  | filled label members isFilled ih =>
      cases members using List.reverseRecOn with
      | nil => cases isFilled
      | append_singleton before last =>
          rw [outlet, lastOutlet_snoc] at isOutlet
          exact mem_labels_of_child (show last ∈ children _ by simp [children])
            (ih last (by simp) isOutlet)
  | service label body ih => cases isOutlet
  | columns program hasNode notService ih =>
      have atNode : source ∈ program.departures := by simp [departures, isOutlet]
      rw [(departures_at hasNode).2 source atNode]
      exact label_mem_labels program

/-- Only services and blocks hold declarations. -/
theorem Outer.flowing_child {program node child : Program L}
    (outer : program.Outer) (nodeIn : node ∈ program.preorder)
    (notService : node.tag ≠ .container .service) (childIn : child ∈ node.children)
    (plain : node.tag = .block → child.tag.isDeclaration = false) :
    child.Flowing := by
  have ofFlowing : ∀ {part : Program L}, part.Flowing → node ∈ part.preorder →
      child.Flowing := fun flowing inPart inner innerIn =>
    flowing inner (mem_preorder_trans inPart (mem_preorder_of_child childIn innerIn))
  induction outer with
  | typeDefinition label =>
      obtain rfl : node = .typeDefinition label := by simpa [preorder] using nodeIn
      cases childIn
  | @function label body flowing =>
      rcases mem_preorder_iff.mp nodeIn with rfl | ⟨other, otherIn, inOther⟩
      · obtain rfl : child = body := List.mem_singleton.mp childIn
        exact flowing
      · obtain rfl : other = body := List.mem_singleton.mp otherIn
        exact ofFlowing flowing inOther
  | @service label body _ ih =>
      rcases mem_preorder_iff.mp nodeIn with rfl | ⟨other, otherIn, inOther⟩
      · exact absurd rfl notService
      · obtain rfl : other = body := List.mem_singleton.mp otherIn
        exact ih inOther
  | @block label members declared flowing ih =>
      rcases mem_preorder_iff.mp nodeIn with rfl | ⟨member, memberIn, inMember⟩
      · exact flowing child childIn (plain rfl)
      · cases isDeclared : member.tag.isDeclaration with
        | true => exact ih member memberIn isDeclared inMember
        | false => exact ofFlowing (flowing member memberIn isDeclared) inMember
  | flowing flowing => exact ofFlowing flowing nodeIn

/-- No edge enters what is in a block or a service from the block or the service. -/
theorem tag_of_enters {node : Program NodeId} {edge : Edge}
    (enters : edge ∈ node.enteringEdges) :
    node.tag ≠ .block ∧ node.tag ≠ .container .service := by
  cases node with
  | block label members => cases enters
  | container label kind body =>
      cases kind with
      | function => exact ⟨nofun, nofun⟩
      | service => cases enters
  | _ => exact ⟨nofun, nofun⟩

/-- Both ends of an edge adjoin the node that it is wired at. -/
theorem Arises.adjoins {program : Program NodeId} (outer : program.Outer)
    {edge : Edge} (arises : program.Arises edge) : ∃ node ∈ program.preorder,
      node.tag ≠ .container .service ∧ node.Adjoins edge.source.node ∧
        node.Adjoins edge.target.node := by
  cases arises with
  | @enters node _ nodeIn edgeIn =>
      obtain ⟨notBlock, notService⟩ := tag_of_enters edgeIn
      have hasNode : node.isFilledBlock = false := by
        cases node with
        | block label members => exact absurd rfl notBlock
        | _ => rfl
      have isSource : edge.source ∈ node.departures :=
        List.mem_append_right _ (List.mem_map_of_mem edgeIn)
      refine ⟨node, nodeIn, notService, .inl ((departures_at hasNode).2 _ isSource), ?_⟩
      have isTarget : edge.target ∈ node.enteringEdges.map Edge.target :=
        List.mem_map_of_mem edgeIn
      rw [targets_enteringEdges hasNode notService, List.mem_append] at isTarget
      rcases isTarget with isEntry | isPast
      · obtain ⟨child, childIn, entered⟩ := List.mem_map.mp isEntry
        refine .inr ⟨child, childIn, outer.flowing_child nodeIn notService childIn
          fun isBlock => absurd isBlock notBlock, ?_⟩
        rw [← entered]
        exact child.entry_mem_labels
      · rw [List.eq_of_mem_replicate isPast]
        exact .inl node.closing_place.1
  | @goesOn label earlier later member next source blockIn plain nextPlain leaves =>
      have memberIn : member ∈ children
          (block label (earlier ++ member :: next :: later)) := by simp [children]
      have nextIn : next ∈ children
          (block label (earlier ++ member :: next :: later)) := by simp [children]
      have notService : (block label (earlier ++ member :: next :: later)).tag ≠
          .container .service := by
        intro isService
        cases isService
      exact ⟨_, blockIn, notService,
        .inr ⟨member, memberIn, outer.flowing_child blockIn notService memberIn
          fun _ => plain, outlet_mem_labels leaves⟩,
        .inr ⟨next, nextIn, outer.flowing_child blockIn notService nextIn
          fun _ => nextPlain, next.entry_mem_labels⟩⟩
  | @closes node child source nodeIn hasNode notService childIn leaves =>
      have notBlock : node.tag ≠ .block := by
        intro isBlock
        obtain ⟨label, members, rfl⟩ := exists_block_of_tag isBlock
        cases members with
        | nil => cases childIn
        | cons first later => cases hasNode
      exact ⟨node, nodeIn, notService,
        .inr ⟨child, childIn, outer.flowing_child nodeIn notService childIn
          fun isBlock => absurd isBlock notBlock, outlet_mem_labels leaves⟩,
        .inl node.closing_place.1⟩

/-- The two ends of an edge lie in the same frame. -/
theorem Arises.frame_eq {program : Program NodeId} (outer : program.Outer)
    (distinct : program.labels.Nodup) {edge : Edge} (arises : program.Arises edge)
    {source target : Program NodeId} {above other : List (Program NodeId)}
    (sourceStands : program.Stands above source)
    (isSource : source.label = edge.source.node)
    (targetStands : program.Stands other target)
    (isTarget : target.label = edge.target.node) :
    source.frame above = target.frame other := by
  obtain ⟨node, nodeIn, notService, leaves, arrives⟩ := arises.adjoins outer
  obtain ⟨around, stands⟩ := Stands.of_mem_preorder nodeIn
  rw [leaves.frame_eq distinct stands notService sourceStands isSource,
    arrives.frame_eq distinct stands notService targetStands isTarget]

end Flowchart.Program
