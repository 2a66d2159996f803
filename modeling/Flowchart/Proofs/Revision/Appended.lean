import Flowchart.Proofs.Outline.Accepted
import Flowchart.Proofs.Outline.Continued
import Flowchart.Proofs.Outline.Renamed
import Flowchart.Proofs.Revision.Lengthened
import Flowchart.Proofs.Scalar.Single

/-!
# Outlines one after another

An outline that goes on with a second one in a new line has the tree of the first,
and behind it all nodes of the second but its root.  Their identities count the
items of the first one too.  So nothing is told of the change but insertions.
-/

namespace Flowchart

/-! ## Renamed programs -/

namespace Program

variable {α : Type} (rename : NodeId → NodeId)

theorem ids_renamed (program : Program (Label α)) :
    (program.map (Label.renamed rename)).ids = program.ids.map rename := by
  rw [ids, preorder_map, List.map_map, ids, List.map_map]
  refine List.map_congr_left fun node _ => ?_
  rw [Function.comp_apply, label_map]
  rfl

theorem parentIds_renamed (program : Program (Label α)) :
    (program.map (Label.renamed rename)).parentIds =
      program.parentIds.map (Prod.map rename rename) := by
  rw [parentIds, kinships_map, List.map_map, parentIds, List.map_map]
  refine List.map_congr_left fun kinship _ => ?_
  simp only [Function.comp_apply, Prod.map_fst, Prod.map_snd, label_map]
  rfl

end Program

namespace Tree

variable {α : Type}

/-- A tree has all nodes of a first one and then, under other identities, those of
a second one but its root.  Each has the same parent and says the same. -/
structure Continues [Scalar α] (whole first second : Tree α)
    (rename : NodeId → NodeId) : Prop where
  identities : whole.identities =
    first.identities ++ second.identities.tail.map rename
  distinct : whole.identities.Nodup
  parent : ∀ id ∈ second.identities.tail, ∃ parent,
    second.parentOf? id = some parent ∧
      whole.parentOf? (rename id) = some (rename parent)
  same : ∀ id ∈ second.identities.tail, ∃ node later,
    second.named? id = some node ∧ whole.named? (rename id) = some later ∧
      node.tag = later.tag ∧ node.SaysSame later

theorem bears_ofProgram {program : Program (Label α)} (distinct : program.ids.Nodup) :
    ∃ located : Located α, located.written = program ∧
      (ofProgram program).Bears located := by
  obtain ⟨located, rfl, contains⟩ := exists_ofProgram program
  rw [Program.ids_written] at distinct
  exact ⟨located, rfl, contains.root, contains.holds, contains.handles_nodup,
    distinct⟩

section

variable {whole first second : Tree α} {before after longer : Located α}

theorem Bears.identities_written (bears : first.Bears before) :
    first.identities = before.written.ids := by
  rw [bears.identities_eq, Program.ids_written]

/-- The node with an identity, as it is written. -/
theorem Bears.named_of_written (bears : first.Bears before)
    {node : Program (Label α)} (nodeIn : node ∈ before.written.preorder) :
    ∃ found, first.named? node.label.id = some found ∧
      found.tag = node.tag ∧ found.text = node.label.text ∧
      found.hint = node.label.hint ∧
      found.construct.statementKind? = node.statementKind? ∧
      found.construct.patterns = node.patterns := by
  rw [Program.preorder_written] at nodeIn
  obtain ⟨located, locatedIn, rfl⟩ := List.mem_map.mp nodeIn
  have isNamed := bears.named_eq locatedIn
  rw [Program.identity_eq] at isNamed
  refine ⟨located.node, isNamed, ?_, ?_, ?_, ?_, ?_⟩
  · rw [Program.tag_written]
    exact Program.tag_construct located
  · rw [Program.label_written]
    rfl
  · rw [Program.label_written]
    rfl
  · rw [Program.written, Program.statementKind?_map]
    exact Program.statementKind?_construct located
  · rw [Program.written, Program.patterns_map]
    exact Program.patterns_construct located

/-- A renamed node says the same. -/
theorem Bears.named_renamed [Scalar α] (wholeBears : whole.Bears longer)
    (secondBears : second.Bears after) {rename : NodeId → NodeId}
    {node : Program (Label α)} (inSecond : node ∈ after.written.preorder)
    (inWhole : node.map (Label.renamed rename) ∈ longer.written.preorder)
    (sameHint : (node.label.hint == node.label.hint) = true) :
    ∃ found later, second.named? node.label.id = some found ∧
      whole.named? (rename node.label.id) = some later ∧
      found.tag = later.tag ∧ found.SaysSame later := by
  obtain ⟨found, isFound, tag, text, hint, kind, patterns⟩ :=
    secondBears.named_of_written inSecond
  obtain ⟨later, isLater, laterTag, laterText, laterHint, laterKind,
    laterPatterns⟩ := wholeBears.named_of_written inWhole
  rw [Program.label_map] at isLater laterText laterHint
  rw [Program.tag_map] at laterTag
  rw [Program.statementKind?_map] at laterKind
  rw [Program.patterns_map] at laterPatterns
  refine ⟨found, later, isFound, isLater, tag.trans laterTag.symm,
    text.trans laterText.symm, ?_, kind.trans laterKind.symm,
    patterns.trans laterPatterns.symm⟩
  rw [hint, laterHint]
  exact sameHint

section

variable (wholeBears : whole.Bears longer) (secondBears : second.Bears after)
  {rename : NodeId → NodeId} {label : Label α}
  {members more : List (Program (Label α))}
  (isSecond : after.written = .block label more)
  (isWhole : longer.written = .block label
    (members ++ more.map (Program.map (Label.renamed rename))))

include wholeBears secondBears isSecond isWhole

/-- A renamed node has the renamed parent. -/
theorem Bears.parentOf_renamed (rootStays : rename label.id = label.id)
    {id parent : NodeId} (isParent : second.parentOf? id = some parent) :
    whole.parentOf? (rename id) = some (rename parent) := by
  have sameLabel : label.renamed rename = label := by
    rw [Label.renamed, rootStays]
  have renamed : (Program.block label more).map (Label.renamed rename) =
      .block label (more.map (Program.map (Label.renamed rename))) := by
    rw [Program.map, Program.mapMembers_eq, sameLabel]
  have isPair := secondBears.mem_parentIds.mpr isParent
  rw [isSecond] at isPair
  rw [← wholeBears.mem_parentIds, isWhole]
  apply Program.parentIds_subset (List.subset_append_right _ _)
  rw [← renamed, Program.parentIds_renamed]
  exact List.mem_map_of_mem isPair

/-- Members that come behind those of another block continue its tree. -/
theorem Bears.continues [Scalar α] (firstBears : first.Bears before)
    (isFirst : before.written = .block label members)
    (rootStays : rename label.id = label.id)
    (sameHint : ∀ label ∈ after.written.labels, (label.hint == label.hint) = true) :
    whole.Continues first second rename := by
  have tail : second.identities.tail = more.flatMap Program.ids := by
    rw [secondBears.identities_written, isSecond, Program.ids_eq]
    rfl
  refine ⟨?_, ?_, ?_, ?_⟩
  · rw [wholeBears.identities_written, firstBears.identities_written, tail, isWhole,
      isFirst, Program.ids_eq, Program.ids_eq, List.map_flatMap, Program.children,
      List.flatMap_append, List.flatMap_map, List.cons_append]
    simp only [Program.ids_renamed]
    rfl
  · rw [wholeBears.identities_eq]
    exact wholeBears.identitiesNodup
  · intro id idIn
    rw [tail] at idIn
    have isBelow : id ∈ after.written.children.flatMap Program.ids := by
      rw [isSecond]
      exact idIn
    obtain ⟨parent, isParent⟩ := secondBears.exists_parent isBelow
    exact ⟨parent, isParent,
      wholeBears.parentOf_renamed secondBears isSecond isWhole rootStays isParent⟩
  · intro id idIn
    rw [tail] at idIn
    obtain ⟨member, memberIn, idIn⟩ := List.mem_flatMap.mp idIn
    obtain ⟨node, nodeIn, rfl⟩ := List.mem_map.mp idIn
    have inSecond : node ∈ after.written.preorder := by
      rw [isSecond]
      exact Program.mem_preorder_of_child memberIn nodeIn
    have inWhole : node.map (Label.renamed rename) ∈ longer.written.preorder := by
      rw [isWhole]
      apply Program.mem_preorder_of_child
      · exact List.mem_append_right _ (List.mem_map_of_mem memberIn)
      · rw [Program.preorder_map]
        exact List.mem_map_of_mem nodeIn
    exact wholeBears.named_renamed secondBears inSecond inWhole
      (sameHint _ (List.mem_map_of_mem inSecond))

end

end

end Tree

namespace Outline

/-! ## Sizes that are written -/

theorem beq_hint {hint : Option (Size Float32)}
    (finite : ∀ size, hint = some size →
      size.width.isFinite = true ∧ size.height.isFinite = true) :
    (hint == hint) = true := by
  cases hint with
  | none => rfl
  | some size =>
      obtain ⟨width, height⟩ := finite size rfl
      have equal : (size.width == size.width && size.height == size.height) = true :=
        Bool.and_eq_true_iff.mpr ⟨Single.beq_self width, Single.beq_self height⟩
      exact equal

/-- Nodes of an outline ask for sizes that equal themselves. -/
theorem Names.beq_hint {derived : NodeId} {item : Item}
    {program : Program (Label Float32)} {before after : List String}
    (names : Names derived item program before after)
    (regular : AreRegular [item]) :
    ∀ label ∈ program.labels, (label.hint == label.hint) = true := by
  induction item using Program.childrenInduction generalizing derived program
    before after with
  | step item ih =>
    obtain ⟨nodeRegular, childrenRegular⟩ := areRegular_singleton.mp regular
    obtain ⟨between, -, below⟩ := names.below
    rw [Program.labels_eq, List.forall_mem_cons]
    constructor
    · rw [names.hint]
      exact Outline.beq_hint nodeRegular.hint
    · intro label labelIn
      obtain ⟨child, childIn, labelIn⟩ := List.mem_flatMap.mp labelIn
      obtain ⟨entry, entryIn, inner, _, _, innerNames, rfl⟩ :=
        below.exists_item childIn
      have itemIn := mem_children_of_zip entryIn
      have each := ih entry.2 itemIn innerNames (childrenRegular.of_mem itemIn)
      rw [Program.labels_eq, children_storedAt] at labelIn
      rw [Program.labels_eq, List.forall_mem_cons] at each
      rcases List.mem_cons.mp labelIn with rfl | isBelow
      · -- An arm has lost its size; whatever else hangs here has kept its own.
        rcases hint_storedAt entry.1 inner with isLost | isKept
        · rw [isLost]
          rfl
        · rw [isKept]
          exact each.1
      · exact each.2 label isBelow

/-! ## Accepted texts -/

/-- The block around the programs of all items. -/
def moduleOf (programs : List (Program (Label Float32))) : Program (Label Float32) :=
  .block ⟨rootId, "", none⟩ programs

theorem ids_moduleOf (programs : List (Program (Label Float32))) :
    (moduleOf programs).ids = rootId :: programs.flatMap Program.ids :=
  Program.ids_eq _

/-- A text is read into items, and naming makes programs of them.  The name of the
whole outline is not written for any. -/
structure Yields (source : String) (members : List Item)
    (programs : List (Program (Label Float32))) (given : List String) : Prop where
  read : readItems source = .ok members
  run : (namedMembers rootId 0 members).run [] = .ok (programs, given)
  notRoot : rootId ∉ writtenNames (blockOf members)

theorem exists_yields {source : String} {tree : Tree Float32} {members : List Item}
    (accepted : parse source = .ok tree) (read : readItems source = .ok members)
    (notRoot : rootId ∉ writtenNames (blockOf members)) :
    ∃ programs given, Yields source members programs given ∧
      tree = Tree.ofProgram (moduleOf programs) := by
  obtain ⟨_, program, given, readToo, run, rfl⟩ := of_parse accepted
  obtain rfl := Except.ok.inj (read.symm.trans readToo)
  obtain ⟨programs, membersRun, rfl⟩ := named_blockOf.mp run
  exact ⟨programs, given, ⟨read, membersRun, notRoot⟩, rfl⟩

theorem rewrites_before (more : List Char) : Rewrites (Written.before more) where
  name := fun written => by
    rw [Written.before, Option.map_map]
    rfl
  text := fun _ => rfl
  hint := fun _ => rfl

namespace Yields

variable {source more : String} {members others : List Item}
  {programs programsMore : List (Program (Label Float32))}
  {given givenMore : List String}

theorem named (yields : Yields source members programs given) :
    (named rootId (blockOf members)).run [] = .ok (moduleOf programs, given) :=
  named_blockOf.mpr ⟨programs, yields.run, rfl⟩

theorem parse_eq (yields : Yields source members programs given) :
    parse source = .ok (Tree.ofProgram (moduleOf programs)) := by
  have isNamed : program source members = .ok (moduleOf programs) := by
    rw [program, yields.named]
  rw [parse, yields.read, Flowchart.bind_eq_ok]
  refine ⟨members, rfl, ?_⟩
  rw [isNamed]
  rfl

theorem ids_nodup (yields : Yields source members programs given) :
    (moduleOf programs).ids.Nodup :=
  (ids_nodup_iff yields.read yields.named).mpr yields.notRoot

theorem beq_hint (yields : Yields source members programs given) :
    ∀ label ∈ (moduleOf programs).labels, (label.hint == label.hint) = true :=
  (names_of_named yields.named).beq_hint (areRegular_of_readItems yields.read)

theorem mem_given (yields : Yields source members programs given) {name : String} :
    name ∈ given ↔ name ∈ writtenNames (blockOf members) := by
  have isGiven := (names_of_named yields.named).given_eq.1
  rw [isGiven, List.append_nil, List.mem_reverse]

/-- Two texts yield their items on their own and one below the other. -/
theorem append (first : Yields source members programs given)
    (second : Yields more others programsMore givenMore)
    (apart : (writtenNames (blockOf members)).Disjoint
      (writtenNames (blockOf others))) :
    Yields (source ++ "\n" ++ more)
      (members.map (Program.map (Written.before ('\n' :: more.toList))) ++ others)
      (programs ++ programsMore.map
        (Program.map (Label.renamed (NodeId.behind members.length))))
      (givenMore ++ given) := by
  have plain := plain_of_regular (areRegular_of_readItems second.read)
  have harmless : Harmless (NodeId.behind members.length) given
      (writtenNames (blockOf others)) := by
    refine ⟨fun name nameIn => NodeId.behind_of_plain (plain name nameIn) _, ?_,
      second.notRoot⟩
    intro name nameIn isOld
    exact apart (first.mem_given.mp isOld) nameIn
  have run := namedMembers_behind (rewrites_before ('\n' :: more.toList)) first.run
    second.run first.notRoot harmless
  refine ⟨readItems_append first.read second.read, run, ?_⟩
  have isGiven := (names_of_named (named_blockOf.mpr ⟨_, run, rfl⟩)).given_eq.1
  rw [List.append_nil] at isGiven
  rw [← List.mem_reverse, ← isGiven, List.mem_append, first.mem_given,
    second.mem_given, not_or]
  exact ⟨second.notRoot, first.notRoot⟩

end Yields

/-- A text that goes on with another one in a new line, where no name is written in
both and none is that of the whole outline, is accepted.  Its tree continues that of
the first text with that of the other one; and the patches insert the nodes of the
other tree but its root, each once, in order and under its parent. -/
theorem parse_append {source more : String} {first second : Tree Float32}
    {members others : List Item}
    (accepted : parse source = .ok first) (acceptedMore : parse more = .ok second)
    (read : readItems source = .ok members)
    (readMore : readItems more = .ok others)
    (apart : (writtenNames (blockOf members)).Disjoint
      (writtenNames (blockOf others)))
    (notRoot : rootId ∉ writtenNames (blockOf members))
    (notRootMore : rootId ∉ writtenNames (blockOf others)) :
    ∃ whole, parse (source ++ "\n" ++ more) = .ok whole ∧
      whole.Continues first second (NodeId.behind members.length) ∧
      (first.diff whole).length + 1 = second.size ∧
      first.diff whole = second.identities.tail.map fun id =>
        .insert (id.behind members.length)
          ((second.parentOf? id).map (NodeId.behind members.length)) := by
  obtain ⟨programs, given, yields, rfl⟩ := exists_yields accepted read notRoot
  obtain ⟨programsMore, givenMore, yieldsMore, rfl⟩ :=
    exists_yields acceptedMore readMore notRootMore
  have yieldsWhole := yields.append yieldsMore apart
  obtain ⟨before, isFirst, firstBears⟩ := Tree.bears_ofProgram yields.ids_nodup
  obtain ⟨after, isSecond, secondBears⟩ := Tree.bears_ofProgram yieldsMore.ids_nodup
  obtain ⟨longer, isWhole, wholeBears⟩ := Tree.bears_ofProgram yieldsWhole.ids_nodup
  have continues := wholeBears.continues secondBears isSecond isWhole firstBears
    isFirst (NodeId.behind_root _) (isSecond ▸ yieldsMore.beq_hint)
  have inserted := firstBears.diff_lengthened wholeBears isFirst isWhole
    (isWhole ▸ yieldsWhole.beq_hint)
  have addedIds : (programsMore.map (Program.map (Label.renamed
      (NodeId.behind members.length)))).flatMap Program.ids =
        (programsMore.flatMap Program.ids).map (NodeId.behind members.length) := by
    rw [List.flatMap_map, List.map_flatMap]
    exact List.flatMap_congr fun program _ => program.ids_renamed _
  have tail : (Tree.ofProgram (moduleOf programsMore)).identities.tail =
      programsMore.flatMap Program.ids := by
    rw [secondBears.identities_written, isSecond, ids_moduleOf]
    rfl
  refine ⟨_, yieldsWhole.parse_eq, continues, ?_, ?_⟩
  · have counted := (ids_ofProgram (moduleOf programsMore)).length_eq
    rw [List.length_map, Array.length_toList, ids_moduleOf, List.length_cons]
      at counted
    rw [inserted, addedIds, List.length_map, List.length_map]
    exact counted.symm
  · rw [inserted, addedIds, List.map_map, tail]
    refine List.map_congr_left fun id idIn => ?_
    rw [← tail] at idIn
    obtain ⟨parent, isParent, stillParent⟩ := continues.parent id idIn
    rw [Function.comp_apply, isParent, stillParent, Option.map_some]

/-- A text that ends in a comment, where a name is written. -/
def commented : String := "expr \"a\" @x; // end"

/-- A text with another name, whose first item has items below it. -/
def branched : String := "if \"b\" \x7b expr \"c\"; \x7d expr \"d\" @y;"

/-- The tree of the second text. -/
def branchedTree : Tree Float32 :=
  ⟨#[⟨⟨"module/0/then/0", "c", none⟩, .statement .expression⟩,
    ⟨⟨"module/0/then", "", none⟩, .block [0]⟩,
    ⟨⟨"module/0", "b", none⟩, .decision (some 1) none⟩,
    ⟨⟨"y", "d", none⟩, .statement .expression⟩,
    ⟨⟨"module", "", none⟩, .block [2, 3]⟩], some 4⟩

/-- The new line ends the comment; behind one item the second text has other
identities, but for the name. -/
theorem parse_append_commented : ∃ first whole, parse commented = .ok first ∧
    parse (commented ++ "\n" ++ branched) = .ok whole ∧
    first.diff whole =
      [.insert "module/1" (some "module"),
        .insert "module/1/then" (some "module/1"),
        .insert "module/1/then/0" (some "module/1/then"),
        .insert "y" (some "module")] := by
  have parsed : (parse commented).toOption.map (fun _ => ()) = some () := by
    decide +kernel
  have parsedMore : (parse branched).toOption.map id = some branchedTree := by
    decide +kernel
  have written : (readItems commented).toOption.map (fun members =>
      (members.length, writtenNames (blockOf members))) = some (1, ["x"]) := by
    decide +kernel
  have writtenMore : (readItems branched).toOption.map (fun members =>
      writtenNames (blockOf members)) = some ["y"] := by
    decide +kernel
  have walk : branchedTree.walk = [(4, 0), (2, 1), (1, 2), (0, 3), (3, 1)] := by
    cbv
  have nodes : (branchedTree.identities.tail.map fun id =>
      (id, branchedTree.parentOf? id)) =
        [("module/0", some "module"), ("module/0/then", some "module/0"),
          ("module/0/then/0", some "module/0/then"), ("y", some "module")] := by
    simp only [Tree.identities, Tree.parentOf?, walk]
    decide +kernel
  have moved : ["module/0", "module/0/then", "module/0/then/0", "y", "module"].map
      (NodeId.behind 1) =
        ["module/1", "module/1/then", "module/1/then/0", "y", "module"] := by
    decide +kernel
  obtain ⟨first, accepted, -⟩ := exists_of_toOption parsed
  obtain ⟨_, acceptedMore, rfl⟩ := exists_of_toOption parsedMore
  obtain ⟨members, read, isWritten⟩ := exists_of_toOption written
  obtain ⟨others, readMore, isWrittenMore⟩ := exists_of_toOption writtenMore
  obtain ⟨count, names⟩ := Prod.mk.inj isWritten
  have apart : (writtenNames (blockOf members)).Disjoint
      (writtenNames (blockOf others)) := by
    rw [names, isWrittenMore]
    simp
  obtain ⟨whole, acceptedWhole, -, -, patches⟩ :=
    parse_append accepted acceptedMore read readMore apart
      (by rw [names]; decide) (by rw [isWrittenMore]; decide)
  refine ⟨first, whole, accepted, acceptedWhole, ?_⟩
  have listed := congrArg (List.map fun pair : NodeId × Option NodeId =>
    Patch.insert (pair.1.behind 1) (pair.2.map (NodeId.behind 1))) nodes
  rw [List.map_map] at listed
  rw [patches, count]
  refine listed.trans ?_
  simp only [List.map_cons, List.map_nil, List.cons.injEq] at moved
  simp [moved]

end Outline

end Flowchart
