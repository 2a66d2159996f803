import Flowchart.Proofs.Outline.Identities

/-!
# Items at other places

An item that comes to another place of an outline is named after that place.  The
names that are written stay, and the identities below the item are those from
before with another start; how many bytes follow a name makes no difference, and
neither do other names that were given first.
-/

namespace Flowchart

/-! ## Identities behind more items -/

namespace NodeId

/-- The identity with this way. -/
def ofWay (way : List (List Char)) : NodeId :=
  String.ofList (['/'].intercalate way)

/-- The identity of a node of an outline where `count` more items stand before
the item that it belongs to. -/
def behind (count : Nat) (id : NodeId) : NodeId :=
  match id.way with
  | start :: place :: rest =>
      if start = Outline.rootId.toList then
        ofWay (start ::
          (toString (count + Nat.ofDigitChars 10 place 0)).toList :: rest)
      else id
  | _ => id

theorem ofWay_way (id : NodeId) : ofWay id.way = id := by
  rw [ofWay, way, List.intercalate_splitOn, String.ofList_toList]

theorem ofWay_concat {way : List (List Char)} (nonempty : way ≠ []) (place : String) :
    ofWay (way ++ [place.toList]) = (ofWay way).child place := by
  have joined : ['/'].intercalate (way ++ [place.toList]) =
      ['/'].intercalate way ++ '/' :: place.toList := by
    induction way with
    | nil => exact absurd rfl nonempty
    | cons first rest ih =>
        cases rest with
        | nil =>
            rw [List.singleton_append, List.intercalate_cons_cons,
              List.intercalate_singleton, List.intercalate_singleton,
              List.append_assoc, List.singleton_append]
        | cons second others =>
            have further := ih (List.cons_ne_nil _ _)
            rw [List.cons_append, List.cons_append, List.intercalate_cons_cons,
              List.intercalate_cons_cons, ← List.cons_append, further,
              ← List.append_assoc]
  apply String.toList_injective
  rw [ofWay, joined, child]
  simp [ofWay]

theorem behind_of_plain {id : NodeId} (plain : '/' ∉ id.toList) (count : Nat) :
    id.behind count = id := by
  rw [behind, way_of_plain plain]

theorem behind_root (count : Nat) : NodeId.behind count Outline.rootId = Outline.rootId :=
  behind_of_plain (by decide) count

/-- The items of an outline move on. -/
theorem behind_item (count index : Nat) :
    (NodeId.child Outline.rootId (toString index)).behind count =
      NodeId.child Outline.rootId (toString (count + index)) := by
  have isIndex : Nat.ofDigitChars 10 (toString index).toList 0 = index := by
    simp
  have rootWay : NodeId.way Outline.rootId = [Outline.rootId.toList] :=
    way_of_plain (by decide)
  rw [behind, way_child _ (plain_toString index), rootWay]
  simp only [List.singleton_append, if_pos, isIndex]
  rw [← List.singleton_append, ofWay_concat (List.cons_ne_nil _ _), ← rootWay,
    ofWay_way]

/-- What is called after a node stays called after it. -/
theorem behind_child {id : NodeId} (notRoot : id ≠ Outline.rootId) (place : SlotName)
    (count : Nat) :
    (id.child place.step).behind count = (id.behind count).child place.step := by
  have isWay := way_child id place.plain_step
  unfold behind
  rw [isWay]
  cases way : id.way with
  | nil => exact absurd way id.way_ne_nil
  | cons start rest =>
      have isId := ofWay_way id
      rw [way] at isId
      cases rest with
      | nil =>
          have notStart : start ≠ Outline.rootId.toList := by
            rintro rfl
            rw [ofWay, List.intercalate_singleton, String.ofList_toList] at isId
            exact notRoot isId.symm
          simp only [List.singleton_append, if_neg notStart]
      | cons index others =>
          simp only [List.cons_append]
          split
          · rw [← ofWay_concat (List.cons_ne_nil _ _)]
            rfl
          · rfl

theorem child_ne_root (parent : NodeId) (place : String) :
    parent.child place ≠ Outline.rootId := by
  intro same
  have slashIn : '/' ∈ (parent.child place).toList := by simp [child]
  rw [same] at slashIn
  exact absurd slashIn (by decide)

end NodeId

/-- The same label for another identity. -/
def Label.renamed {α : Type} (rename : NodeId → NodeId) (label : Label α) :
    Label α :=
  { label with id := rename label.id }

namespace Outline

open Naming

/-! ## Runs of naming -/

/-- What is written says the same, but for the place of a name. -/
structure Rewrites (change : Written → Written) : Prop where
  name : ∀ written, (change written).name.map Name.text =
    written.name.map Name.text
  text : ∀ written, (change written).text = written.text
  hint : ∀ written, (change written).hint = written.hint

/-- Naming does not notice that these names are given to other nodes before, and
gives no other identities to the nodes with these names. -/
structure Harmless (rename : NodeId → NodeId) (more names : List String) :
    Prop where
  stays : ∀ name ∈ names, rename name = name
  isNew : ∀ name ∈ names, name ∉ more
  notRoot : rootId ∉ names

theorem Harmless.subset {rename : NodeId → NodeId} {more names fewer : List String}
    (harmless : Harmless rename more names) (subset : fewer ⊆ names) :
    Harmless rename more fewer where
  stays := fun name nameIn => harmless.stays name (subset nameIn)
  isNew := fun name nameIn => harmless.isNew name (subset nameIn)
  notRoot := fun isIn => harmless.notRoot (subset isIn)

section

variable {change : Written → Written} {rename : NodeId → NodeId}
  {more : List String}

/-- A node is called the same after it was renamed as before. -/
theorem labelled_renamed (rewrites : Rewrites change) {written : Written}
    (harmless : Harmless rename more (written.name.map Name.text).toList)
    {derived : NodeId} {label : Label Float32} {before after : List String}
    (run : (labelled written derived).run before = .ok (label, after)) :
    (labelled (change written) (rename derived)).run (before ++ more) =
      .ok (label.renamed rename, after ++ more) := by
  obtain ⟨identified, isText, isHint⟩ := of_labelled run
  have identifiedToo :
      (identify (change written).name (rename derived)).run (before ++ more) =
        .ok (rename label.id, after ++ more) := by
    have sameName := rewrites.name written
    cases isName : written.name with
    | none =>
        rw [isName] at identified sameName
        obtain ⟨rfl, rfl⟩ := identify_none_eq_ok.mp identified
        rw [Option.map_eq_none_iff.mp sameName]
        exact identify_none_eq_ok.mpr ⟨rfl, rfl⟩
    | some name =>
        rw [isName] at identified sameName harmless
        obtain ⟨isNew, isId, rfl⟩ := identify_name_eq_ok.mp identified
        obtain ⟨other, isOther, sameText⟩ := Option.map_eq_some_iff.mp sameName
        have nameIn : name.text ∈ ((some name).map Name.text).toList :=
          List.mem_singleton_self _
        have notGiven : other.text ∉ before ++ more := by
          rw [sameText, List.mem_append, not_or]
          exact ⟨isNew, harmless.isNew _ nameIn⟩
        rw [isOther, identify_name_eq_ok, ← isId, harmless.stays _ nameIn]
        refine ⟨notGiven, sameText, ?_⟩
        rw [sameText, List.cons_append]
  rw [labelled, bind_run_eq_ok]
  refine ⟨_, _, identifiedToo, pure_run_eq_ok.mpr ⟨?_, rfl⟩⟩
  rw [rewrites.text, rewrites.hint, ← isText, ← isHint]
  rfl

theorem label_ne_root {written : Written} {derived : NodeId}
    {label : Label Float32} {before after : List String}
    (harmless : Harmless rename more (written.name.map Name.text).toList)
    (notRoot : derived ≠ rootId)
    (run : (labelled written derived).run before = .ok (label, after)) :
    label.id ≠ rootId := by
  obtain ⟨identified, -, -⟩ := of_labelled run
  cases isName : written.name with
  | none =>
      rw [isName] at identified
      rwa [← (identify_none_eq_ok.mp identified).1]
  | some name =>
      rw [isName] at identified harmless
      rw [← (identify_name_eq_ok.mp identified).2.1]
      exact fun isRoot => harmless.notRoot (isRoot ▸ List.mem_singleton_self _)

/-- Wherever an item is named, it is named in the same way after all identities
are renamed. -/
def NamedAlike (change : Written → Written) (rename : NodeId → NodeId)
    (more : List String) (item : Item) : Prop :=
  ∀ derived program before after, derived ≠ rootId →
    (named derived item).run before = .ok (program, after) →
      (named (rename derived) (item.map change)).run (before ++ more) =
        .ok (program.map (Label.renamed rename), after ++ more)

theorem NamedAlike.at_place {item : Item}
    (alike : NamedAlike change rename more item) {parent newParent : NodeId}
    {place newPlace : String}
    (isPlace : rename (parent.child place) = newParent.child newPlace)
    {program : Program (Label Float32)} {before after : List String}
    (run : (named (parent.child place) item).run before = .ok (program, after)) :
    (named (newParent.child newPlace) (item.map change)).run (before ++ more) =
      .ok (program.map (Label.renamed rename), after ++ more) := by
  rw [← isPlace]
  exact alike _ _ _ _ (NodeId.child_ne_root parent place) run

theorem namedMembers_renamed {members : List Item}
    (each : ∀ member ∈ members, NamedAlike change rename more member)
    {parent newParent : NodeId} (count : Nat)
    (places : ∀ index, rename (parent.child (toString index)) =
      newParent.child (toString (count + index)))
    {index : Nat} {programs : List (Program (Label Float32))}
    {before after : List String}
    (run : (namedMembers parent index members).run before =
      .ok (programs, after)) :
    (namedMembers newParent (count + index)
        (members.map (Program.map change))).run (before ++ more) =
      .ok (programs.map (Program.map (Label.renamed rename)), after ++ more) := by
  induction members generalizing index programs before with
  | nil =>
      obtain ⟨rfl, rfl⟩ := pure_run_eq_ok.mp run
      exact pure_run_eq_ok.mpr ⟨rfl, rfl⟩
  | cons member rest ih =>
      obtain ⟨first, others⟩ := List.forall_mem_cons.mp each
      simp only [namedMembers, bind_run_eq_ok, pure_run_eq_ok] at run
      obtain ⟨program, _, memberNamed, programs, _, restNamed, rfl, rfl⟩ := run
      have memberRenamed := first.at_place (places index) memberNamed
      have restRenamed := ih others restNamed
      simp only [List.map_cons, namedMembers, bind_run_eq_ok, pure_run_eq_ok]
      exact ⟨_, _, memberRenamed, _, _, restRenamed, rfl, rfl⟩

theorem withoutHint_map (program : Program (Label Float32)) :
    (namedArms.withoutHint program).map (Label.renamed rename) =
      namedArms.withoutHint (program.map (Label.renamed rename)) := by
  cases program with
  | decision label consequent alternative => cases alternative <;> rfl
  | _ => rfl

theorem namedArms_renamed {arms : List (String × Item)}
    (each : ∀ arm ∈ arms, NamedAlike change rename more arm.2)
    {parent newParent : NodeId}
    (places : ∀ place : SlotName, rename (parent.child place.step) =
      newParent.child place.step)
    {index : Nat} {programs : List (String × Program (Label Float32))}
    {before after : List String}
    (run : (namedArms parent index arms).run before = .ok (programs, after)) :
    (namedArms newParent index (Program.mapArms change arms)).run
        (before ++ more) =
      .ok (Program.mapArms (Label.renamed rename) programs, after ++ more) := by
  induction arms generalizing index programs before with
  | nil =>
      obtain ⟨rfl, rfl⟩ := pure_run_eq_ok.mp run
      exact pure_run_eq_ok.mpr ⟨rfl, rfl⟩
  | cons arm rest ih =>
      obtain ⟨pattern, body⟩ := arm
      obtain ⟨first, others⟩ := List.forall_mem_cons.mp each
      simp only [namedArms, bind_run_eq_ok, pure_run_eq_ok] at run
      obtain ⟨program, _, bodyNamed, programs, _, restNamed, rfl, rfl⟩ := run
      have bodyRenamed := first.at_place (places (.arm index)) bodyNamed
      have restRenamed := ih others restNamed
      simp only [Program.mapArms, withoutHint_map, namedArms, bind_run_eq_ok,
        pure_run_eq_ok]
      exact ⟨_, _, bodyRenamed, _, _, restRenamed, rfl, rfl⟩

/-- Renaming commutes with naming where written names stay and everything else
is called after the renamed nodes. -/
theorem namedAlike (rewrites : Rewrites change)
    (places : ∀ id, id ≠ rootId → ∀ place : SlotName,
      rename (id.child place.step) = (rename id).child place.step)
    {item : Item} (harmless : Harmless rename more (writtenNames item)) :
    NamedAlike change rename more item := by
  induction item using Program.childrenInduction with
  | step item ih =>
    rw [writtenNames_eq] at harmless
    have own := harmless.subset (List.subset_append_left _ _)
    have each : ∀ child ∈ item.children, NamedAlike change rename more child := by
      intro child childIn
      apply ih child childIn
      apply harmless.subset
      intro name nameIn
      exact List.mem_append_right _ (List.mem_flatMap.mpr ⟨child, childIn, nameIn⟩)
    intro derived program before after notRoot run
    -- The label comes first, and the children are called after it.
    have renamed : ∀ {label between},
        (labelled item.label derived).run before = .ok (label, between) →
        (labelled (change item.label) (rename derived)).run (before ++ more) =
            .ok (label.renamed rename, between ++ more) ∧
          ∀ place : SlotName, rename (label.id.child place.step) =
            (rename label.id).child place.step := by
      intro label between isLabel
      exact ⟨labelled_renamed rewrites own isLabel,
        places label.id (label_ne_root own notRoot isLabel)⟩
    cases item with
    | statement | result | typeDefinition =>
        simp only [named, bind_run_eq_ok, pure_run_eq_ok] at run
        obtain ⟨label, _, isLabel, rfl, rfl⟩ := run
        obtain ⟨labelRenamed, -⟩ := renamed isLabel
        simp only [Program.map, named, bind_run_eq_ok, pure_run_eq_ok]
        exact ⟨_, _, labelRenamed, rfl, rfl⟩
    | block written members =>
        simp only [named, bind_run_eq_ok, pure_run_eq_ok] at run
        obtain ⟨label, _, isLabel, programs, _, membersNamed, rfl, rfl⟩ := run
        obtain ⟨labelRenamed, atPlace⟩ := renamed isLabel
        have atIndex : ∀ index, rename (label.id.child (toString index)) =
            (rename label.id).child (toString (0 + index)) := by
          intro index
          rw [Nat.zero_add]
          exact atPlace (.member index)
        have membersRenamed := namedMembers_renamed each 0 atIndex membersNamed
        simp only [Program.map, Program.mapMembers_eq, named, bind_run_eq_ok,
          pure_run_eq_ok]
        exact ⟨_, _, labelRenamed, _, _, membersRenamed, rfl, rfl⟩
    | decision written consequent alternative =>
        cases alternative with
        | none =>
            simp only [named, bind_run_eq_ok, pure_run_eq_ok] at run
            obtain ⟨label, _, isLabel, body, _, bodyNamed, rfl, rfl⟩ := run
            obtain ⟨labelRenamed, atPlace⟩ := renamed isLabel
            have bodyRenamed := (each _ List.mem_cons_self).at_place
              (atPlace .consequent) bodyNamed
            simp only [Program.map, named, bind_run_eq_ok, pure_run_eq_ok]
            exact ⟨_, _, labelRenamed, _, _, bodyRenamed, rfl, rfl⟩
        | some alternative =>
            simp only [named, bind_run_eq_ok, pure_run_eq_ok] at run
            obtain ⟨label, _, isLabel, first, _, firstNamed, second, _,
              secondNamed, rfl, rfl⟩ := run
            obtain ⟨labelRenamed, atPlace⟩ := renamed isLabel
            have firstRenamed := (each _ List.mem_cons_self).at_place
              (atPlace .consequent) firstNamed
            have secondRenamed :=
              (each _ (List.mem_cons_of_mem _ List.mem_cons_self)).at_place
                (atPlace .alternative) secondNamed
            simp only [Program.map, named, bind_run_eq_ok, pure_run_eq_ok]
            exact ⟨_, _, labelRenamed, _, _, firstRenamed, _, _, secondRenamed,
              rfl, rfl⟩
    | selection written arms =>
        simp only [named, bind_run_eq_ok, pure_run_eq_ok] at run
        obtain ⟨label, _, isLabel, programs, _, armsNamed, rfl, rfl⟩ := run
        obtain ⟨labelRenamed, atPlace⟩ := renamed isLabel
        have armsRenamed := namedArms_renamed
          (fun arm armIn => each arm.2 (List.mem_map_of_mem armIn)) atPlace armsNamed
        simp only [Program.map, named, bind_run_eq_ok, pure_run_eq_ok]
        exact ⟨_, _, labelRenamed, _, _, armsRenamed, rfl, rfl⟩
    | loop written kind body | container written kind body =>
        simp only [named, bind_run_eq_ok, pure_run_eq_ok] at run
        obtain ⟨label, _, isLabel, inner, _, bodyNamed, rfl, rfl⟩ := run
        obtain ⟨labelRenamed, atPlace⟩ := renamed isLabel
        have bodyRenamed := (each _ List.mem_cons_self).at_place
          (atPlace .body) bodyNamed
        simp only [Program.map, named, bind_run_eq_ok, pure_run_eq_ok]
        exact ⟨_, _, labelRenamed, _, _, bodyRenamed, rfl, rfl⟩

end

/-! ## One outline after another -/

theorem namedMembers_append {parent : NodeId} {members others : List Item}
    {index : Nat} {programs more : List (Program (Label Float32))}
    {before between after : List String}
    (run : (namedMembers parent index members).run before =
      .ok (programs, between))
    (runMore : (namedMembers parent (index + members.length) others).run between =
      .ok (more, after)) :
    (namedMembers parent index (members ++ others)).run before =
      .ok (programs ++ more, after) := by
  induction members generalizing index programs before with
  | nil =>
      obtain ⟨rfl, rfl⟩ := pure_run_eq_ok.mp run
      exact runMore
  | cons member rest ih =>
      simp only [namedMembers, bind_run_eq_ok, pure_run_eq_ok] at run
      obtain ⟨program, _, memberNamed, programs, _, restNamed, rfl, rfl⟩ := run
      rw [List.length_cons, Nat.add_comm rest.length, ← Nat.add_assoc] at runMore
      have further := ih restNamed runMore
      simp only [List.cons_append, namedMembers, bind_run_eq_ok, pure_run_eq_ok]
      exact ⟨_, _, memberNamed, _, _, further, rfl, rfl⟩

/-- The block around all items has a label of its own. -/
theorem named_blockOf {members : List Item} {program : Program (Label Float32)}
    {before given : List String} :
    (named rootId (blockOf members)).run before = .ok (program, given) ↔
      ∃ programs,
        (namedMembers rootId 0 members).run before = .ok (programs, given) ∧
          .block ⟨rootId, "", none⟩ programs = program := by
  have unnamed : labelled Written.nothing rootId =
      (pure ⟨rootId, "", none⟩ : Naming (Label Float32)) := rfl
  simp only [blockOf, named, unnamed, bind_run_eq_ok, pure_run_eq_ok]
  constructor
  · rintro ⟨_, _, ⟨rfl, rfl⟩, programs, _, run, rfl, rfl⟩
    exact ⟨programs, run, rfl⟩
  · rintro ⟨programs, run, rfl⟩
    exact ⟨_, _, ⟨rfl, rfl⟩, programs, _, run, rfl, rfl⟩

theorem writtenNames_subset {members : List Item} {member : Item}
    (memberIn : member ∈ members) :
    writtenNames member ⊆ writtenNames (blockOf members) := by
  intro name nameIn
  rw [writtenNames_eq]
  exact List.mem_append_right _ (List.mem_flatMap.mpr ⟨member, memberIn, nameIn⟩)

/-- Items that come behind others are named as on their own, but for the places
they are called after. -/
theorem namedMembers_behind {change : Written → Written}
    (rewrites : Rewrites change) {members others : List Item}
    {programs more : List (Program (Label Float32))} {given givenMore : List String}
    (run : (namedMembers rootId 0 members).run [] = .ok (programs, given))
    (runMore : (namedMembers rootId 0 others).run [] = .ok (more, givenMore))
    (notRoot : rootId ∉ writtenNames (blockOf members))
    (harmless : Harmless (NodeId.behind members.length) given
      (writtenNames (blockOf others))) :
    (namedMembers rootId 0 (members.map (Program.map change) ++ others)).run [] =
      .ok (programs ++ more.map (Program.map (Label.renamed
        (NodeId.behind members.length))), givenMore ++ given) := by
  have unmoved : ∀ member ∈ members, NamedAlike change id [] member := by
    intro member memberIn
    apply namedAlike rewrites fun _ _ _ => rfl
    refine ⟨fun _ _ => rfl, fun _ _ => List.not_mem_nil, fun isIn => ?_⟩
    exact notRoot (writtenNames_subset memberIn isIn)
  have moved : ∀ member ∈ others,
      NamedAlike id (NodeId.behind members.length) given member := by
    intro member memberIn
    apply namedAlike ⟨fun _ => rfl, fun _ => rfl, fun _ => rfl⟩
    · exact fun id notRoot place => NodeId.behind_child notRoot place _
    · exact harmless.subset (writtenNames_subset memberIn)
  have first := namedMembers_renamed unmoved 0
    (fun index => by rw [Nat.zero_add]; rfl) run
  have second := namedMembers_renamed moved members.length
    (NodeId.behind_item members.length) runMore
  have sameItems : others.map (Program.map id) = others :=
    (List.map_congr_left fun item _ => item.map_id).trans (List.map_id _)
  have samePrograms : programs.map (Program.map (Label.renamed id)) = programs :=
    (List.map_congr_left fun item _ => item.map_id).trans (List.map_id _)
  rw [samePrograms, List.append_nil, List.append_nil] at first
  rw [sameItems, List.nil_append] at second
  refine namedMembers_append first ?_
  rw [List.length_map, Nat.add_comm 0]
  exact second

end Outline

end Flowchart
