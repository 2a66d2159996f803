import Flowchart.Proofs.Outline.Mentions
import Flowchart.Proofs.Outline.Naming

/-!
# Names given twice

Items are named in the order of the walk, which is that of the text.  So an outline
is refused just if it mentions a name at two places, and then for the first mention
of a name that was mentioned before.
-/

namespace Flowchart.Outline

open Naming

/-! ## Names given one after the other -/

/-- A name is added to those given, unless it is one of them. -/
def give (given : List String) (name : Name) : Except Name (List String) :=
  if name.text ∈ given then .error name else .ok (name.text :: given)

section

variable {given all : List String} {names : List Name} {name again : Name}

theorem give_eq_ok : give given name = .ok all ↔
    name.text ∉ given ∧ name.text :: given = all := by
  rw [give]
  split <;> simp_all

theorem give_eq_error : give given name = .error again ↔
    name.text ∈ given ∧ name = again := by
  rw [give]
  split <;> simp_all

/-- Up to the first name that cannot be given all are new. -/
theorem of_give_eq_error (fails : names.foldlM give given = .error again) :
    ∃ before after, names = before ++ again :: after ∧
      again.text ∈ before.map Name.text ++ given ∧
        (given.Nodup → (before.map Name.text ++ given).Nodup) := by
  induction names generalizing given with
  | nil => cases fails
  | cons name rest ih =>
      rw [List.foldlM_cons] at fails
      rcases bind_eq_error.mp fails with isGiven | ⟨more, isNew, later⟩
      · obtain ⟨known, rfl⟩ := give_eq_error.mp isGiven
        exact ⟨[], rest, rfl, known, id⟩
      · obtain ⟨notGiven, rfl⟩ := give_eq_ok.mp isNew
        obtain ⟨before, after, rfl, isAgain, distinct⟩ := ih later
        -- The name at the front has gone behind those given.
        have moved : (before.map Name.text ++ name.text :: given).Perm
            ((name :: before).map Name.text ++ given) := List.perm_middle
        exact ⟨name :: before, after, rfl, moved.mem_iff.mp isAgain, fun apart =>
          moved.nodup_iff.mp (distinct (List.nodup_cons.mpr ⟨notGiven, apart⟩))⟩

theorem nodup_of_give_eq_ok (gives : names.foldlM give given = .ok all)
    (distinct : given.Nodup) : (names.map Name.text ++ given).Nodup := by
  induction names generalizing given with
  | nil => exact distinct
  | cons name rest ih =>
      rw [List.foldlM_cons] at gives
      obtain ⟨more, isNew, later⟩ := bind_eq_ok.mp gives
      obtain ⟨notGiven, rfl⟩ := give_eq_ok.mp isNew
      have apart := ih later (List.nodup_cons.mpr ⟨notGiven, distinct⟩)
      exact List.perm_middle.nodup_iff.mp apart

end

/-! ## Steps of naming -/

/-- The step gives these names, whatever was given before. -/
def Naming.Gives {β : Type} (step : Naming β) (names : List Name) : Prop :=
  ∀ before, Prod.snd <$> step.run before = names.foldlM give before

namespace Naming.Gives

variable {β γ : Type} {step : Naming β} {next : β → Naming γ}
  {names others : List Name}

protected theorem pure (value : β) : (pure value : Naming β).Gives [] :=
  fun _ => rfl

protected theorem bind (first : step.Gives names)
    (each : ∀ value, (next value).Gives others) :
    (step >>= next).Gives (names ++ others) := by
  intro before
  rw [StateT.run_bind, List.foldlM_append, ← first before]
  cases step.run before with
  | error again => rfl
  | ok result => exact each result.1 result.2

protected theorem map (first : step.Gives names) (change : β → γ) :
    (step >>= fun value => pure (change value)).Gives names := by
  have both := first.bind fun value => Naming.Gives.pure (change value)
  rwa [List.append_nil] at both

end Naming.Gives

theorem gives_identify (name : Option Name) (derived : NodeId) :
    (identify name derived).Gives name.toList := by
  cases name with
  | none => exact .pure derived
  | some name =>
      intro before
      by_cases given : name.text ∈ before <;>
        simp [identify, give, given, bind, StateT.run, StateT.bind, get, getThe,
          MonadStateOf.get, StateT.get, pure, Except.pure, Except.bind, modify,
          modifyGet, MonadStateOf.modifyGet, StateT.modifyGet, StateT.pure, throw,
          throwThe, MonadExceptOf.throw, StateT.lift, Functor.map, Except.map]

theorem gives_labelled (written : Written) (derived : NodeId) :
    (labelled written derived).Gives written.name.toList :=
  (gives_identify written.name derived).map _

theorem gives_namedMembers {members : List Item} (parent : NodeId) (index : Nat)
    (each : ∀ member ∈ members, ∀ derived,
      (named derived member).Gives (names member)) :
    (namedMembers parent index members).Gives (members.flatMap names) := by
  induction members generalizing index with
  | nil => exact .pure []
  | cons member rest ih =>
      obtain ⟨first, others⟩ := List.forall_mem_cons.mp each
      rw [List.flatMap_cons]
      exact (first _).bind fun _ => (ih (index + 1) others).map _

theorem gives_namedArms {arms : List (String × Item)} (parent : NodeId) (index : Nat)
    (each : ∀ arm ∈ arms, ∀ derived, (named derived arm.2).Gives (names arm.2)) :
    (namedArms parent index arms).Gives ((arms.map Prod.snd).flatMap names) := by
  induction arms generalizing index with
  | nil => exact .pure []
  | cons arm rest ih =>
      obtain ⟨first, others⟩ := List.forall_mem_cons.mp each
      rw [List.map_cons, List.flatMap_cons]
      exact (first _).bind fun _ => (ih (index + 1) others).map _

/-- An item is named in the order of the walk, whatever lies below it. -/
theorem gives_named (item : Item) (derived : NodeId) :
    (named derived item).Gives (names item) := by
  induction item using Program.induction generalizing derived with
  | statement written | result written | typeDefinition written =>
      rw [names_eq]
      exact (gives_labelled written derived).bind fun _ => .pure _
  | block written members ih =>
      rw [names_eq]
      exact (gives_labelled written derived).bind fun _ =>
        (gives_namedMembers _ 0 ih).map _
  | selection written arms ih =>
      rw [names_eq]
      exact (gives_labelled written derived).bind fun _ =>
        (gives_namedArms _ 0 ih).map _
  | decision written body ih | loop written _ body ih | container written _ body ih =>
      rw [names_eq]
      have below : [body].flatMap names = names body := List.flatMap_singleton ..
      exact (gives_labelled written derived).bind fun _ => below ▸ (ih _).map _
  | choice written consequent alternative first second =>
      rw [names_eq]
      refine (gives_labelled written derived).bind fun _ => (first _).bind fun _ => ?_
      change Naming.Gives _ ([alternative].flatMap names)
      rw [List.flatMap_singleton]
      exact (second _).map _

/-! ## Repeated mentions -/

/-- The name of a mention stands at an earlier place already. -/
def Repeats (source : String) (mention : Mention) : Prop :=
  mention ∈ mentions source ∧ ∃ earlier ∈ mentions source,
    earlier.span.start < mention.span.start ∧ earlier.name = mention.name

section

variable {source : String} {members : List Item}

/-- Where names before a mention differ and it has one of them, it repeats that name
and no earlier mention repeats any. -/
theorem repeats_first {before after : List Mention} {again : Mention}
    (split : mentions source = before ++ again :: after)
    (isAgain : again.name ∈ before.map Mention.name)
    (distinct : (before.map Mention.name).Nodup) :
    Repeats source again ∧
      ∀ other, Repeats source other → again.span.start ≤ other.span.start := by
  have inOrder : (mentions source).Pairwise fun first later =>
      first.span.start < later.span.start := pairwise_mentionsFrom
  rw [split] at inOrder
  obtain ⟨beforeInOrder, fromHere, acrossHere⟩ := List.pairwise_append.mp inOrder
  have laterThan : ∀ mention ∈ again :: after,
      again.span.start ≤ mention.span.start :=
    List.forall_mem_cons.mpr ⟨le_rfl, fun mention isAfter =>
      ((List.pairwise_cons.mp fromHere).1 mention isAfter).le⟩
  constructor
  · obtain ⟨earlier, isBefore, same⟩ := List.mem_map.mp isAgain
    refine ⟨split ▸ List.mem_append_right _ List.mem_cons_self, earlier,
      split ▸ List.mem_append_left _ isBefore, ?_, same⟩
    exact acrossHere earlier isBefore again List.mem_cons_self
  · rintro other ⟨isIn, earlier, earlierIn, isEarlier, same⟩
    rw [split] at isIn earlierIn
    rcases List.mem_append.mp isIn with isBefore | fromHere
    · rcases List.mem_append.mp earlierIn with earlierBefore | earlierFromHere
      · obtain rfl := List.inj_on_of_nodup_map distinct earlierBefore isBefore same
        exact absurd isEarlier (lt_irrefl _)
      · exact (laterThan earlier earlierFromHere).trans isEarlier.le
    · exact laterThan other fromHere

theorem not_repeats_of_nodup (distinct : ((mentions source).map Mention.name).Nodup)
    (mention : Mention) : ¬Repeats source mention := by
  rintro ⟨isIn, earlier, earlierIn, isEarlier, same⟩
  obtain rfl := List.inj_on_of_nodup_map distinct earlierIn isIn same
  exact lt_irrefl _ isEarlier

theorem map_name_mention (size : Nat) (names : List Name) :
    (names.map (Name.mention size)).map Mention.name = names.map Name.text :=
  List.map_map

/-- Naming fails at the first mention of a name that was mentioned before. -/
theorem repeats_of_program {error : Error} (read : readItems source = .ok members)
    (fails : Outline.program source members = .error error) :
    ∃ mention, error = .duplicateName mention.name mention.span ∧
      Repeats source mention ∧
        ∀ other, Repeats source other → mention.span.start ≤ other.span.start := by
  have gives := gives_named (blockOf members) rootId []
  rw [Outline.program] at fails
  cases run : (named rootId (blockOf members)).run [] with
  | ok result =>
      rw [run] at fails
      cases fails
  | error again =>
      rw [run] at fails gives
      obtain ⟨before, after, split, isAgain, distinct⟩ := of_give_eq_error gives.symm
      rw [List.append_nil] at isAgain distinct
      have mentioned := mentions_of_readItems read
      rw [split, List.map_append, List.map_cons] at mentioned
      obtain ⟨repeats, isFirst⟩ := repeats_first mentioned
        (map_name_mention _ before ▸ isAgain)
        (map_name_mention _ before ▸ distinct .nil)
      exact ⟨again.mention source.utf8ByteSize, (Except.error.inj fails).symm,
        repeats, isFirst⟩

theorem not_repeats_of_program {program : Program (Label Float32)}
    (read : readItems source = .ok members)
    (isNamed : Outline.program source members = .ok program) (mention : Mention) :
    ¬Repeats source mention := by
  obtain ⟨given, run⟩ := of_program isNamed
  have gives := gives_named (blockOf members) rootId []
  rw [run] at gives
  have distinct := nodup_of_give_eq_ok gives.symm .nil
  rw [List.append_nil] at distinct
  refine not_repeats_of_nodup ?_ mention
  rw [mentions_of_readItems read, map_name_mention]
  exact distinct

theorem parse_eq_error {error : Error} (read : readItems source = .ok members) :
    parse source = .error error ↔ Outline.program source members = .error error := by
  rw [parse, read]
  change Outline.program source members >>= (fun program =>
    pure (Tree.ofProgram program)) = .error error ↔ _
  rw [bind_eq_error, or_iff_left]
  rintro ⟨program, -, isTree⟩
  cases isTree

/-- An outline of items is refused just if a name is mentioned at two places, for the
first mention whose name was mentioned before. -/
theorem parse_fails_iff_repeats (read : readItems source = .ok members) :
    ((∃ error, parse source = .error error) ↔ ∃ mention, Repeats source mention) ∧
      ∀ error, parse source = .error error →
        ∃ mention, error = .duplicateName mention.name mention.span ∧
          Repeats source mention ∧
            ∀ other, Repeats source other →
              mention.span.start ≤ other.span.start := by
  simp only [parse_eq_error read]
  refine ⟨⟨fun ⟨error, fails⟩ => ?_, fun ⟨mention, repeats⟩ => ?_⟩,
    fun error fails => repeats_of_program read fails⟩
  · obtain ⟨mention, -, repeats, -⟩ := repeats_of_program read fails
    exact ⟨mention, repeats⟩
  · cases isNamed : Outline.program source members with
    | ok program => exact absurd repeats (not_repeats_of_program read isNamed mention)
    | error error => exact ⟨error, rfl⟩

end

/-- Two names are given again, after a mark in a quote and one in a comment. -/
def twoNamesAgain : String :=
  "if \"@b\" @a \x7b // @b\n expr \"c\" @b; \x7d else \x7b return @b; \x7d " ++
    "expr \"d\" @a;"

/-- The name in the other branch is reported, and not the one further down. -/
theorem parse_fails_iff_repeats_twoNamesAgain :
    ∃ mention, mention.name = "b" ∧ mention.span = .between 50 51 ∧
      parse twoNamesAgain = .error (.duplicateName mention.name mention.span) ∧
        Repeats twoNamesAgain mention ∧
          ∀ other, Repeats twoNamesAgain other →
            mention.span.start ≤ other.span.start := by
  have readable : (readItems twoNamesAgain).isOk = true := by decide +kernel
  have fails : parse twoNamesAgain = .error (.duplicateName "b" (.between 50 51)) := by
    decide +kernel
  obtain ⟨members, read⟩ := exists_of_isOk readable
  obtain ⟨-, isFirst⟩ := parse_fails_iff_repeats read
  obtain ⟨mention, same, repeats, least⟩ := isFirst _ fails
  obtain ⟨isName, isSpan⟩ := Error.duplicateName.inj same
  exact ⟨mention, isName.symm, isSpan.symm, same ▸ fails, repeats, least⟩

end Flowchart.Outline
