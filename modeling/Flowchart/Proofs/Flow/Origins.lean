import Flowchart.Proofs.Flow.Continuation

/-!
# Where edges come from

An edge of a program leads from a node into the constructs below it, from a member of
a block to the next one, or from a column back to the node above it.  Which members
those are, and whether they declare something, is what there is to know of an edge
besides its two ends.
-/

namespace Flowchart.Program

/-! ## Columns -/

theorem armContinuations_eq (follow : Option Goal)
    (arms : List (String × Program NodeId)) :
    armContinuations follow arms =
      (arms.map Prod.snd).flatMap (continuations false follow) := by
  induction arms with
  | nil => rfl
  | cons arm later ih => rw [armContinuations, ih, List.map_cons, List.flatMap_cons]

/-- Induction by how flow passes a program on to its children: one after the other,
each by itself, or as columns that start and end at the node. -/
theorem columnInduction {L : Type} {motive : Program L → Prop}
    (filled : ∀ label members, (block label members).isFilledBlock = true →
      (∀ member ∈ members, motive member) → motive (.block label members))
    (service : ∀ label body, motive body →
      motive (.container label .service body))
    (columns : ∀ program : Program L, program.isFilledBlock = false →
      program.tag ≠ .container .service →
      (∀ child ∈ program.children, motive child) → motive program)
    (program : Program L) : motive program := by
  induction program using childrenInduction with
  | step program ih =>
      cases hasNode : program.isFilledBlock with
      | false =>
          by_cases isService : program.tag = .container .service
          · match program, isService, ih with
            | .container label .service body, _, ih =>
                exact service label body (ih body (List.mem_singleton_self body))
          · exact columns program hasNode isService ih
      | true =>
          match program, hasNode, ih with
          | .block label members, isFilled, ih => exact filled label members isFilled ih

/-- Where the columns below a node come together. -/
def closing : Program NodeId → Goal
  | .loop id _ _ => .loopBack id
  | .container id _ _ => .finish id
  | program => .merge program.label

/-- The edges that go past the columns of a construct to where they come together. -/
def bypasses : Program NodeId → Nat
  | .decision _ _ none => 1
  | _ => 0

theorem closing_place (program : Program NodeId) :
    program.closing.place.node = program.label ∧
      program.closing.place.anchor ≠ .entry := by
  cases program <;> exact ⟨rfl, nofun⟩

/-- Flow enters all but blocks with members at their own node. -/
theorem entry_of_hasNode {program : Program NodeId}
    (hasNode : program.isFilledBlock = false) :
    program.entry = ⟨program.label, .entry⟩ := by
  cases program with
  | block label members =>
      cases members with
      | nil => rfl
      | cons first later => cases hasNode
  | _ => rfl

section

variable {program : Program NodeId} (hasNode : program.isFilledBlock = false)
  (notService : program.tag ≠ .container .service)

include hasNode notService

/-- Outside of blocks and services, flow goes on from the children of a node to where
its columns come together. -/
theorem continuations_columns (inService : Bool) (follow : Option Goal) :
    continuations inService follow program = (program, follow) ::
      program.children.flatMap (continuations false (some program.closing)) := by
  cases program with
  | block label members =>
      cases members with
      | nil => rfl
      | cons first later => cases hasNode
  | decision label consequent alternative =>
      cases alternative <;> simp [continuations, children, closing, Program.label]
  | selection label arms =>
      rw [continuations, armContinuations_eq]
      rfl
  | loop label kind body => simp [continuations, children, closing]
  | container label kind body =>
      cases kind with
      | function => simp [continuations, children, closing]
      | service => exact absurd rfl notService
  | _ => rfl

/-- The edges into the columns of a construct, and those past them. -/
theorem targets_enteringEdges : program.enteringEdges.map Edge.target =
    program.children.map entry ++
      List.replicate program.bypasses program.closing.place := by
  cases program with
  | block label members =>
      cases members with
      | nil => rfl
      | cons first later => cases hasNode
  | decision label consequent alternative => cases alternative <;> rfl
  | selection label arms =>
      have none : bypasses (.selection label arms) = 0 := rfl
      rw [enteringEdges, children, none, List.replicate_zero, List.append_nil,
        List.mapIdx_eq_zipIdx_map, List.map_map, List.map_map]
      conv_rhs => rw [← List.zipIdx_map_fst 0 arms, List.map_map]
      rfl
  | container label kind body =>
      cases kind with
      | function => rfl
      | service => exact absurd rfl notService
  | _ => rfl

end

/-- Where flow leaves a node, to what follows it and to what is below it. -/
def departures (program : Program NodeId) : List Endpoint :=
  program.outlet.toList ++ program.enteringEdges.map Edge.source

theorem departures_at {program : Program NodeId}
    (hasNode : program.isFilledBlock = false) :
    program.departures.Nodup ∧
      ∀ source ∈ program.departures, source.node = program.label := by
  cases program with
  | block own members =>
      cases members with
      | nil => simp [departures, outlet, lastOutlet, enteringEdges, label]
      | cons first later => cases hasNode
  | decision own consequent alternative =>
      cases alternative with
      | none => simp [departures, outlet, enteringEdges, label]
      | some alternative =>
          rw [departures, outlet]
          split <;> simp [enteringEdges, label]
  | selection own arms =>
      have entering : (enteringEdges (.selection own arms)).map Edge.source =
          (List.range' 0 arms.length).map fun index => ⟨own, .arm index⟩ := by
        rw [enteringEdges, List.mapIdx_eq_zipIdx_map, List.map_map,
          ← List.zipIdx_map_snd, List.map_map]
        rfl
      have apart : ((List.range' 0 arms.length).map fun index =>
          (⟨own, .arm index⟩ : Endpoint)).Nodup :=
        List.Nodup.map (fun first second same => by simpa using same)
          List.nodup_range'
      rw [departures, outlet, entering]
      split <;> simp [label, apart]
  | container own kind body =>
      cases kind <;> simp [departures, outlet, enteringEdges, label,
        Goal.edgeFrom]
  | _ => simp [departures, outlet, enteringEdges, label]

theorem nodeEdges_eq {program : Program NodeId}
    (hasNode : program.isFilledBlock = false) (follow : Option Goal) :
    nodeEdges (program, follow) =
      leavingEdges program.outlet follow ++ program.enteringEdges := by
  simp [nodeEdges, hasNode]

/-- What follows a member is the next one, if anything. -/
theorem memberFollow_eq (inService : Bool) (members : List (Program NodeId))
    (follow : Option Goal) (member : Program NodeId)
    (later : List (Program NodeId)) :
    memberFollow inService members follow member later = none ∨
      memberFollow inService members follow member later = nextGoal follow later ∧
        ∀ next ∈ later.head?, member.tag.isDeclaration = false ∧
          next.tag.isDeclaration = false := by
  cases later with
  | nil =>
      rw [memberFollow, nextGoal]
      split <;> simp
  | cons next others =>
      rw [memberFollow, nextGoal]
      split
      · exact .inl rfl
      · simp_all

/-! ## Every edge -/

/-- An edge of a program, by the node that it is wired at. -/
inductive Arises (program : Program NodeId) : Edge → Prop where
  /-- Flow goes into a construct below a node, or past it. -/
  | enters {node : Program NodeId} {edge : Edge} :
      node ∈ program.preorder → edge ∈ node.enteringEdges → Arises program edge
  /-- Flow goes on from a member of a block to the next one. -/
  | goesOn {label : NodeId} {earlier later : List (Program NodeId)}
      {member next : Program NodeId} {source : Endpoint} :
      .block label (earlier ++ member :: next :: later) ∈ program.preorder →
      member.tag.isDeclaration = false → next.tag.isDeclaration = false →
      member.outlet = some source → Arises program (next.goal.edgeFrom source)
  /-- Flow comes out of a column and back to the node above it. -/
  | closes {node child : Program NodeId} {source : Endpoint} :
      node ∈ program.preorder → node.isFilledBlock = false →
      node.tag ≠ .container .service → child ∈ node.children →
      child.outlet = some source → Arises program (node.closing.edgeFrom source)

namespace Arises

theorem of_child {program child : Program NodeId} {edge : Edge}
    (childIn : child ∈ program.children) (arises : Arises child edge) :
    Arises program edge := by
  cases arises with
  | enters nodeIn edgeIn => exact .enters (mem_preorder_of_child childIn nodeIn) edgeIn
  | goesOn blockIn plain nextPlain leaves =>
      exact .goesOn (mem_preorder_of_child childIn blockIn) plain nextPlain leaves
  | closes nodeIn hasNode notService inner leaves =>
      exact .closes (mem_preorder_of_child childIn nodeIn) hasNode notService inner
        leaves

end Arises

theorem mem_leavingEdges_iff {outlet : Option Endpoint} {follow : Option Goal}
    {edge : Edge} : edge ∈ leavingEdges outlet follow ↔
      ∃ source goal, outlet = some source ∧ follow = some goal ∧
        edge = goal.edgeFrom source := by
  cases outlet <;> cases follow <;> simp [leavingEdges]

theorem mem_memberContinuations_iff
    {next : Program NodeId → List (Program NodeId) → Option Goal}
    {members : List (Program NodeId)} {continued : Program NodeId × Option Goal} :
    continued ∈ memberContinuations next members ↔
      ∃ earlier member later, members = earlier ++ member :: later ∧
        continued ∈ continuations false (next member later) member := by
  induction members with
  | nil => simp [memberContinuations]
  | cons first rest ih =>
      rw [memberContinuations, List.mem_append, ih]
      constructor
      · rintro (inFirst | ⟨earlier, member, later, rfl, inMember⟩)
        · exact ⟨[], first, rest, rfl, inFirst⟩
        · exact ⟨first :: earlier, member, later, rfl, inMember⟩
      · rintro ⟨earlier, member, later, isSplit, inMember⟩
        cases earlier with
        | nil =>
            obtain ⟨rfl, rfl⟩ := List.cons.inj isSplit
            exact .inl inMember
        | cons other earlier =>
            obtain ⟨rfl, rfl⟩ := List.cons.inj isSplit
            exact .inr ⟨earlier, member, later, rfl, inMember⟩

/-- Every edge of a program leads on from it or arises in it. -/
def Explains (program : Program NodeId) : Prop :=
  ∀ inService follow,
    ∀ edge ∈ (continuations inService follow program).flatMap nodeEdges,
      edge ∈ leavingEdges program.outlet follow ∨ Arises program edge

theorem Explains.filled {label : NodeId} {members : List (Program NodeId)}
    (isFilled : (block label members).isFilledBlock = true)
    (each : ∀ member ∈ members, member.Explains) :
    (block label members).Explains := by
  intro inService follow edge edgeIn
  have noNode : nodeEdges (block label members, follow) = [] := by
    simp [nodeEdges, isFilled]
  rw [continuations, List.flatMap_cons, noNode, List.nil_append] at edgeIn
  obtain ⟨continued, continuedIn, atNode⟩ := List.mem_flatMap.mp edgeIn
  obtain ⟨earlier, member, later, rfl, inMember⟩ :=
    mem_memberContinuations_iff.mp continuedIn
  have memberIn : member ∈ earlier ++ member :: later := by simp
  rcases each member memberIn _ _ edge
    (List.mem_flatMap.mpr ⟨continued, inMember, atNode⟩) with leaves | arises
  · obtain ⟨source, goal, isOutlet, isFollow, rfl⟩ := mem_leavingEdges_iff.mp leaves
    rcases memberFollow_eq inService (earlier ++ member :: later) follow member later
      with isNone | ⟨isNext, plain⟩
    · exact absurd (isNone.symm.trans isFollow) (by simp)
    · rw [isNext] at isFollow
      cases later with
      | nil =>
          refine .inl (mem_leavingEdges_iff.mpr ⟨source, goal, ?_, isFollow, rfl⟩)
          rw [outlet, lastOutlet_snoc, isOutlet]
      | cons next later =>
          obtain rfl := Option.some.inj isFollow
          obtain ⟨memberPlain, nextPlain⟩ := plain next rfl
          exact .inr (.goesOn (self_mem_preorder _) memberPlain nextPlain isOutlet)
  · exact .inr (arises.of_child memberIn)

theorem Explains.service {label : NodeId} {body : Program NodeId}
    (bodyExplains : body.Explains) : (container label .service body).Explains := by
  intro inService follow edge edgeIn
  have noEdges : nodeEdges (container label .service body, follow) = [] := rfl
  rw [continuations, List.flatMap_cons, noEdges, List.nil_append] at edgeIn
  rcases bodyExplains _ _ edge edgeIn with leaves | arises
  · rw [leavingEdges_none] at leaves
    cases leaves
  · exact .inr (arises.of_child (List.mem_singleton_self body))

theorem Explains.columns {program : Program NodeId}
    (each : ∀ child ∈ program.children, child.Explains)
    (hasNode : program.isFilledBlock = false)
    (notService : program.tag ≠ .container .service) : program.Explains := by
  intro inService follow edge edgeIn
  rw [continuations_columns hasNode notService, List.flatMap_cons,
    nodeEdges_eq hasNode, List.mem_append, List.mem_append] at edgeIn
  rcases edgeIn with (leaves | enters) | inColumns
  · exact .inl leaves
  · exact .inr (.enters (self_mem_preorder _) enters)
  · obtain ⟨continued, continuedIn, atNode⟩ := List.mem_flatMap.mp inColumns
    obtain ⟨child, childIn, inChild⟩ := List.mem_flatMap.mp continuedIn
    rcases each child childIn _ _ edge
      (List.mem_flatMap.mpr ⟨continued, inChild, atNode⟩) with leaves | arises
    · obtain ⟨source, goal, isOutlet, isGoal, rfl⟩ := mem_leavingEdges_iff.mp leaves
      obtain rfl := Option.some.inj isGoal
      exact .inr (.closes (self_mem_preorder _) hasNode notService childIn isOutlet)
    · exact .inr (arises.of_child childIn)

theorem explains (program : Program NodeId) : program.Explains := by
  induction program using columnInduction with
  | filled label members isFilled each => exact .filled isFilled each
  | service label body bodyExplains => exact .service bodyExplains
  | columns program hasNode notService each => exact .columns each hasNode notService

/-- Nothing follows a whole program, so all its edges arise in it. -/
theorem arises_of_mem_controlFlow {program : Program NodeId} {edge : Edge}
    (edgeIn : edge ∈ program.controlFlow) : Arises program edge := by
  rcases program.explains _ _ edge edgeIn with leaves | arises
  · rw [leavingEdges_none] at leaves
    cases leaves
  · exact arises

end Flowchart.Program
