import Flowchart.Proofs.Flow.Origins

/-!
# How many edges meet at an anchor

Every edge leaves an anchor of its own.  An anchor of a node takes in as many edges
as the node has room for there: a merge one for each of its columns, any other
anchor at most one.  The room is shared out from the top down: a program that
something follows sends one edge on at most, and it leaves its own entry free for
the edge that comes to it.
-/

namespace Flowchart.Program

/-! ## Following every construct -/

theorem exists_memberContinued
    (next : Program NodeId → List (Program NodeId) → Option Goal)
    (members : List (Program NodeId)) :
    ∃ parts : List (Program NodeId × Bool × Option Goal),
      parts.map Prod.fst = members ∧ memberContinuations next members =
        parts.flatMap fun part => continuations part.2.1 part.2.2 part.1 := by
  induction members with
  | nil => exact ⟨[], rfl, rfl⟩
  | cons member later ih =>
      obtain ⟨parts, same, continued⟩ := ih
      refine ⟨(member, false, next member later) :: parts, ?_, ?_⟩
      · rw [List.map_cons, same]
      · rw [memberContinuations, continued, List.flatMap_cons]

/-- A program is followed by something, and so is each of its children. -/
theorem exists_continued (program : Program NodeId) (inService : Bool)
    (follow : Option Goal) :
    ∃ parts : List (Program NodeId × Bool × Option Goal),
      parts.map Prod.fst = program.children ∧
        continuations inService follow program = (program, follow) ::
          parts.flatMap fun part => continuations part.2.1 part.2.2 part.1 := by
  induction program using columnInduction with
  | filled label members _ _ =>
      obtain ⟨parts, same, continued⟩ := exists_memberContinued
        (memberFollow inService members follow) members
      exact ⟨parts, same, congrArg (List.cons _) continued⟩
  | service label body _ => exact ⟨[(body, true, none)], rfl, by simp [continuations]⟩
  | columns program hasNode notService _ =>
      refine ⟨program.children.map fun child =>
        (child, false, some program.closing), ?_, ?_⟩
      · rw [List.map_map]
        exact List.map_id _
      · rw [continuations_columns hasNode notService, List.flatMap_map]

/-- Every construct is followed once. -/
theorem map_fst_continuations (program : Program NodeId) (inService : Bool)
    (follow : Option Goal) :
    (continuations inService follow program).map Prod.fst = program.preorder := by
  induction program using childrenInduction generalizing inService follow with
  | step program ih =>
      obtain ⟨parts, same, continued⟩ := program.exists_continued inService follow
      rw [continued, preorder_eq, ← same, List.map_cons, List.map_flatMap,
        List.flatMap_map]
      refine congrArg _ (List.flatMap_congr fun part partIn => ?_)
      exact ih part.1 (same ▸ List.mem_map_of_mem partIn) _ _

/-- What follows the constructs of a part comes in one piece. -/
theorem continuations_isInfix {program node : Program NodeId}
    (nodeIn : node ∈ program.preorder) (inService : Bool) (follow : Option Goal) :
    ∃ inner after, continuations inner after node <:+:
      continuations inService follow program := by
  induction program using childrenInduction generalizing inService follow with
  | step program ih =>
      rcases mem_preorder_iff.mp nodeIn with rfl | ⟨child, childIn, inChild⟩
      · exact ⟨inService, follow, List.infix_rfl⟩
      · obtain ⟨parts, same, continued⟩ := program.exists_continued inService follow
        obtain ⟨part, partIn, rfl⟩ := List.mem_map.mp (same ▸ childIn)
        obtain ⟨inner, after, inPart⟩ := ih part.1 childIn inChild part.2.1 part.2.2
        refine ⟨inner, after, inPart.trans ?_⟩
        obtain ⟨before, later, isSplit⟩ := List.append_of_mem partIn
        rw [continued, isSplit, List.flatMap_append, List.flatMap_cons]
        exact (List.infix_append' _ _ _).trans (List.suffix_cons _ _).isInfix

/-! ## Leaving -/

/-- The edges at a node leave it, each from an anchor of its own. -/
theorem sources_nodeEdges (continued : Program NodeId × Option Goal) :
    ((nodeEdges continued).map Edge.source).Nodup ∧
      ∀ edge ∈ nodeEdges continued, edge.source.node = continued.1.label := by
  obtain ⟨program, follow⟩ := continued
  cases hasNode : program.isFilledBlock with
  | true => simp [nodeEdges, hasNode]
  | false =>
      have kept : ((nodeEdges (program, follow)).map Edge.source).Sublist
          program.departures := by
        rw [nodeEdges_eq hasNode, List.map_append, departures]
        refine List.Sublist.append_right ?_ _
        cases program.outlet <;> cases follow <;>
          simp [leavingEdges, Goal.edgeFrom]
      obtain ⟨nodup, atNode⟩ := departures_at hasNode
      exact ⟨nodup.sublist kept, fun edge edgeIn =>
        atNode _ (kept.subset (List.mem_map_of_mem edgeIn))⟩

/-- No two edges leave the same anchor. -/
theorem sources_nodup {program : Program NodeId} (distinct : program.labels.Nodup)
    (inService : Bool) (follow : Option Goal) :
    (((continuations inService follow program).flatMap nodeEdges).map
      Edge.source).Nodup := by
  rw [List.map_flatMap, List.nodup_flatMap]
  refine ⟨fun continued _ => (sources_nodeEdges continued).1, ?_⟩
  rw [labels, ← map_fst_continuations program inService follow, List.map_map,
    List.Nodup, List.pairwise_map] at distinct
  refine distinct.imp fun {first second} apart source inFirst inSecond => ?_
  obtain ⟨edge, edgeIn, rfl⟩ := List.mem_map.mp inFirst
  obtain ⟨other, otherIn, same⟩ := List.mem_map.mp inSecond
  apply apart
  rw [Function.comp_apply, Function.comp_apply,
    ← (sources_nodeEdges first).2 edge edgeIn, ← same]
  exact (sources_nodeEdges second).2 other otherIn

/-- The edge at an anchor is one of the node's own. -/
theorem exists_nodeEdges {program : Program NodeId} {inService : Bool}
    {follow : Option Goal} {edge : Edge}
    (edgeIn : edge ∈ (continuations inService follow program).flatMap nodeEdges) :
    ∃ node ∈ program.preorder, ∃ after, node.label = edge.source.node ∧
      edge ∈ nodeEdges (node, after) := by
  obtain ⟨⟨node, after⟩, continued, atNode⟩ := List.mem_flatMap.mp edgeIn
  refine ⟨node, ?_, after, ((sources_nodeEdges _).2 edge atNode).symm, atNode⟩
  rw [← map_fst_continuations program inService follow]
  exact List.mem_map_of_mem continued

/-! ## Arriving -/

/-- How many edges lead to a place. -/
def arrivals (edges : List Edge) (place : Endpoint) : Nat :=
  edges.countP fun edge => edge.target = place

/-- One if a place is the given one, else none. -/
def meets (found : Option Endpoint) (place : Endpoint) : Nat :=
  if found = some place then 1 else 0

/-- How many edges an anchor of a node has room for. -/
def room : Program NodeId → Anchor → Nat
  | .block _ (_ :: _), _ => 0
  | _, .entry => 1
  | .decision _ _ _, .merge => 2
  | .selection _ arms, .merge => arms.length
  | .loop _ _ _, .loopBack => 1
  | .container _ .function _, .exit => 1
  | _, _ => 0

/-- How many edges a node has room for at a place, if it is there. -/
def roomAt (place : Endpoint) (program : Program NodeId) : Nat :=
  if program.label = place.node then program.room place.anchor else 0

/-- How many edges the nodes of a program have room for at a place. -/
def capacity (place : Endpoint) (program : Program NodeId) : Nat :=
  (program.preorder.map (roomAt place)).sum

section

variable (place : Endpoint)

theorem arrivals_append (first second : List Edge) :
    arrivals (first ++ second) place = arrivals first place + arrivals second place :=
  List.countP_append

theorem arrivals_cons (edge : Edge) (edges : List Edge) :
    arrivals (edge :: edges) place =
      meets (some edge.target) place + arrivals edges place := by
  simp [arrivals, List.countP_cons, Nat.add_comm, meets]

theorem arrivals_eq_sum (edges : List Edge) : arrivals edges place =
    ((edges.map Edge.target).map fun target => meets (some target) place).sum := by
  induction edges with
  | nil => rfl
  | cons edge rest ih =>
      rw [arrivals_cons, ih, List.map_cons, List.map_cons, List.sum_cons]

theorem arrivals_leavingEdges (outlet : Option Endpoint) (follow : Option Goal) :
    arrivals (leavingEdges outlet follow) place ≤
      meets (follow.map Goal.place) place := by
  cases outlet <;> cases follow <;>
    simp [leavingEdges, arrivals, meets, Goal.edgeFrom, List.countP_cons]

theorem capacity_eq (program : Program NodeId) :
    capacity place program = roomAt place program +
      (program.children.map (capacity place)).sum := by
  rw [capacity, preorder_eq, List.map_cons, List.sum_cons, List.map_flatMap,
    List.flatMap_def, List.sum_flatten, List.map_map]
  rfl

/-- One program is left room for at its entry, and what follows it is sent one edge
at most. -/
def Fits (place : Endpoint) (program : Program NodeId) : Prop :=
  ∀ inService follow,
    arrivals ((continuations inService follow program).flatMap nodeEdges) place +
        meets (some program.entry) place ≤
      capacity place program + meets (follow.map Goal.place) place

/-- It is enough to look at the edges to and within the parts. -/
theorem Fits.of_inner {program : Program NodeId}
    {inner : List (Program NodeId × Option Goal)}
    (hasNode : program.isFilledBlock = false)
    (continued : ∀ inService follow,
      continuations inService follow program = (program, follow) :: inner)
    (fits : arrivals (program.enteringEdges ++ inner.flatMap nodeEdges) place +
      meets (some program.entry) place ≤ capacity place program) :
    program.Fits place := by
  intro inService follow
  have leaving := arrivals_leavingEdges place program.outlet follow
  rw [arrivals_append] at fits
  rw [continued, List.flatMap_cons, nodeEdges_eq hasNode, arrivals_append,
    arrivals_append]
  omega

theorem fits_members {members : List (Program NodeId)}
    (each : ∀ member ∈ members, member.Fits place) (inService : Bool)
    (all : List (Program NodeId)) (follow : Option Goal) :
    arrivals ((memberContinuations (memberFollow inService all follow)
        members).flatMap nodeEdges) place +
        meets (members.head?.map entry) place ≤
      (members.map (capacity place)).sum + meets (follow.map Goal.place) place := by
  induction members with
  | nil => simp [memberContinuations, arrivals, meets]
  | cons member later ih =>
      obtain ⟨memberFits, laterFit⟩ := List.forall_mem_cons.mp each
      have first := memberFits false (memberFollow inService all follow member later)
      have rest := ih laterFit
      have passed : meets ((memberFollow inService all follow member later).map
          Goal.place) place ≤ meets ((nextGoal follow later).map Goal.place) place := by
        rcases memberFollow_eq inService all follow member later with isNone | ⟨same, -⟩
        · rw [isNone]
          exact Nat.zero_le _
        · rw [same]
      rw [memberContinuations, List.flatMap_append, arrivals_append,
        List.head?_cons, Option.map_some, List.map_cons, List.sum_cons]
      cases later with
      | nil =>
          simp only [nextGoal] at passed
          simp only [memberContinuations, List.flatMap_nil, List.map_nil,
            List.sum_nil] at rest ⊢
          have none : arrivals [] place = 0 := rfl
          omega
      | cons next others =>
          simp only [nextGoal, List.head?_cons, Option.map_some] at passed rest
          have same : meets (some next.goal.place) place =
            meets (some next.entry) place := rfl
          omega

/-- A node has room for the edge to its entry and for those to one other anchor. -/
theorem room_le {program : Program NodeId}
    (hasNode : program.isFilledBlock = false) (anchor : Anchor)
    (inner : anchor ≠ .entry) :
    meets (some program.entry) place +
        meets (some ⟨program.label, anchor⟩) place * program.room anchor ≤
      roomAt place program := by
  have onEntry : program.room .entry = 1 := by
    cases program with
    | block label members =>
        cases members with
        | nil => rfl
        | cons first later => cases hasNode
    | container label kind body => cases kind <;> rfl
    | _ => rfl
  obtain ⟨node, found⟩ := place
  rw [entry_of_hasNode hasNode]
  by_cases isHere : program.label = node
  · by_cases isEntry : .entry = found
    · subst isEntry
      simp [meets, roomAt, isHere, inner, onEntry]
    · simp only [meets, roomAt, isHere, Option.some.injEq, Endpoint.mk.injEq,
        isEntry, and_false, true_and, if_false, if_true, Nat.zero_add]
      split
      · rename_i same
        rw [same, Nat.one_mul]
      · rw [Nat.zero_mul]
        exact Nat.zero_le _
  · simp [meets, isHere]

/-- The columns of a construct that all lead to one place. -/
theorem fits_columns {bodies : List (Program NodeId)}
    (each : ∀ body ∈ bodies, body.Fits place) (goal : Goal) :
    arrivals ((bodies.flatMap (continuations false (some goal))).flatMap nodeEdges)
        place + (bodies.map fun body => meets (some body.entry) place).sum ≤
      (bodies.map (capacity place)).sum +
        meets (some goal.place) place * bodies.length := by
  induction bodies with
  | nil => simp [arrivals]
  | cons body later ih =>
      obtain ⟨bodyFits, laterFit⟩ := List.forall_mem_cons.mp each
      have first := bodyFits false (some goal)
      have rest := ih laterFit
      simp only [List.flatMap_cons, List.flatMap_append, arrivals_append,
        List.map_cons, List.sum_cons, List.length_cons, Option.map_some,
        Nat.mul_succ] at first ⊢
      omega

/-- Where the columns of a construct come together, there is room for each of them
and for the edges past them. -/
theorem room_closing {program : Program NodeId}
    (notService : program.tag ≠ .container .service)
    (hasNode : program.isFilledBlock = false) :
    program.room program.closing.place.anchor =
      program.children.length + program.bypasses := by
  cases program with
  | block label members =>
      cases members with
      | nil => rfl
      | cons first later => cases hasNode
  | decision label consequent alternative => cases alternative <;> rfl
  | selection label arms => exact (List.length_map _).symm
  | container label kind body =>
      cases kind with
      | function => rfl
      | service => exact absurd rfl notService
  | _ => rfl

theorem Fits.of_columns {program : Program NodeId}
    (each : ∀ child ∈ program.children, child.Fits place)
    (hasNode : program.isFilledBlock = false)
    (notService : program.tag ≠ .container .service) : program.Fits place := by
  refine .of_inner place hasNode (continuations_columns hasNode notService) ?_
  obtain ⟨isOwn, inner⟩ := program.closing_place
  have own := room_le place hasNode program.closing.place.anchor inner
  have columns := fits_columns place each program.closing
  have entering : arrivals program.enteringEdges place =
      (program.children.map fun body => meets (some body.entry) place).sum +
        meets (some program.closing.place) place * program.bypasses := by
    rw [arrivals_eq_sum, targets_enteringEdges hasNode notService, List.map_append,
      List.sum_append, List.map_map, List.map_replicate, List.sum_replicate,
      smul_eq_mul, Nat.mul_comm]
    rfl
  rw [room_closing notService hasNode, ← isOwn, Nat.mul_add] at own
  change meets (some program.entry) place +
    (meets (some program.closing.place) place * _ +
      meets (some program.closing.place) place * _) ≤ _ at own
  rw [arrivals_append, entering, capacity_eq]
  omega

theorem Fits.service {label : NodeId} {body : Program NodeId}
    (bodyFits : body.Fits place) :
    (container label .service body).Fits place := by
  refine .of_inner place rfl (fun _ _ => rfl) ?_
  have own : meets (some (container label .service body).entry) place + _ ≤ _ :=
    room_le place rfl .start nofun
  have inside := bodyFits true none
  have alone : meets (Option.map Goal.place none) place = 0 := rfl
  rw [enteringEdges, List.nil_append, capacity_eq, children, List.map_cons,
    List.sum_cons]
  omega

theorem Fits.filled {label : NodeId} {members : List (Program NodeId)}
    (isFilled : (block label members).isFilledBlock = true)
    (each : ∀ member ∈ members, member.Fits place) :
    (block label members).Fits place := by
  intro inService follow
  have inside := fits_members place each inService members follow
  have noNode : nodeEdges (block label members, follow) = [] := by
    simp [nodeEdges, isFilled]
  have enters : members.head?.map entry = some (block label members).entry := by
    cases members with
    | nil => cases isFilled
    | cons first later => rfl
  rw [continuations, List.flatMap_cons, noNode, List.nil_append, ← enters,
    capacity_eq]
  refine inside.trans ?_
  rw [children]
  omega

/-- A program has room for all its edges and for one to its entry, and sends one edge
on at most. -/
theorem fits (program : Program NodeId) : program.Fits place := by
  induction program using columnInduction with
  | filled label members isFilled each => exact .filled place isFilled each
  | service label body bodyFits => exact .service place bodyFits
  | columns program hasNode notService each =>
      exact .of_columns place each hasNode notService

theorem sum_roomAt_le {nodes : List (Program NodeId)}
    (distinct : (nodes.map label).Nodup) {bound : Nat}
    (each : ∀ node ∈ nodes, node.label = place.node →
      node.room place.anchor ≤ bound) :
    (nodes.map (roomAt place)).sum ≤ bound := by
  induction nodes with
  | nil => exact Nat.zero_le _
  | cons node rest ih =>
      obtain ⟨apart, distinctRest⟩ := List.nodup_cons.mp distinct
      obtain ⟨ofNode, ofRest⟩ := List.forall_mem_cons.mp each
      rw [List.map_cons, List.sum_cons, roomAt]
      split
      · rename_i isHere
        have noOther : (rest.map (roomAt place)).sum = 0 := by
          refine List.sum_eq_zero fun size sizeIn => ?_
          obtain ⟨other, otherIn, rfl⟩ := List.mem_map.mp sizeIn
          refine if_neg fun isThere => apart ?_
          rw [isHere, ← isThere]
          exact List.mem_map_of_mem otherIn
        rw [noOther]
        exact ofNode isHere
      · rw [Nat.zero_add]
        exact ih distinctRest ofRest

/-- No more edges lead to a place than the node there has room for. -/
theorem arrivals_le {program : Program NodeId} (distinct : program.labels.Nodup)
    {bound : Nat} (each : ∀ node ∈ program.preorder, node.label = place.node →
      node.room place.anchor ≤ bound) (inService : Bool) (follow : Option Goal) :
    arrivals ((continuations inService follow program).flatMap nodeEdges) place ≤
      bound + meets (follow.map Goal.place) place := by
  have inside := fits place program inService follow
  have bounded : capacity place program ≤ bound := sum_roomAt_le place distinct each
  omega

end

/-- Each arm of a selection sends one edge at most to where the arms come
together. -/
theorem arrivals_of_arm {program : Program NodeId}
    (distinct : program.labels.Nodup) {label : NodeId}
    {arms : List (String × Program NodeId)}
    (selectionIn : .selection label arms ∈ program.preorder)
    {arm : String × Program NodeId} (armIn : arm ∈ arms) (inService : Bool)
    (follow : Option Goal) :
    ((continuations inService follow program).flatMap nodeEdges).countP
        (fun edge => edge.target = ⟨label, .merge⟩ ∧
          edge.source.node ∈ arm.2.labels) ≤ 1 := by
  obtain ⟨inner, after, inProgram⟩ :=
    continuations_isInfix selectionIn inService follow
  have inSelection : continuations false (some (.merge label)) arm.2 <:+:
      continuations inner after (.selection label arms) := by
    obtain ⟨earlier, later, isSplit⟩ :=
      List.append_of_mem (List.mem_map_of_mem (f := Prod.snd) armIn)
    rw [continuations, armContinuations_eq, isSplit, List.flatMap_append,
      List.flatMap_cons]
    exact (List.infix_append' _ _ _).trans (List.suffix_cons _ _).isInfix
  obtain ⟨before, behind, isSplit⟩ := inSelection.trans inProgram
  have notInArm : label ∉ arm.2.labels :=
    label_notMem_of_child (distinct.sublist ((preorder_sublist selectionIn).map _))
      (List.mem_map_of_mem armIn)
  -- what comes before and after the arm is at other nodes
  rw [labels, ← map_fst_continuations program inService follow, ← isSplit,
    List.map_append, List.map_append, List.map_append, List.map_append,
    map_fst_continuations, List.nodup_append', List.nodup_append'] at distinct
  obtain ⟨⟨-, armDistinct, beforeApart⟩, -, behindApart⟩ := distinct
  have elsewhere : ∀ others : List (Program NodeId × Option Goal),
      ((others.map Prod.fst).map Program.label).Disjoint arm.2.labels →
      (others.flatMap nodeEdges).countP (fun edge =>
        edge.target = ⟨label, .merge⟩ ∧ edge.source.node ∈ arm.2.labels) = 0 := by
    intro others disjoint
    refine List.countP_eq_zero.mpr fun edge edgeIn => ?_
    obtain ⟨continued, continuedIn, atNode⟩ := List.mem_flatMap.mp edgeIn
    have notHere := disjoint
      (List.mem_map_of_mem (List.mem_map_of_mem (f := Prod.fst) continuedIn))
    simpa [(sources_nodeEdges continued).2 edge atNode] using fun _ => notHere
  have inArm : arrivals ((continuations false (some (.merge label)) arm.2).flatMap
      nodeEdges) ⟨label, .merge⟩ ≤ 0 + 1 := by
    refine (arrivals_le _ armDistinct (fun node nodeIn isHere => ?_) _ _).trans
      (Nat.add_le_add_left ?_ 0)
    · exact absurd (List.mem_map.mpr ⟨node, nodeIn, isHere⟩) notInArm
    · simp [meets, Goal.merge]
  rw [← isSplit, List.flatMap_append, List.flatMap_append, List.countP_append,
    List.countP_append, elsewhere before beforeApart, elsewhere behind ?_,
    Nat.zero_add, Nat.add_zero]
  · refine le_trans (List.countP_mono_left fun edge _ both => ?_) inArm
    simp_all
  · exact fun _ inBehind inArmLabels =>
      behindApart (List.mem_append_right _ inArmLabels) inBehind

end Flowchart.Program
