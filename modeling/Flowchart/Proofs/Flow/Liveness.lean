import Flowchart.Proofs.Program.Structure

/-!
# Live nodes

What the text of a program says about its flow: which constructs flow can leave
at their end, and which nodes it can get to.  A node is live if nothing that
comes before it, or before a node around it, in one sequence of statements keeps
flow from going on.
-/

namespace Flowchart.Program

variable {L M : Type}

/-! ## Leaving a construct -/

section

variable (ofMembers : List Bool → Bool)

mutual

/-- Whether flow comes out at the end of a construct.  For a block it is told
from what is known of the members. -/
def comesOut : Program L → Bool
  | .statement _ _ | .loop _ _ _ | .container _ _ _ | .typeDefinition _ => true
  | .result _ => false
  | .block _ members => ofMembers (membersComeOut members)
  | .decision _ _ none => true
  | .decision _ consequent (some alternative) =>
      comesOut consequent || comesOut alternative
  | .selection _ arms => armComesOut arms

def membersComeOut : List (Program L) → List Bool
  | [] => []
  | member :: rest => comesOut member :: membersComeOut rest

def armComesOut : List (String × Program L) → Bool
  | [] => false
  | (_, body) :: rest => comesOut body || armComesOut rest

end

end

/-- Whether a construct can complete; a block can if all its members can. -/
def completes : Program L → Bool :=
  comesOut fun members => members.all id

/-- Whether an exit is left open at the end of a construct, reached or not; a
block has those of its last member. -/
def hasExit : Program L → Bool :=
  comesOut fun members => members.getLast?.getD true

mutual

/-- Whether edges lead from where flow enters a construct to an exit of it. -/
def passes : Program L → Bool
  | .block _ members => allPass members
  | program => hasExit program

def allPass : List (Program L) → Bool
  | [] => true
  | member :: rest => passes member && allPass rest

end

theorem membersComeOut_eq (ofMembers : List Bool → Bool)
    (members : List (Program L)) :
    membersComeOut ofMembers members = members.map (comesOut ofMembers) := by
  induction members with
  | nil => rfl
  | cons member rest ih => simp [membersComeOut, ih]

theorem armComesOut_eq (ofMembers : List Bool → Bool)
    (arms : List (String × Program L)) :
    armComesOut ofMembers arms =
      arms.any fun arm => comesOut ofMembers arm.2 := by
  induction arms with
  | nil => rfl
  | cons arm rest ih => simp [armComesOut, ih]

theorem allPass_eq (members : List (Program L)) :
    allPass members = members.all passes := by
  induction members with
  | nil => rfl
  | cons member rest ih => simp [allPass, ih]

theorem passes_block (label : L) (members : List (Program L)) :
    passes (.block label members) = members.all passes := by
  rw [passes, allPass_eq]

theorem hasExit_block (label : L) (members : List (Program L)) :
    hasExit (.block label members) =
      (members.getLast?.map hasExit).getD true := by
  rw [hasExit, comesOut, membersComeOut_eq, List.getLast?_map]

theorem completes_block (label : L) (members : List (Program L)) :
    completes (.block label members) = members.all completes := by
  rw [completes, comesOut, membersComeOut_eq, List.all_map]
  rfl

theorem passes_eq_hasExit {program : Program L}
    (notBlock : program.tag ≠ .block) : program.passes = program.hasExit := by
  cases program with
  | block label members => exact absurd rfl notBlock
  | decision label consequent alternative => cases alternative <;> rfl
  | _ => rfl

/-- What can complete has an exit. -/
theorem hasExit_of_completes {program : Program L}
    (canComplete : program.completes = true) : program.hasExit = true := by
  induction program with
  | block label members ih =>
      rw [completes_block, List.all_eq_true] at canComplete
      rw [hasExit_block]
      cases isLast : members.getLast? with
      | none => rfl
      | some last =>
          have lastIn := List.mem_of_getLast? isLast
          exact ih last lastIn (canComplete last lastIn)
  | result label => exact canComplete
  | choice label consequent alternative ih₁ ih₂ =>
      unfold completes hasExit at *
      rw [comesOut, Bool.or_eq_true] at canComplete ⊢
      exact canComplete.imp ih₁ ih₂
  | selection label arms ih =>
      unfold completes hasExit at *
      rw [comesOut, armComesOut_eq, List.any_eq_true] at canComplete ⊢
      obtain ⟨arm, armIn, armCompletes⟩ := canComplete
      exact ⟨arm, armIn, ih arm armIn armCompletes⟩
  | _ => rfl

/-- Flow passes through what can complete. -/
theorem passes_of_completes {program : Program L}
    (canComplete : program.completes = true) : program.passes = true := by
  induction program with
  | block label members ih =>
      rw [completes_block, List.all_eq_true] at canComplete
      rw [passes_block, List.all_eq_true]
      exact fun member memberIn =>
        ih member memberIn (canComplete member memberIn)
  | _ =>
      rw [passes_eq_hasExit (by simp [tag])]
      exact hasExit_of_completes canComplete

/-! ## Getting to a node -/

/-- The members before a member of a block that flow goes through to get there,
the nearest first.  A declaration ends such a run. -/
def run (earlier : List (Program L)) : List (Program L) :=
  earlier.reverse.takeWhile fun member => !member.tag.isDeclaration

/-- `Live goesOn inService program node` says that nothing keeps flow, where it
has come to `program`, from getting to `node` in it.  `goesOn` tells what flow
can leave at the end.  The members of a service's own block and declarations
begin flows of their own. -/
inductive Live (goesOn : Program L → Bool) :
    Bool → Program L → Program L → Prop where
  | here (inService : Bool) (program : Program L) :
      Live goesOn inService program program
  | member {inService : Bool} {label : L} {earlier later : List (Program L)}
      {member node : Program L} :
      (inService = false → member.tag.isDeclaration = false →
        ∀ previous ∈ run earlier, goesOn previous = true) →
      Live goesOn false member node →
      Live goesOn inService (.block label (earlier ++ member :: later)) node
  | inside {inService : Bool} {program child node : Program L} :
      program.tag ≠ .block → child ∈ program.children →
      Live goesOn (program.tag = .container .service) child node →
      Live goesOn inService program node

namespace Live

variable {goesOn : Program L → Bool} {inService : Bool}

theorem block_iff {label : L} {members : List (Program L)} {node : Program L} :
    Live goesOn inService (.block label members) node ↔
      node = .block label members ∨
        ∃ earlier member later, members = earlier ++ member :: later ∧
          (inService = false → member.tag.isDeclaration = false →
            ∀ previous ∈ run earlier, goesOn previous = true) ∧
          Live goesOn false member node := by
  constructor
  · intro live
    cases live with
    | here => exact .inl rfl
    | member goes inMember => exact .inr ⟨_, _, _, rfl, goes, inMember⟩
    | inside notBlock => exact absurd rfl notBlock
  · rintro (rfl | ⟨earlier, member, later, rfl, goes, inMember⟩)
    · exact .here _ _
    · exact .member goes inMember

theorem iff_of_ne_block {program node : Program L}
    (notBlock : program.tag ≠ .block) :
    Live goesOn inService program node ↔
      node = program ∨ ∃ child ∈ program.children,
        Live goesOn (program.tag = .container .service) child node := by
  constructor
  · intro live
    cases live with
    | here => exact .inl rfl
    | member => exact absurd rfl notBlock
    | inside _ childIn inChild => exact .inr ⟨_, childIn, inChild⟩
  · rintro (rfl | ⟨child, childIn, inChild⟩)
    · exact .here _ _
    · exact .inside notBlock childIn inChild

/-- Only a block tells whether it is the body of a service. -/
theorem of_ne_block {program node : Program L} (notBlock : program.tag ≠ .block)
    {other : Bool} (live : Live goesOn inService program node) :
    Live goesOn other program node :=
  (iff_of_ne_block notBlock).mpr ((iff_of_ne_block notBlock).mp live)

theorem mem_preorder {program node : Program L}
    (live : Live goesOn inService program node) : node ∈ program.preorder := by
  induction live with
  | here => exact self_mem_preorder _
  | member _ _ ih =>
      exact mem_preorder_of_child (by simp [children]) ih
  | inside _ childIn _ ih => exact mem_preorder_of_child childIn ih

/-- What gets to a construct other than a block gets into it. -/
theorem child {program node inner : Program L}
    (live : Live goesOn inService program node) (notBlock : node.tag ≠ .block)
    (innerIn : inner ∈ node.children) : Live goesOn inService program inner := by
  induction live with
  | here => exact .inside notBlock innerIn (.here _ _)
  | member goes _ ih => exact .member goes (ih notBlock innerIn)
  | inside outerNotBlock childIn _ ih =>
      exact .inside outerNotBlock childIn (ih notBlock innerIn)

/-- The more flow goes on, the more is live. -/
theorem mono {goesFurther : Program L → Bool}
    (further : ∀ program, goesOn program = true → goesFurther program = true)
    {program node : Program L} (live : Live goesOn inService program node) :
    Live goesFurther inService program node := by
  induction live with
  | here => exact .here _ _
  | member goes _ ih =>
      exact .member (fun notService notDeclared previous isPrevious =>
        further previous (goes notService notDeclared previous isPrevious)) ih
  | inside notBlock childIn _ ih => exact .inside notBlock childIn ih

end Live

/-! ## Coming before a node -/

/-- `Follows inService program previous member` says that `previous` comes
before `member` in one sequence of statements of the program. -/
inductive Follows : Bool → Program L → Program L → Program L → Prop where
  | here {label : L} {earlier later : List (Program L)}
      {previous member : Program L} :
      member.tag.isDeclaration = false → previous ∈ run earlier →
      Follows false (.block label (earlier ++ member :: later)) previous member
  | inMember {inService : Bool} {label : L} {members : List (Program L)}
      {outer previous member : Program L} :
      outer ∈ members → Follows false outer previous member →
      Follows inService (.block label members) previous member
  | inside {inService : Bool} {program child previous member : Program L} :
      program.tag ≠ .block → child ∈ program.children →
      Follows (program.tag = .container .service) child previous member →
      Follows inService program previous member

theorem Follows.mem_child {inService : Bool} {program previous member : Program L}
    (follows : Follows inService program previous member) :
    ∃ child ∈ program.children, member ∈ child.preorder := by
  induction follows with
  | @here label earlier later previous member _ _ =>
      exact ⟨member, by simp [children], self_mem_preorder _⟩
  | inMember outerIn _ ih =>
      obtain ⟨child, childIn, inChild⟩ := ih
      exact ⟨_, outerIn, mem_preorder_of_child childIn inChild⟩
  | inside _ childIn _ ih =>
      obtain ⟨inner, innerIn, inInner⟩ := ih
      exact ⟨_, childIn, mem_preorder_of_child innerIn inInner⟩

theorem mem_of_mem_run {earlier : List (Program L)} {previous : Program L}
    (isPrevious : previous ∈ run earlier) : previous ∈ earlier :=
  List.mem_reverse.mp (List.takeWhile_subset _ isPrevious)

theorem Follows.previous_mem_preorder {inService : Bool}
    {program previous member : Program L}
    (follows : Follows inService program previous member) :
    previous ∈ program.preorder := by
  induction follows with
  | here _ isPrevious =>
      refine child_mem_preorder ?_
      simp [children, mem_of_mem_run isPrevious]
  | inMember outerIn _ ih => exact mem_preorder_of_child outerIn ih
  | inside _ childIn _ ih => exact mem_preorder_of_child childIn ih

/-- What comes after something is a member of a block. -/
theorem Follows.exists_block {inService : Bool}
    {program previous member : Program L}
    (follows : Follows inService program previous member) :
    ∃ block ∈ program.preorder, block.tag = .block ∧
      member ∈ block.children := by
  induction follows with
  | here _ _ => exact ⟨_, self_mem_preorder _, rfl, by simp [children]⟩
  | inMember outerIn _ ih =>
      obtain ⟨block, blockIn, isBlock⟩ := ih
      exact ⟨block, mem_preorder_of_child outerIn blockIn, isBlock⟩
  | inside _ childIn _ ih =>
      obtain ⟨block, blockIn, isBlock⟩ := ih
      exact ⟨block, mem_preorder_of_child childIn blockIn, isBlock⟩

theorem Follows.mem_preorder {inService : Bool}
    {program previous member : Program L}
    (follows : Follows inService program previous member) :
    member ∈ program.preorder := by
  obtain ⟨child, childIn, inChild⟩ := follows.mem_child
  exact mem_preorder_of_child childIn inChild

theorem mem_labels_of_mem_preorder {program node : Program L}
    (nodeIn : node ∈ program.preorder) : node.label ∈ program.labels :=
  List.mem_map_of_mem nodeIn

/-- Nothing lies around itself. -/
theorem notMem_preorder_of_child {program child node : Program L}
    (distinct : program.labels.Nodup) (childIn : child ∈ program.children)
    (nodeIn : node ∈ child.preorder) : program ∉ node.preorder := fun inNode =>
  label_notMem_of_child distinct childIn
    (mem_labels_of_mem_preorder (mem_preorder_trans nodeIn inNode))

/-- A node lies below one child only. -/
theorem child_eq_of_mem_preorder {program child other node : Program L}
    (distinct : program.labels.Nodup) (childIn : child ∈ program.children)
    (otherIn : other ∈ program.children) (inChild : node ∈ child.preorder)
    (inOther : node ∈ other.preorder) : child = other :=
  child_eq_of_mem_labels distinct childIn otherIn
    (mem_labels_of_mem_preorder inChild) (mem_labels_of_mem_preorder inOther)

/-- A node has one parent only. -/
theorem parent_unique {program first second child : Program L}
    (distinct : program.labels.Nodup) (firstIn : first ∈ program.preorder)
    (secondIn : second ∈ program.preorder) (inFirst : child ∈ first.children)
    (inSecond : child ∈ second.children) : first = second := by
  induction program using childrenInduction with
  | step program ih =>
    have inside : ∀ {outer parent : Program L}, outer ∈ program.children →
        parent ∈ outer.preorder → child ∈ parent.children →
        child ∉ program.children := by
      intro outer parent outerIn parentIn isChild childIn
      have inOuter := mem_preorder_trans parentIn (child_mem_preorder isChild)
      obtain rfl := child_eq_of_mem_preorder distinct childIn outerIn
        (self_mem_preorder _) inOuter
      rcases mem_preorder_iff.mp parentIn with rfl | ⟨inner, innerIn, inInner⟩
      · exact label_notMem_of_child
          (labels_nodup_of_child distinct childIn) isChild (label_mem_labels _)
      · exact notMem_preorder_of_child (labels_nodup_of_child distinct childIn)
          innerIn (mem_preorder_trans inInner (child_mem_preorder isChild))
          (self_mem_preorder _)
    rcases mem_preorder_iff.mp firstIn with rfl | ⟨outer, outerIn, inOuter⟩
    · rcases mem_preorder_iff.mp secondIn with rfl | ⟨other, otherIn, inOther⟩
      · rfl
      · exact absurd inFirst (inside otherIn inOther inSecond)
    · rcases mem_preorder_iff.mp secondIn with rfl | ⟨other, otherIn, inOther⟩
      · exact absurd inSecond (inside outerIn inOuter inFirst)
      · obtain rfl := child_eq_of_mem_preorder distinct outerIn otherIn
          (mem_preorder_trans inOuter (child_mem_preorder inFirst))
          (mem_preorder_trans inOther (child_mem_preorder inSecond))
        exact ih outer outerIn (labels_nodup_of_child distinct outerIn) inOuter
          inOther

/-- A member of a block stands in one place of it. -/
theorem split_unique {label : L} {earlier later otherEarlier otherLater :
      List (Program L)} {member : Program L}
    (distinct : (block label (earlier ++ member :: later)).labels.Nodup)
    (same : earlier ++ member :: later =
      otherEarlier ++ member :: otherLater) : earlier = otherEarlier := by
  have nodup : (earlier ++ member :: later).Nodup := by
    rw [labels_eq] at distinct
    have apart := (List.nodup_flatMap.mp distinct.of_cons).2
    refine List.Pairwise.imp (fun disjoint => ?_) apart
    rintro rfl
    exact disjoint (label_mem_labels _) (label_mem_labels _)
  obtain ⟨-, laterNodup, apart⟩ := List.nodup_append.mp nodup
  have notEarlier : member ∉ earlier := fun memberIn =>
    apart member memberIn member List.mem_cons_self rfl
  have notLater : member ∉ later := (List.nodup_cons.mp laterNodup).1
  exact ((List.append_cons_inj_of_notMem notEarlier notLater).mp same).1

section

variable {goesOn : Program L → Bool} {inService : Bool}
  {program node previous member : Program L}

/-- What comes before a live node, or before a node around it, goes on. -/
theorem Live.goesOn_of_follows (live : Live goesOn inService program node)
    (distinct : program.labels.Nodup)
    (follows : Follows inService program previous member)
    (inMember : node ∈ member.preorder) : goesOn previous = true := by
  induction live with
  | here =>
      obtain ⟨child, childIn, inChild⟩ := follows.mem_child
      exact absurd inMember (notMem_preorder_of_child distinct childIn inChild)
  | @member inService label earlier later outer node goes live ih =>
      have outerIn :
          outer ∈ (block label (earlier ++ outer :: later)).children := by
        simp [children]
      generalize isMembers : earlier ++ outer :: later = members at *
      cases follows with
      | @here _ otherEarlier otherLater _ _ notDeclared isPrevious =>
          have memberIn : member ∈
              (block label (otherEarlier ++ member :: otherLater)).children := by
            simp [children]
          obtain rfl := child_eq_of_mem_preorder distinct outerIn memberIn
            live.mem_preorder inMember
          obtain rfl := split_unique (isMembers ▸ distinct) isMembers
          exact goes rfl notDeclared previous isPrevious
      | inMember otherIn follows =>
          obtain rfl := child_eq_of_mem_preorder distinct outerIn otherIn
            live.mem_preorder (mem_preorder_trans follows.mem_preorder inMember)
          exact ih (labels_nodup_of_child distinct outerIn) follows inMember
      | inside notBlock => exact absurd rfl notBlock
  | inside notBlock childIn live ih =>
      cases follows with
      | here => exact absurd rfl notBlock
      | inMember => exact absurd rfl notBlock
      | inside _ otherIn follows =>
          obtain rfl := child_eq_of_mem_preorder distinct childIn otherIn
            live.mem_preorder (mem_preorder_trans follows.mem_preorder inMember)
          exact ih (labels_nodup_of_child distinct childIn) follows inMember

theorem Live.of_goesOn (nodeIn : node ∈ program.preorder)
    (goes : ∀ previous member, Follows inService program previous member →
      node ∈ member.preorder → goesOn previous = true) :
    Live goesOn inService program node := by
  induction program using childrenInduction generalizing inService with
  | step program ih =>
    rcases mem_preorder_iff.mp nodeIn with rfl | ⟨child, childIn, inChild⟩
    · exact .here _ _
    by_cases isBlock : program.tag = .block
    · obtain ⟨label, members, rfl⟩ := exists_block_of_tag isBlock
      obtain ⟨earlier, later, rfl⟩ := List.append_of_mem
        (show child ∈ members from childIn)
      refine .member ?_ (ih child childIn inChild ?_)
      · rintro rfl notDeclared previous isPrevious
        exact goes previous child (.here notDeclared isPrevious) inChild
      · exact fun previous other follows inOther =>
          goes previous other (.inMember childIn follows) inOther
    · exact .inside isBlock childIn (ih child childIn inChild
        fun previous other follows inOther =>
          goes previous other (.inside isBlock childIn follows) inOther)

/-- A node is live if, for itself and for each node around it, all that comes
before in one sequence goes on. -/
theorem live_iff (distinct : program.labels.Nodup) :
    Live goesOn inService program node ↔
      node ∈ program.preorder ∧ ∀ previous member,
        Follows inService program previous member → node ∈ member.preorder →
        goesOn previous = true :=
  ⟨fun live => ⟨live.mem_preorder, fun _ _ => live.goesOn_of_follows distinct⟩,
    fun ⟨nodeIn, goes⟩ => .of_goesOn nodeIn goes⟩

end

/-- A block that is drawn through its members only. -/
def isFilledBlock : Program L → Bool
  | .block _ (_ :: _) => true
  | _ => false

/-- Flow that has come to a construct, outside of any service, gets to the node
with this label, which has a figure of its own. -/
def FlowsTo (program : Program L) (label : L) : Prop :=
  ∃ node, Live passes false program node ∧ node.isFilledBlock = false ∧
    node.label = label

namespace FlowsTo

theorem mem_labels {program : Program L} {label : L}
    (flows : program.FlowsTo label) : label ∈ program.labels := by
  obtain ⟨node, live, -, rfl⟩ := flows
  exact List.mem_map.mpr ⟨node, live.mem_preorder, rfl⟩

theorem iff_of_childless {program : Program L} {label : L}
    (childless : program.children = []) :
    program.FlowsTo label ↔ label = program.label := by
  have alone : program.preorder = [program] := by
    rw [preorder_eq, childless, List.flatMap_nil]
  have hasFigure : program.isFilledBlock = false := by
    cases program with
    | block own members =>
        obtain rfl : members = [] := childless
        rfl
    | _ => rfl
  constructor
  · rintro ⟨node, live, -, rfl⟩
    have nodeIn := live.mem_preorder
    rw [alone, List.mem_singleton] at nodeIn
    rw [nodeIn]
  · rintro rfl
    exact ⟨program, .here _ _, hasFigure, rfl⟩

theorem iff_of_ne_block {program : Program L} {label : L}
    (notBlock : program.tag ≠ .block)
    (notService : program.tag ≠ .container .service) :
    program.FlowsTo label ↔
      label = program.label ∨ ∃ child ∈ program.children,
        child.FlowsTo label := by
  have hasFigure : program.isFilledBlock = false := by
    cases program with
    | block => exact absurd rfl notBlock
    | _ => rfl
  simp only [FlowsTo, Live.iff_of_ne_block notBlock, notService, decide_false]
  constructor
  · rintro ⟨node, rfl | ⟨child, childIn, live⟩, isDrawn, rfl⟩
    · exact .inl rfl
    · exact .inr ⟨child, childIn, node, live, isDrawn, rfl⟩
  · rintro (rfl | ⟨child, childIn, node, live, isDrawn, rfl⟩)
    · exact ⟨program, .inl rfl, hasFigure, rfl⟩
    · exact ⟨node, .inr ⟨child, childIn, live⟩, isDrawn, rfl⟩

theorem iff_of_block {own : L} {members : List (Program L)} {label : L}
    (filled : members ≠ []) :
    (block own members).FlowsTo label ↔
      ∃ earlier member later, members = earlier ++ member :: later ∧
        (member.tag.isDeclaration = false →
          ∀ previous ∈ run earlier, previous.passes = true) ∧
        member.FlowsTo label := by
  have isFilled : (block own members).isFilledBlock = true := by
    cases members with
    | nil => exact absurd rfl filled
    | cons => rfl
  simp only [FlowsTo, Live.block_iff, forall_const]
  constructor
  · rintro ⟨node, rfl | ⟨earlier, member, later, rfl, goes, live⟩, isDrawn,
      rfl⟩
    · simp [isFilled] at isDrawn
    · exact ⟨earlier, member, later, rfl, goes, node, live, isDrawn, rfl⟩
  · rintro ⟨earlier, member, later, rfl, goes, node, live, isDrawn, rfl⟩
    exact ⟨node, .inr ⟨earlier, member, later, rfl, goes, live⟩, isDrawn, rfl⟩

end FlowsTo

/-! ## Bodies of services -/

/-- The nodes of the body of a service that no flow begins at, where the body is
not a block with members.  A service in this place still begins the flows that
are in it. -/
def strandedPart (body : Program L) : List (Program L) :=
  if body.isFilledBlock then []
  else if body.tag = .container .service then [body]
  else body.preorder

/-- A node that only flow from the body of a service would get to, where no flow
begins. -/
def Stranded (program node : Program L) : Prop :=
  ∃ label body, .container label .service body ∈ program.preorder ∧
    node ∈ body.strandedPart

theorem mem_preorder_of_mem_strandedPart {body node : Program L}
    (isStranded : node ∈ body.strandedPart) : node ∈ body.preorder := by
  unfold strandedPart at isStranded
  split at isStranded
  · simp at isStranded
  · split at isStranded
    · rw [List.mem_singleton.mp isStranded]
      exact self_mem_preorder _
    · exact isStranded

namespace Stranded

variable {program node : Program L}

theorem of_child {child : Program L} (childIn : child ∈ program.children)
    (stranded : child.Stranded node) : program.Stranded node := by
  obtain ⟨label, body, serviceIn, isStranded⟩ := stranded
  exact ⟨label, body, mem_preorder_of_child childIn serviceIn, isStranded⟩

/-- Flow that has come to a construct begins there. -/
theorem not_root (distinct : program.labels.Nodup) :
    ¬ program.Stranded program := by
  rintro ⟨label, body, serviceIn, isStranded⟩
  have inBody := mem_labels_of_mem_preorder
    (mem_preorder_of_mem_strandedPart isStranded)
  rcases mem_preorder_iff.mp serviceIn with isRoot | ⟨child, childIn, inChild⟩
  · have bodyIn : body ∈ program.children := by
      rw [← isRoot]
      exact List.mem_singleton_self _
    exact label_notMem_of_child distinct bodyIn inBody
  · have bodyIn : body ∈ (container label .service body).children :=
      List.mem_singleton_self _
    have inService : program ∈ (container label .service body).preorder :=
      mem_preorder_of_child bodyIn (mem_preorder_of_mem_strandedPart isStranded)
    exact label_notMem_of_child distinct childIn
      (mem_labels_of_mem_preorder (mem_preorder_trans inChild inService))

/-- Below a child, what is stranded is so in the child, or because the child is
the body of a service. -/
theorem iff_of_child (distinct : program.labels.Nodup) {child : Program L}
    (childIn : child ∈ program.children) (nodeIn : node ∈ child.preorder) :
    program.Stranded node ↔ child.Stranded node ∨
      program.tag = .container .service ∧ node ∈ child.strandedPart := by
  constructor
  · rintro ⟨label, body, serviceIn, isStranded⟩
    have bodyIn : body ∈ (container label .service body).children :=
      List.mem_singleton_self _
    have inBody := mem_preorder_of_mem_strandedPart isStranded
    rcases mem_preorder_iff.mp serviceIn with rfl | ⟨other, otherIn, inOther⟩
    · obtain rfl : child = body := by simpa [children] using childIn
      exact .inr ⟨rfl, isStranded⟩
    · have inOtherChild := mem_preorder_trans inOther
        (mem_preorder_of_child bodyIn inBody)
      obtain rfl := child_eq_of_mem_labels distinct otherIn childIn
        (mem_labels_of_mem_preorder inOtherChild)
        (mem_labels_of_mem_preorder nodeIn)
      exact .inl ⟨label, body, inOther, isStranded⟩
  · rintro (stranded | ⟨isService, isStranded⟩)
    · exact stranded.of_child childIn
    · cases program with
      | container label kind body =>
          obtain rfl : kind = .service := by simpa [tag] using isService
          obtain rfl : child = body := by simpa [children] using childIn
          exact ⟨label, child, self_mem_preorder _, isStranded⟩
      | _ => simp [tag] at isService

end Stranded

/-! ## All of a program -/

/-- Flow that begins in a program gets to a node.  In a program that is the body
of a service, some nodes may be left without. -/
structure Reached (inService : Bool) (program node : Program L) : Prop where
  live : Live passes inService program node
  notStranded : ¬ program.Stranded node
  notBody : inService = true → node ∉ program.strandedPart

namespace Reached

variable {inService : Bool}

theorem iff_of_block {label : L} {members : List (Program L)}
    {node : Program L} (filled : members ≠ [])
    (distinct : (block label members).labels.Nodup) :
    Reached inService (block label members) node ↔
      node = .block label members ∨
        ∃ earlier member later, members = earlier ++ member :: later ∧
          (inService = false → member.tag.isDeclaration = false →
            ∀ previous ∈ run earlier, previous.passes = true) ∧
          Reached false member node := by
  have noPart : (block label members).strandedPart = [] := by
    cases members with
    | nil => exact absurd rfl filled
    | cons => rfl
  constructor
  · rintro ⟨live, notStranded, -⟩
    rcases Live.block_iff.mp live with rfl |
      ⟨earlier, member, later, rfl, goes, inMember⟩
    · exact .inl rfl
    · refine .inr ⟨earlier, member, later, rfl, goes, inMember, ?_, by simp⟩
      exact fun stranded => notStranded (stranded.of_child (by simp [children]))
  · rintro (rfl | ⟨earlier, member, later, rfl, goes, live, notStranded, -⟩)
    · exact ⟨.here _ _, Stranded.not_root distinct, by simp [noPart]⟩
    · refine ⟨.member goes live, fun stranded => ?_, by simp [noPart]⟩
      rw [Stranded.iff_of_child distinct (by simp [children])
        live.mem_preorder] at stranded
      simp [notStranded, tag] at stranded

theorem iff_of_ne_block {program node : Program L}
    (notBlock : program.tag ≠ .block) (distinct : program.labels.Nodup) :
    Reached false program node ↔
      node = program ∨ ∃ child ∈ program.children,
        Reached (program.tag = .container .service) child node := by
  constructor
  · rintro ⟨live, notStranded, -⟩
    rcases (Live.iff_of_ne_block notBlock).mp live with rfl |
      ⟨child, childIn, inChild⟩
    · exact .inl rfl
    · rw [Stranded.iff_of_child distinct childIn inChild.mem_preorder, not_or]
        at notStranded
      refine .inr ⟨child, childIn, inChild, notStranded.1, ?_⟩
      simpa using notStranded.2
  · rintro (rfl | ⟨child, childIn, live, notStranded, notBody⟩)
    · exact ⟨.here _ _, Stranded.not_root distinct, by simp⟩
    · refine ⟨.inside notBlock childIn live, ?_, by simp⟩
      rw [Stranded.iff_of_child distinct childIn live.mem_preorder, not_or]
      exact ⟨notStranded, by simpa using notBody⟩

/-- Nothing is reached in the body of a service that is a single construct. -/
theorem not_of_body {program node : Program L}
    (notFilled : program.isFilledBlock = false)
    (notService : program.tag ≠ .container .service) :
    ¬ Reached true program node := by
  rintro ⟨live, -, notBody⟩
  refine notBody rfl ?_
  rw [strandedPart, notFilled]
  simpa [notService] using live.mem_preorder

/-- A service that is the body of another one begins the flows in it. -/
theorem iff_of_service {label : L} {body node : Program L}
    (distinct : (container label .service body).labels.Nodup) :
    Reached true (container label .service body) node ↔
      Reached true body node := by
  have bodyIn : body ∈ (container label .service body).children :=
    List.mem_singleton_self _
  constructor
  · rintro ⟨live, notStranded, notBody⟩
    have different : node ≠ container label .service body := by
      simpa [strandedPart, isFilledBlock, tag] using notBody
    have reached : Reached false (container label .service body) node :=
      ⟨live.of_ne_block (by simp [tag]), notStranded, by simp⟩
    rcases (iff_of_ne_block (by simp [tag]) distinct).mp reached with rfl |
      ⟨child, childIn, inChild⟩
    · exact absurd rfl different
    · obtain rfl : child = body := by simpa [children] using childIn
      exact inChild
  · intro reached
    have inBody := mem_labels_of_mem_preorder reached.live.mem_preorder
    have outer : Reached false (container label .service body) node :=
      (iff_of_ne_block (by simp [tag]) distinct).mpr
        (.inr ⟨body, bodyIn, reached⟩)
    refine ⟨outer.live.of_ne_block (by simp [tag]), outer.notStranded,
      fun _ isPart => ?_⟩
    obtain rfl : node = container label .service body := by
      simpa [strandedPart, isFilledBlock, tag] using isPart
    exact label_notMem_of_child distinct bodyIn inBody

/-- Whether the nodes of a child are reached is told by the child and by what
comes before it. -/
theorem exists_iff_of_child {program child : Program L} (inService : Bool)
    (distinct : program.labels.Nodup) (childIn : child ∈ program.children) :
    ∃ (entered : Prop) (inner : Bool), ∀ node ∈ child.preorder,
      (Reached inService program node ↔ entered ∧ Reached inner child node) := by
  have notRoot : ∀ node ∈ child.preorder, node ≠ program := by
    rintro node nodeIn rfl
    exact notMem_preorder_of_child distinct childIn nodeIn (self_mem_preorder _)
  by_cases isBlock : program.tag = .block
  · obtain ⟨label, members, rfl⟩ := exists_block_of_tag isBlock
    have filled : members ≠ [] := List.ne_nil_of_mem childIn
    refine ⟨∃ earlier later, members = earlier ++ child :: later ∧
      (inService = false → child.tag.isDeclaration = false →
        ∀ previous ∈ run earlier, previous.passes = true), false,
      fun node nodeIn => ?_⟩
    rw [iff_of_block filled distinct, or_iff_right (notRoot node nodeIn)]
    constructor
    · rintro ⟨earlier, member, later, rfl, goes, reached⟩
      obtain rfl := child_eq_of_mem_preorder distinct childIn
        (show member ∈ earlier ++ member :: later by simp) nodeIn
        reached.live.mem_preorder
      exact ⟨⟨earlier, later, rfl, goes⟩, reached⟩
    · rintro ⟨⟨earlier, later, rfl, goes⟩, reached⟩
      exact ⟨earlier, child, later, rfl, goes, reached⟩
  · have outside : ∀ node ∈ child.preorder,
        (Reached false program node ↔
          True ∧ Reached (program.tag = .container .service) child node) := by
      intro node nodeIn
      rw [iff_of_ne_block isBlock distinct, or_iff_right (notRoot node nodeIn),
        true_and]
      constructor
      · rintro ⟨other, otherIn, reached⟩
        obtain rfl := child_eq_of_mem_preorder distinct childIn otherIn nodeIn
          reached.live.mem_preorder
        exact reached
      · exact fun reached => ⟨child, childIn, reached⟩
    cases inService with
    | false => exact ⟨True, _, outside⟩
    | true =>
        by_cases isService : program.tag = .container .service
        · cases program with
          | container label kind body =>
              obtain rfl : kind = .service := by simpa [tag] using isService
              obtain rfl : child = body := by simpa [children] using childIn
              exact ⟨True, true, fun node _ => by
                rw [iff_of_service distinct, true_and]⟩
          | _ => simp [tag] at isService
        · have notFilled : program.isFilledBlock = false := by
            cases program with
            | block => exact absurd rfl isBlock
            | _ => rfl
          exact ⟨False, false, fun node _ =>
            ⟨fun reached => (not_of_body notFilled isService reached).elim,
              fun entered => entered.1.elim⟩⟩

/-- A block with members is reached together with some of them. -/
theorem iff_of_filled {inService : Bool} {program node : Program L}
    (distinct : program.labels.Nodup) (nodeIn : node ∈ program.preorder)
    (isFilled : node.isFilledBlock = true) :
    Reached inService program node ↔
      ∃ member ∈ node.children, Reached inService program member := by
  induction program using childrenInduction generalizing inService with
  | step program ih =>
    rcases mem_preorder_iff.mp nodeIn with rfl | ⟨child, childIn, inChild⟩
    · cases node with
      | block label members =>
          cases members with
          | nil => simp [isFilledBlock] at isFilled
          | cons first rest =>
              have firstIn : first ∈ (block label (first :: rest)).children :=
                List.mem_cons_self
              have nodup := labels_nodup_of_child distinct firstIn
              refine iff_of_true ?_ ⟨first, firstIn, ?_⟩
              · exact (iff_of_block (by simp) distinct).mpr (.inl rfl)
              · refine (iff_of_block (by simp) distinct).mpr
                  (.inr ⟨[], first, rest, rfl, by simp [run], ?_⟩)
                exact ⟨.here _ _, Stranded.not_root nodup, by simp⟩
      | _ => simp [isFilledBlock] at isFilled
    · obtain ⟨entered, inner, reachedIff⟩ :=
        exists_iff_of_child inService distinct childIn
      have below := @ih child childIn inner
        (labels_nodup_of_child distinct childIn) inChild
      rw [reachedIff node inChild, below]
      constructor
      · rintro ⟨isEntered, member, memberIn, reached⟩
        exact ⟨member, memberIn,
          (reachedIff member reached.live.mem_preorder).mpr
            ⟨isEntered, reached⟩⟩
      · rintro ⟨member, memberIn, reached⟩
        have inChild := mem_preorder_trans inChild (child_mem_preorder memberIn)
        obtain ⟨isEntered, reached⟩ := (reachedIff member inChild).mp reached
        exact ⟨isEntered, member, memberIn, reached⟩

/-- Flow gets to the member of a block around what it gets to. -/
theorem of_inner {program previous member node : Program L}
    (distinct : program.labels.Nodup)
    (follows : Follows false program previous member)
    (inMember : node ∈ member.preorder) (reached : Reached false program node) :
    Reached false program member := by
  refine ⟨?_, fun stranded => reached.notStranded ?_, by simp⟩
  · obtain ⟨-, goes⟩ := (live_iff distinct).mp reached.live
    exact (live_iff distinct).mpr ⟨follows.mem_preorder,
      fun before other before_follows inOther =>
        goes before other before_follows (mem_preorder_trans inOther inMember)⟩
  · obtain ⟨label, body, serviceIn, isStranded⟩ := stranded
    obtain ⟨block, blockIn, isBlock, isMember⟩ := follows.exists_block
    refine ⟨label, body, serviceIn, ?_⟩
    unfold strandedPart at isStranded ⊢
    split at isStranded
    · simp at isStranded
    · split at isStranded
      · rw [List.mem_singleton.mp isStranded] at isMember
        have same := parent_unique distinct serviceIn blockIn
          (List.mem_singleton_self _) isMember
        simp [← same, tag] at isBlock
      · simp_all only [if_false, Bool.false_eq_true]
        exact mem_preorder_trans isStranded inMember

end Reached

end Flowchart.Program
