import Flowchart.Proofs.Route.Constructs

/-!
# Clear ways in every program

Flow does not get from one declaration to another, so a program with declarations
has no channel.  But each of its edges lies in one of them, or in a run of members
between two of them, and has a clear way there.
-/

namespace Flowchart

open Scalar

namespace Program

variable {settings : LayoutSettings Rat} {program : Program (Label Rat)}

/-- Every edge of a program has a clear way where the program is drawn. -/
def IsClear (settings : LayoutSettings Rat) (inService : Bool)
    (program : Program (Label Rat)) : Prop :=
  ∀ origin parent depth,
    ∀ edge ∈ ((program.map Label.id).wire inService).edges,
      Flowchart.IsClear settings
        (Arrangement.place origin parent depth (program.framed settings))
        ((program.framed settings).label.bounds origin) edge

variable (settings) in
theorem wiring_framed (program : Program (Label Rat)) :
    Arrangement.wiring (program.framed settings) =
      (program.map Label.id).wire false := by
  rw [Arrangement.wiring, map_framed]

theorem Flowing.isClear (accepted : settings.Accepted)
    (flowing : program.Flowing) : program.IsClear settings false := by
  intro origin parent depth edge edgeIn
  rw [← wiring_framed settings] at edgeIn
  exact (flowing.channel accepted origin parent depth).edges edge edgeIn

/-- What is clear in a child is clear in the program. -/
theorem IsClear.inside (accepted : settings.Accepted)
    {child : Program (Label Rat)} {inService : Bool}
    (isClear : child.IsClear settings inService) {index : Nat}
    (isChild : (program.framed settings).children[index]? =
      some (child.framed settings)) (origin : Point Rat)
    (parent : Option NodeId) (depth : Nat) :
    ∀ edge ∈ ((child.map Label.id).wire inService).edges,
      Flowchart.IsClear settings
        (Arrangement.place origin parent depth (program.framed settings))
        ((program.framed settings).label.bounds origin) edge :=
  fun edge edgeIn => Arrangement.clear_child (fits_framed accepted program)
    isChild (isClear _ _ _ edge edgeIn)

/-! ## Blocks -/

section Block

variable {label : Label Rat} {members : List (Program (Label Rat))}
  {origin : Point Rat} {parent : Option NodeId} {depth : Nat}

theorem isColumn_framed (filled : members ≠ []) :
    ((block label members).framed settings).label =
      Frame.column label settings.statementSpacing
        (((block label members).framed settings).children.map
          Program.label) := by
  obtain ⟨first, rest, rfl⟩ := List.exists_cons_of_ne_nil filled
  rfl

variable (settings label members origin depth) in
/-- The pieces of a block have the wiring of its members. -/
theorem members_pieces :
    (Arrangement.pieces origin depth
        ((block label members).framed settings)).map Piece.member =
      wireMembers (members.map (map Label.id)) := by
  rw [wireMembers_eq, List.map_map]
  refine List.ext_getElem? fun index => ?_
  rw [List.getElem?_map, Arrangement.pieces_getElem?, children_framed,
    List.getElem?_map, List.getElem?_map, Option.map_map, Option.map_map]
  refine Option.map_congr fun member _ => ?_
  simp [Arrangement.piece, wiring_framed]

/-- A piece of a block is one of its members in its place. -/
theorem exists_of_mem_pieces {piece : Piece}
    (pieceIn : piece ∈ Arrangement.pieces origin depth
      ((block label members).framed settings)) :
    ∃ member ∈ members, ∃ index,
      ((block label members).framed settings).children[index]? =
        some (member.framed settings) ∧
      piece = Arrangement.piece origin depth
        ((block label members).framed settings).label index
        (member.framed settings) := by
  obtain ⟨index, child, isChild, rfl⟩ := Arrangement.mem_pieces.mp pieceIn
  obtain ⟨member, memberIn, rfl⟩ := exists_of_getElem?_framed isChild
  exact ⟨member, memberIn, index, isChild, rfl⟩

variable (accepted : settings.Accepted)

include accepted

/-- The flows that start at each member of a service have nothing in common. -/
theorem clear_separate
    (each : ∀ member ∈ members, member.IsClear settings false) :
    ∀ edge ∈ (Wiring.separate (wireMembers (members.map (map Label.id)))).edges,
      Flowchart.IsClear settings
        (Arrangement.place origin parent depth
          ((block label members).framed settings))
        (((block label members).framed settings).label.bounds origin) edge := by
  intro edge edgeIn
  rw [(separate_eq _).1, List.flatMap_map] at edgeIn
  obtain ⟨member, memberIn, edgeIn⟩ := List.mem_flatMap.mp edgeIn
  obtain ⟨index, isMember⟩ := List.getElem?_of_mem memberIn
  have isChild : ((block label members).framed settings).children[index]? =
      some (member.framed settings) := by
    rw [children_framed, children, List.getElem?_map, isMember]
    rfl
  exact (each member memberIn).inside accepted isChild origin parent depth edge
    edgeIn

/-- Between two declarations flow runs through the members in order. -/
theorem clear_runs (filled : members ≠ [])
    (declared : ∀ member ∈ members, member.tag.isDeclaration = true →
      member.IsClear settings false)
    (flowing : ∀ member ∈ members, member.tag.isDeclaration = false →
      member.Flowing) :
    ∀ edge ∈ (Wiring.runs .nothing []
        (wireMembers (members.map (map Label.id)))).edges,
      Flowchart.IsClear settings
        (Arrangement.place origin parent depth
          ((block label members).framed settings))
        (((block label members).framed settings).label.bounds origin) edge := by
  have fits := fits_framed accepted (block label members)
  have isColumn : ((block label members).framed settings).label = _ :=
    isColumn_framed filled
  have stack := Arrangement.stack_pieces fits accepted.spacing_pos.le isColumn
    origin parent depth
  have noneBefore : ∀ edge ∈ Wiring.nothing.edges, Flowchart.IsClear settings
      (Arrangement.place origin parent depth
        ((block label members).framed settings))
      (((block label members).framed settings).label.bounds origin) edge := by
    simp [Wiring.nothing]
  have noneYet : ∀ piece ∈ ([] : List Piece), piece.Flows settings
      (((block label members).framed settings).label.bounds origin)
      (origin.x + ((block label members).framed settings).label.spine) := by
    simp
  have split : Arrangement.pieces origin depth
      ((block label members).framed settings) = [] ++ [] ++ _ := rfl
  rw [← members_pieces settings label members origin depth]
  refine stack.clear_runs split noneBefore noneYet ?_ ?_
  · intro piece pieceIn isDeclared edge edgeIn
    obtain ⟨member, memberIn, index, isChild, rfl⟩ := exists_of_mem_pieces pieceIn
    have isClear := declared member memberIn
      (by simpa [Arrangement.piece] using isDeclared)
    refine isClear.inside accepted isChild origin parent depth edge ?_
    rw [← wiring_framed settings]
    exact edgeIn
  · intro piece pieceIn notDeclared
    obtain ⟨member, memberIn, index, isChild, rfl⟩ := exists_of_mem_pieces pieceIn
    have isFlowing := flowing member memberIn
      (by simpa [Arrangement.piece] using notDeclared)
    exact Arrangement.flows_piece fits isColumn isChild
      (isFlowing.channel accepted _ _ _)

theorem isClear_block
    (declared : ∀ member ∈ members, member.tag.isDeclaration = true →
      member.IsClear settings false)
    (flowing : ∀ member ∈ members, member.tag.isDeclaration = false →
      member.Flowing) (inService : Bool) :
    (block label members).IsClear settings inService := by
  by_cases filled : members = []
  · subst filled
    intro origin parent depth edge edgeIn
    cases edgeIn
  · have wire_eq := fun inService => wire_block inService label.id
      (by simpa using filled : members.map (map Label.id) ≠ [])
    intro origin parent depth edge edgeIn
    cases inService with
    | true =>
        rw [map, mapMembers_eq, wire_eq, if_pos rfl] at edgeIn
        refine clear_separate accepted (fun member memberIn => ?_) edge edgeIn
        cases isDeclared : member.tag.isDeclaration with
        | true => exact declared member memberIn isDeclared
        | false => exact (flowing member memberIn isDeclared).isClear accepted
    | false =>
        by_cases someDeclared : ∃ member ∈ members,
            member.tag.isDeclaration = true
        · rw [map, mapMembers_eq, wire_eq, if_neg (by simp),
            if_pos (by simpa using someDeclared)] at edgeIn
          exact clear_runs accepted filled declared flowing edge edgeIn
        · have isFlowing : (block label members).Flowing := by
            refine .of_children rfl fun member memberIn =>
              flowing member memberIn ?_
            by_contra isDeclared
            exact someDeclared ⟨member, memberIn, by simpa using isDeclared⟩
          exact isFlowing.isClear accepted origin parent depth edge edgeIn

end Block

/-! ## Declarations -/

/-- Flow through a function begins below its header and ends at its bottom. -/
theorem clear_function (accepted : settings.Accepted)
    {arrangement body : Arrangement Rat} {label : Label Rat} {size : Size Rat}
    {wiring : Wiring} {origin : Point Rat} {parent : Option NodeId} {depth : Nat}
    (fits : arrangement.Fits) (wide : 0 < size.width) (high : 0 < size.height)
    (isFunction : arrangement.label =
      Frame.container label size settings .function body.label)
    (children_eq : arrangement.children = [body])
    (branch : Branch settings arrangement origin depth 0 body wiring) :
    ∀ edge ∈ (Wiring.function arrangement.label.id wiring).edges,
      Flowchart.IsClear settings (arrangement.place origin parent depth)
        (arrangement.label.bounds origin) edge := by
  have gap := accepted.spacing_pos
  have bottom : 0 ≤ settings.padding.bottom := not_lt.mp accepted.bottom
  have headed : arrangement.label.Headed
      (Frame.figureOn arrangement.label.spine settings.padding.top size)
      (arrangement.children.map Program.label)
      (settings.padding.top + size.height + settings.statementSpacing) := by
    rw [isFunction, children_eq]
    exact Frame.headed_container label accepted wide high
      (fits.child_of_getElem? branch.isChild).root.toSound
  have atEnd : arrangement.label.anchors.lookup .exit =
      some ⟨arrangement.label.spine,
        settings.padding.top + size.height + settings.statementSpacing +
          body.label.size.height + settings.statementSpacing⟩ := by
    rw [isFunction]
    rfl
  have height_eq : arrangement.label.size.height =
      settings.padding.top + size.height + settings.statementSpacing +
        body.label.size.height + settings.statementSpacing +
        settings.padding.bottom := by
    rw [isFunction]
    rfl
  have bodyAbove : ∀ child ∈ arrangement.children,
      settings.padding.top + size.height + settings.statementSpacing +
          child.label.size.height ≤
        settings.padding.top + size.height + settings.statementSpacing +
          body.label.size.height + settings.statementSpacing := by
    intro child childIn
    rw [children_eq] at childIn
    obtain rfl := List.mem_singleton.mp childIn
    linarith
  intro edge edgeIn
  rw [Wiring.function, List.mem_append, List.mem_append] at edgeIn
  rcases edgeIn with (inner | enters) | closes
  · exact branch.inner fits edge inner
  · refine branch.enters fits headed rfl rfl ?_ edge enters
    rw [isFunction]
    rfl
  · exact branch.joins fits headed (.inr rfl) atEnd fits.root.spine_nonneg
      fits.root.spine_le (by linarith) bodyAbove edge closes

theorem isClear_function (accepted : settings.Accepted) {label : Label Rat}
    {body : Program (Label Rat)} (flowing : body.Flowing) :
    (container label .function body).IsClear settings false := by
  have fits := fits_framed accepted (container label .function body)
  obtain ⟨wide, high⟩ :=
    accepted.figureSize_pos (.container .function) label
  intro origin parent depth edge edgeIn
  rw [map, wire, ← wiring_framed settings] at edgeIn
  exact clear_function accepted fits wide high rfl rfl
    ⟨rfl, flowing.channel accepted _ _ _⟩ edge edgeIn

theorem isClear_service (accepted : settings.Accepted) {label : Label Rat}
    {body : Program (Label Rat)} (isClear : body.IsClear settings true)
    (inService : Bool) :
    (container label .service body).IsClear settings inService := by
  have isChild : ((container label .service body).framed settings).children[0]? =
      some (body.framed settings) := rfl
  intro origin parent depth
  exact isClear.inside accepted isChild origin parent depth

/-- Every edge of a program that may stand at the root has a clear way. -/
theorem Outer.isClear (accepted : settings.Accepted) (outer : program.Outer)
    (inService : Bool) : program.IsClear settings inService := by
  induction outer generalizing inService with
  | typeDefinition label =>
      intro origin parent depth edge edgeIn
      cases edgeIn
  | function label flowing => exact isClear_function accepted flowing
  | service label _ ih => exact isClear_service accepted (ih true) inService
  | block label declared flowing ih =>
      refine isClear_block accepted (fun member memberIn isDeclared =>
        ih member memberIn isDeclared false) flowing inService
  | @flowing program isFlowing =>
      cases program with
      | block label members =>
          refine isClear_block accepted (fun member memberIn isDeclared => ?_)
            (fun member memberIn _ => isFlowing.child memberIn) inService
          rw [(isFlowing.child memberIn).root] at isDeclared
          cases isDeclared
      | container label kind body =>
          exact absurd isFlowing.root (by simp [tag, Tag.isDeclaration])
      | decision label consequent alternative =>
          cases alternative <;> exact isFlowing.isClear accepted
      | _ => exact isFlowing.isClear accepted

end Program

end Flowchart
