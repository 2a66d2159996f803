import Flowchart.Proofs.Route.Channel

/-!
# Blocks as stacks of pieces

The members of a block stand one below the other over its spine.  A run of them
without a declaration makes one channel, and so does the whole block where nothing
is declared in it.
-/

namespace Flowchart

open Scalar

/-! ## Stacks -/

/-- Flow passes a piece on the line of the block that it stands in. -/
def Piece.Flows (settings : LayoutSettings Rat) (bounds : Rect Rat) (line : Rat)
    (piece : Piece) : Prop :=
  Channel settings piece.nodes
    ⟨bounds.minX, piece.top, bounds.maxX, piece.bottom⟩ line piece.wiring

/-- All figures among some nodes lie in pieces that stand one below the other. -/
structure Stack (nodes : List (DiagramNode Rat)) (bounds : Rect Rat)
    (pieces : List Piece) : Prop where
  ordered : Piece.Ordered pieces
  inside : ∀ piece ∈ pieces,
    bounds.minY ≤ piece.top ∧ piece.bottom ≤ bounds.maxY
  figures : ∀ piece ∈ pieces, Figures piece.nodes
    (Rect.Inside · ⟨bounds.minX, piece.top, bounds.maxX, piece.bottom⟩)
  subset : ∀ piece ∈ pieces, piece.nodes ⊆ nodes
  bare : ∀ node ∈ nodes,
    node ∈ pieces.flatMap Piece.nodes ∨ node.figure = none

namespace Stack

variable {settings : LayoutSettings Rat} {nodes : List (DiagramNode Rat)}
  {bounds : Rect Rat} {line : Rat} {pieces earlier run later : List Piece}

/-- Whatever lies above or below a run is apart from it. -/
theorem around_run (stack : Stack nodes bounds pieces)
    (split : pieces = earlier ++ run ++ later) {first last : Piece}
    (isFirst : first ∈ run) (isLast : last ∈ run) :
    ∀ node ∈ nodes, node ∈ run.flatMap Piece.nodes ∨
      ∀ figure, node.figure = some figure → figure.Apart
        ⟨bounds.minX, first.top, bounds.maxX, last.bottom⟩ := by
  have ordered := stack.ordered
  rw [split, Piece.Ordered, List.pairwise_append, List.pairwise_append] at ordered
  obtain ⟨⟨-, -, afterEarlier⟩, -, beforeLater⟩ := ordered
  intro node nodeIn
  rcases stack.bare node nodeIn with inPieces | isBare
  · obtain ⟨piece, pieceIn, inPiece⟩ := List.mem_flatMap.mp inPieces
    have figures := stack.figures piece pieceIn node inPiece
    rw [split, List.mem_append, List.mem_append] at pieceIn
    rcases pieceIn with (inEarlier | inRun) | inLater
    · refine .inr fun figure isFigure => .inr (.inr (.inl ?_))
      obtain ⟨-, -, -, above⟩ := figures figure isFigure
      exact above.trans (afterEarlier piece inEarlier first isFirst)
    · exact .inl (List.mem_flatMap.mpr ⟨piece, inRun, inPiece⟩)
    · refine .inr fun figure isFigure => .inr (.inr (.inr ?_))
      obtain ⟨-, -, below, -⟩ := figures figure isFigure
      exact (beforeLater last (List.mem_append_right _ isLast) piece
        inLater).trans below
  · refine .inr fun figure isFigure => ?_
    rw [isBare] at isFigure
    cases isFigure

theorem clear_run (stack : Stack nodes bounds pieces)
    (split : pieces = earlier ++ run ++ later)
    (flows : ∀ piece ∈ run, piece.Flows settings bounds line) :
    ∀ edge ∈ (Wiring.chain (run.map Piece.wiring)).edges,
      IsClear settings nodes bounds edge := by
  cases isRun : run with
  | nil =>
      intro edge edgeIn
      cases edgeIn
  | cons first rest =>
      have filled : run ≠ [] := by simp [isRun]
      have firstIn : first ∈ run := by simp [isRun]
      have lastIn := List.getLast_mem filled
      have inPieces : ∀ piece ∈ run, piece ∈ pieces := by
        intro piece pieceIn
        rw [split]
        exact List.mem_append_left _ (List.mem_append_right _ pieceIn)
      have ordered : Piece.Ordered run := by
        have all := stack.ordered
        rw [split, Piece.Ordered, List.pairwise_append,
          List.pairwise_append] at all
        exact all.1.2.1
      have channel := Channel.chain flows ordered
        (by rw [isRun]; rfl) (List.getLast?_eq_some_getLast filled)
      rw [← isRun]
      intro edge edgeIn
      refine (channel.edges edge edgeIn).mono ?_ ?_
        (stack.around_run split firstIn lastIn)
      · intro node nodeIn
        obtain ⟨piece, pieceIn, inPiece⟩ := List.mem_flatMap.mp nodeIn
        exact stack.subset piece (inPieces piece pieceIn) inPiece
      · exact ⟨le_refl _, le_refl _, (stack.inside first (inPieces _ firstIn)).1,
          (stack.inside _ (inPieces _ lastIn)).2⟩

/-- Every run between two declarations is clear, given what comes before the
run that is being collected. -/
theorem clear_runs (stack : Stack nodes bounds pieces) {rest : List Piece}
    (split : pieces = earlier ++ run ++ rest) {before : Wiring}
    (clearBefore : ∀ edge ∈ before.edges, IsClear settings nodes bounds edge)
    (flows : ∀ piece ∈ run, piece.Flows settings bounds line)
    (declared : ∀ piece ∈ rest, piece.member.1.isDeclaration = true →
      ∀ edge ∈ piece.wiring.edges, IsClear settings nodes bounds edge)
    (flowing : ∀ piece ∈ rest, piece.member.1.isDeclaration = false →
      piece.Flows settings bounds line) :
    ∀ edge ∈ (Wiring.runs before (run.map Piece.wiring)
      (rest.map Piece.member)).edges, IsClear settings nodes bounds edge := by
  induction rest generalizing earlier run before with
  | nil =>
      intro edge edgeIn
      rcases List.mem_append.mp edgeIn with inBefore | inRun
      · exact clearBefore edge inBefore
      · exact stack.clear_run split flows edge inRun
  | cons piece rest ih =>
      have declaredRest := fun other otherIn =>
        declared other (List.mem_cons_of_mem _ otherIn)
      have flowingRest := fun other otherIn =>
        flowing other (List.mem_cons_of_mem _ otherIn)
      rw [List.map_cons, Wiring.runs]
      cases isDeclared : piece.member.1.isDeclaration with
      | true =>
          rw [if_pos rfl]
          have splitAfter : pieces = earlier ++ run ++ [piece] ++ [] ++ rest := by
            simpa using split
          refine ih splitAfter ?_ (by simp) declaredRest flowingRest
          intro edge edgeIn
          rcases List.mem_append.mp edgeIn with inFront | inPiece
          · rcases List.mem_append.mp inFront with inFront | inMark
            · rcases List.mem_append.mp inFront with inBefore | inRun
              · exact clearBefore edge inBefore
              · exact stack.clear_run split flows edge inRun
            · cases inMark
          · exact declared piece List.mem_cons_self isDeclared edge inPiece
      | false =>
          rw [if_neg (by simp)]
          have splitAfter : pieces = earlier ++ (run ++ [piece]) ++ rest := by
            simpa using split
          have longer := ih splitAfter clearBefore
          rw [List.map_append] at longer
          refine longer (fun other otherIn => ?_) declaredRest flowingRest
          rcases List.mem_append.mp otherIn with inRun | isLast
          · exact flows other inRun
          · obtain rfl := List.mem_singleton.mp isLast
            exact flowing other List.mem_cons_self isDeclared

end Stack

/-! ## Members of a block -/

namespace Arrangement

/-- The wiring of a construct whose nodes are measured. -/
def wiring (arrangement : Arrangement Rat) : Wiring :=
  (arrangement.map Frame.id).wire false

/-- The child at a place, and its wiring. -/
def piece (origin : Point Rat) (depth : Nat) (frame : Frame Rat) (index : Nat)
    (child : Arrangement Rat) : Piece where
  nodes := place (childOrigin origin frame index) (some frame.id) (depth + 1) child
  top := (child.label.bounds (childOrigin origin frame index)).minY
  bottom := (child.label.bounds (childOrigin origin frame index)).maxY
  member := (child.tag, child.label.id, wiring child)

/-- The members of a block in their places. -/
def pieces (origin : Point Rat) (depth : Nat) (arrangement : Arrangement Rat) :
    List Piece :=
  arrangement.children.mapIdx (piece origin depth arrangement.label)

variable {settings : LayoutSettings Rat} {arrangement : Arrangement Rat}
  {origin : Point Rat} {parent : Option NodeId} {depth : Nat}

theorem pieces_getElem? (index : Nat) :
    (pieces origin depth arrangement)[index]? =
      (arrangement.children[index]?).map
        (piece origin depth arrangement.label index) :=
  List.getElem?_mapIdx

@[simp]
theorem length_pieces :
    (pieces origin depth arrangement).length = arrangement.children.length :=
  List.length_mapIdx

theorem wirings_pieces :
    (pieces origin depth arrangement).map Piece.wiring =
      arrangement.children.map wiring := by
  refine List.ext_getElem? fun index => ?_
  rw [List.getElem?_map, pieces_getElem?, List.getElem?_map, Option.map_map]
  rfl

theorem mem_pieces {member : Piece} :
    member ∈ pieces origin depth arrangement ↔
      ∃ (index : Nat) (child : Arrangement Rat),
        arrangement.children[index]? = some child ∧
        member = piece origin depth arrangement.label index child := by
  rw [List.mem_iff_getElem?]
  simp only [pieces_getElem?, Option.map_eq_some_iff]
  refine exists_congr fun index => exists_congr fun child => ?_
  rw [eq_comm (a := member)]

/-- All nodes of a block are its own one and those of the pieces. -/
theorem mem_place_pieces {node : DiagramNode Rat} :
    node ∈ place origin parent depth arrangement ↔
      node = nodeAt origin parent depth arrangement.tag arrangement.label ∨
        node ∈ (pieces origin depth arrangement).flatMap Piece.nodes := by
  rw [mem_place, List.mem_flatMap]
  refine or_congr_right ⟨fun inChild => ?_, fun inPiece => ?_⟩
  · obtain ⟨index, child, isChild, inChild⟩ := inChild
    exact ⟨_, mem_pieces.mpr ⟨index, child, isChild, rfl⟩, inChild⟩
  · obtain ⟨member, memberIn, inMember⟩ := inPiece
    obtain ⟨index, child, isChild, rfl⟩ := mem_pieces.mp memberIn
    exact ⟨index, child, isChild, inMember⟩

section Column

variable {label : Label Rat} {gap : Rat} (fits : arrangement.Fits)
  (gapped : 0 ≤ gap)
  (isColumn : arrangement.label =
    Frame.column label gap (arrangement.children.map Program.label))

include isColumn

/-- Where the top of a member lies. -/
theorem top_piece (origin : Point Rat) {index : Nat} {child : Arrangement Rat}
    (isChild : arrangement.children[index]? = some child) :
    ∃ top, (Frame.memberTops gap
        (arrangement.children.map Program.label))[index]? = some top ∧
      childOrigin origin arrangement.label index =
        ⟨origin.x + (arrangement.label.spine - child.label.spine),
          origin.y + top⟩ := by
  obtain ⟨top, isTop, offset_eq⟩ :=
    Frame.column_offset gap label (frame_getElem? isChild)
  refine ⟨top, isTop, ?_⟩
  rw [childOrigin_eq, isColumn, offset_eq]
  rfl

/-- All members have their spines on the one of the block. -/
theorem line_piece (origin : Point Rat) {index : Nat} {child : Arrangement Rat}
    (isChild : arrangement.children[index]? = some child) :
    (childOrigin origin arrangement.label index).x + child.label.spine =
      origin.x + arrangement.label.spine := by
  obtain ⟨top, -, corner_eq⟩ := top_piece isColumn origin isChild
  rw [corner_eq]
  ring

include fits gapped

theorem ordered_pieces : Piece.Ordered (pieces origin depth arrangement) := by
  have heights : ∀ height ∈ (arrangement.children.map Program.label).map
      (fun frame => frame.size.height), 0 ≤ height := by
    intro height heightIn
    obtain ⟨frame, frameIn, rfl⟩ := List.mem_map.mp heightIn
    obtain ⟨child, childIn, rfl⟩ := List.mem_map.mp frameIn
    exact (fits.child childIn).root.height_nonneg
  rw [Piece.Ordered, List.pairwise_iff_getElem]
  intro index later inside insideLater isBefore
  have isPiece := List.getElem?_eq_getElem inside
  have isNext := List.getElem?_eq_getElem insideLater
  rw [pieces_getElem?, Option.map_eq_some_iff] at isPiece isNext
  obtain ⟨child, isChild, piece_eq⟩ := isPiece
  obtain ⟨next, isNextChild, next_eq⟩ := isNext
  obtain ⟨top, isTop, corner_eq⟩ := top_piece isColumn origin isChild
  obtain ⟨nextTop, isNextTop, nextCorner_eq⟩ :=
    top_piece isColumn origin isNextChild
  have ordered := tiles_ordered gapped heights isBefore isTop
    (by rw [List.getElem?_map, frame_getElem? isChild]; rfl) isNextTop
  rw [← piece_eq, ← next_eq]
  simp only [piece, Frame.bounds, Rect.ofTopLeft, corner_eq, nextCorner_eq]
  linarith

/-- The members of a block make a stack in it. -/
theorem stack_pieces (origin : Point Rat) (parent : Option NodeId)
    (depth : Nat) :
    Stack (place origin parent depth arrangement)
      (arrangement.label.bounds origin) (pieces origin depth arrangement) where
  ordered := ordered_pieces fits gapped isColumn
  inside := by
    intro member memberIn
    obtain ⟨index, child, isChild, rfl⟩ := mem_pieces.mp memberIn
    obtain ⟨-, -, above, below⟩ := child_inside fits isChild origin
    exact ⟨above, below⟩
  figures := by
    intro member memberIn node nodeIn figure isFigure
    obtain ⟨index, child, isChild, rfl⟩ := mem_pieces.mp memberIn
    have within := figures_inside (fits.child_of_getElem? isChild) _ _ _ node
      nodeIn figure isFigure
    obtain ⟨left, right, -, -⟩ := child_inside fits isChild origin
    exact ⟨left.trans within.1, within.2.1.trans right, within.2.2⟩
  subset := by
    intro member memberIn node nodeIn
    exact mem_place_pieces.mpr
      (.inr (List.mem_flatMap.mpr ⟨member, memberIn, nodeIn⟩))
  bare := by
    intro node nodeIn
    rcases mem_place_pieces.mp nodeIn with rfl | inPieces
    · right
      rw [nodeAt, isColumn]
      rfl
    · exact .inl inPieces

omit gapped in
/-- A member with a channel through it lets flow pass on the spine of the
block. -/
theorem flows_piece {index : Nat} {child : Arrangement Rat}
    (isChild : arrangement.children[index]? = some child)
    (channel : Channel settings
      (place (childOrigin origin arrangement.label index)
        (some arrangement.label.id) (depth + 1) child)
      (child.label.bounds (childOrigin origin arrangement.label index))
      ((childOrigin origin arrangement.label index).x + child.label.spine)
      (wiring child)) :
    (piece origin depth arrangement.label index child).Flows settings
      (arrangement.label.bounds origin)
      (origin.x + arrangement.label.spine) := by
  obtain ⟨left, right, -, -⟩ := child_inside fits isChild origin
  rw [line_piece isColumn origin isChild] at channel
  exact channel.widen left right (List.Subset.refl _) fun _ => .inl

omit fits gapped in
theorem first_top (origin : Point Rat) (depth : Nat) {child : Arrangement Rat}
    (isChild : arrangement.children[0]? = some child) :
    (piece origin depth arrangement.label 0 child).top =
      (arrangement.label.bounds origin).minY := by
  obtain ⟨top, isTop, corner_eq⟩ := top_piece isColumn origin isChild
  obtain ⟨first, rest, children_eq⟩ : ∃ first rest,
      arrangement.children = first :: rest :=
    List.exists_cons_of_ne_nil fun empty => by simp [empty] at isChild
  rw [children_eq] at isTop
  obtain rfl : 0 = top := by simpa [Frame.memberTops, tiles] using isTop
  simp [piece, Frame.bounds, Rect.ofTopLeft, corner_eq]

theorem last_bottom (origin : Point Rat) (depth : Nat)
    {child : Arrangement Rat}
    (isChild : arrangement.children[arrangement.children.length - 1]? =
      some child) :
    (piece origin depth arrangement.label (arrangement.children.length - 1)
      child).bottom = (arrangement.label.bounds origin).maxY := by
  obtain ⟨top, isTop, corner_eq⟩ := top_piece isColumn origin isChild
  have filled : arrangement.children.map Program.label ≠ [] := by
    intro empty
    rw [List.map_eq_nil_iff] at empty
    simp [empty] at isChild
  have height_eq := Frame.column_height label gapped filled fun frame frameIn => by
    obtain ⟨member, memberIn, rfl⟩ := List.mem_map.mp frameIn
    exact (fits.child memberIn).root.toSound
  have isLast : ((arrangement.children.map Program.label).map
      fun frame => frame.size.height).getLast? = some child.label.size.height := by
    simp [List.getLast?_eq_getElem?, isChild]
  have isLastTop : (Frame.memberTops gap
      (arrangement.children.map Program.label)).getLast? = some top := by
    simpa [List.getLast?_eq_getElem?, Frame.memberTops] using isTop
  have ends := tiles_last isLastTop isLast
  rw [← isColumn] at height_eq
  simp only [piece, Frame.bounds, Rect.ofTopLeft, corner_eq, height_eq]
  linarith

/-- A block in which nothing is declared makes one channel. -/
theorem channel_pieces (filled : arrangement.children ≠ [])
    (flows : ∀ member ∈ pieces origin depth arrangement,
      member.Flows settings (arrangement.label.bounds origin)
        (origin.x + arrangement.label.spine)) :
    Channel settings (place origin parent depth arrangement)
      (arrangement.label.bounds origin) (origin.x + arrangement.label.spine)
      (.chain (arrangement.children.map wiring)) := by
  have stack := stack_pieces fits gapped isColumn origin parent depth
  have isFirst := List.head?_eq_some_head filled
  have isLast := List.getLast?_eq_some_getLast filled
  rw [List.head?_eq_getElem?] at isFirst
  rw [List.getLast?_eq_getElem?] at isLast
  have chain := Channel.chain flows stack.ordered
    (by rw [List.head?_eq_getElem?, pieces_getElem?, isFirst]; rfl)
    (by rw [List.getLast?_eq_getElem?, length_pieces, pieces_getElem?, isLast]; rfl)
  rw [wirings_pieces] at chain
  have top_eq := first_top isColumn origin depth isFirst
  have bottom_eq := last_bottom fits gapped isColumn origin depth isLast
  rw [top_eq, bottom_eq] at chain
  refine chain.widen (le_refl _) (le_refl _) (fun node nodeIn => ?_) stack.bare
  exact mem_place_pieces.mpr (.inr nodeIn)

end Column

end Arrangement

end Flowchart
