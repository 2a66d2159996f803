import Flowchart.Proofs.Outline.Completeness
import Flowchart.Proofs.Program.Structure

/-!
# Outlines that are continued

A text may go on in a new line.  The line ends every word, name, number and
comment, so that whatever is written at the front of a text is written at the
front of the longer one; only the places of names, which are told by what follows
them, are others.  An outline and then another outline are one outline, of the
items of both.
-/

namespace Flowchart

namespace Outline

/-! ## What is written, with more text behind it -/

/-- The same name where more text follows. -/
def Name.before (more : List Char) (name : Name) : Name :=
  ⟨name.text, name.bytesAfter + byteCount more⟩

/-- The same attributes where more text follows. -/
def Attributes.before (more : List Char) (given : Attributes) : Attributes :=
  ⟨given.name.map (Name.before more), given.hint⟩

/-- The same text and attributes where more text follows. -/
def Written.before (more : List Char) (written : Written) : Written :=
  ⟨written.name.map (Name.before more), written.text, written.hint⟩

/-- The same part of an outline with what is written in it changed. -/
def Phrase.map (change : Written → Written) : Phrase → Phrase
  | .items members => .items (Program.mapMembers change members)
  | .item program => .item (program.map change)
  | .decision program => .decision (program.map change)
  | .elsePart other => .elsePart (other.map (Program.map change))
  | .alternative program => .alternative (program.map change)
  | .arms bodies => .arms (Program.mapArms change bodies)
  | .body members => .body (Program.mapMembers change members)

theorem byteCount_append (text more : List Char) :
    byteCount (text ++ more) = byteCount text + byteCount more := by
  have fromStart : ∀ start,
      more.foldl (fun count c => count + c.utf8Size) start =
        start + byteCount more := by
    intro start
    unfold byteCount
    induction more generalizing start with
    | nil => rfl
    | cons c rest ih =>
        rw [List.foldl_cons, List.foldl_cons, ih, ih (0 + c.utf8Size)]
        omega
  rw [byteCount, List.foldl_append, fromStart]
  rfl

/-! ## Words and marks -/

section

variable {input rest : List Char} (more : List Char)

theorem EndsRun.newline {inRun : Char → Bool} (ends : EndsRun inRun rest)
    (stops : inRun '\n' = false) : EndsRun inRun (rest ++ '\n' :: more) := by
  intro c isHead
  cases rest with
  | nil =>
      obtain rfl := Option.some.inj isHead
      exact stops
  | cons first others => exact ends c isHead

theorem IsRun.newline {inRun : Char → Bool} {text : List Char}
    (isRun : IsRun inRun text rest) (stops : inRun '\n' = false) :
    IsRun inRun text (rest ++ '\n' :: more) :=
  ⟨isRun.nonempty, isRun.all, isRun.ends.newline more stops⟩

theorem Blanks.newline (blanks : Blanks input rest) :
    Blanks (input ++ '\n' :: more) (rest ++ '\n' :: more) := by
  induction blanks with
  | nothing text => exact .nothing _
  | blank isBlank _ ih => exact .blank isBlank ih
  | @comment line text rest inLine atEnd _ ih =>
      rw [List.cons_append, List.cons_append, List.append_assoc]
      refine .comment inLine (fun c isHead => ?_) ih
      -- A comment that went on to the end of the text now ends at the new line.
      cases text with
      | nil => exact (Option.some.inj isHead).symm
      | cons first others => exact atEnd c isHead

theorem Blanks.trans {middle : List Char} (first : Blanks input middle)
    (second : Blanks middle rest) : Blanks input rest := by
  induction first with
  | nothing text => exact second
  | blank isBlank _ ih => exact .blank isBlank (ih second)
  | comment inLine atEnd _ ih => exact .comment inLine atEnd (ih second)

/-- With the new line all that is left before it is passed over. -/
theorem Blanks.to_more (blanks : Blanks input []) :
    Blanks (input ++ '\n' :: more) more :=
  (blanks.newline more).trans (.blank rfl (.nothing more))

theorem Mark.newline {mark : Char} (isMark : Mark mark input rest) :
    Mark mark (input ++ '\n' :: more) (rest ++ '\n' :: more) :=
  Blanks.newline more isMark

theorem Word.newline {word : String} (isWritten : Word word input rest) :
    Word word (input ++ '\n' :: more) (rest ++ '\n' :: more) := by
  refine ⟨?_, isWritten.2.newline more rfl⟩
  rw [← List.append_assoc]
  exact isWritten.1.newline more

/-! ## Quoted texts and attributes -/

theorem Content.newline {text : List Char} (content : Content text input rest) :
    Content text (input ++ '\n' :: more) (rest ++ '\n' :: more) := by
  induction content with
  | closed rest => exact .closed _
  | escape isEscape _ ih => exact .escape isEscape ih
  | plain isPlain _ ih => exact .plain isPlain ih

theorem Quotation.newline {text : String} (quotation : Quotation text input rest) :
    Quotation text (input ++ '\n' :: more) (rest ++ '\n' :: more) := by
  cases quotation with
  | quoted opens content =>
      exact .quoted (opens.newline more) (content.newline more)

theorem NamePart.newline {name : Option Name} (part : NamePart name input rest) :
    NamePart (name.map (Name.before ('\n' :: more))) (input ++ '\n' :: more)
      (rest ++ '\n' :: more) := by
  cases part with
  | nothing => exact .nothing _
  | name isMark isRun =>
      have marked := isMark.newline more
      rw [List.append_assoc] at marked
      have named := NamePart.name marked (isRun.newline more rfl)
      rw [byteCount_append] at named
      exact named

theorem Measure.newline {value : Float32} (measure : Measure value input rest) :
    Measure value (input ++ '\n' :: more) (rest ++ '\n' :: more) := by
  cases measure with
  | number blanks isRun isNumber finite notNegative =>
      have skipped := blanks.newline more
      rw [List.append_assoc] at skipped
      exact .number skipped (isRun.newline more rfl) isNumber finite notNegative

theorem Dimension.newline {along : Axis × Float32}
    (dimension : Dimension along input rest) :
    Dimension along (input ++ '\n' :: more) (rest ++ '\n' :: more) := by
  cases dimension with
  | along isWord isMark measure =>
      exact .along (isWord.newline more) (isMark.newline more)
        (measure.newline more)

theorem Dimensions.newline {dimensions : List (Axis × Float32)}
    (areWritten : Dimensions dimensions input rest) :
    Dimensions dimensions (input ++ '\n' :: more) (rest ++ '\n' :: more) := by
  induction areWritten with
  | single first => exact .single (first.newline more)
  | more first isMark _ ih =>
      exact .more (first.newline more) (isMark.newline more) ih

theorem SizePart.newline {hint : Option (Size Float32)}
    (part : SizePart hint input rest) :
    SizePart hint (input ++ '\n' :: more) (rest ++ '\n' :: more) := by
  cases part with
  | nothing => exact .nothing _
  | size opens dimensions closes =>
      exact .size (opens.newline more) (dimensions.newline more)
        (closes.newline more)

theorem Given.newline {given : Attributes} (isGiven : Given given input rest) :
    Given (given.before ('\n' :: more)) (input ++ '\n' :: more)
      (rest ++ '\n' :: more) := by
  cases isGiven with
  | both namePart sizePart =>
      exact .both (namePart.newline more) (sizePart.newline more)

/-! ## Items -/

/-- What is written at the front of a text is written at the front of a longer
one. -/
theorem Derives.newline {phrase : Phrase} (derives : Derives phrase input rest) :
    Derives (phrase.map (Written.before ('\n' :: more)))
      (input ++ '\n' :: more) (rest ++ '\n' :: more) := by
  induction derives with
  | noItems => exact .noItems _
  | items _ _ isItem areItems => exact .items isItem areItems
  | statement isWord quotation isGiven ends =>
      exact .statement (isWord.newline more) (quotation.newline more)
        (isGiven.newline more) (ends.newline more)
  | result isWord quotation isGiven ends =>
      exact .result (isWord.newline more) (quotation.newline more)
        (isGiven.newline more) (ends.newline more)
  | emptyResult isWord isGiven ends =>
      exact .emptyResult (isWord.newline more) (isGiven.newline more)
        (ends.newline more)
  | typeDefinition isWord quotation isGiven ends =>
      exact .typeDefinition (isWord.newline more) (quotation.newline more)
        (isGiven.newline more) (ends.newline more)
  | decisionItem _ ih => exact .decisionItem ih
  | selection isWord quotation isGiven opens _ closes areArms =>
      exact .selection (isWord.newline more) (quotation.newline more)
        (isGiven.newline more) (opens.newline more) areArms (closes.newline more)
  | loop isWord quotation isGiven _ isBody =>
      exact .loop (isWord.newline more) (quotation.newline more)
        (isGiven.newline more) isBody
  | container isWord quotation isGiven _ isBody =>
      exact .container (isWord.newline more) (quotation.newline more)
        (isGiven.newline more) isBody
  | block isWord isGiven _ isBody =>
      exact .block (isWord.newline more) (isGiven.newline more) isBody
  | bareBlock _ isBody => exact .bareBlock isBody
  | @decision _ _ _ alternative _ _ _ _ _ _ isWord quotation isGiven _ _ isBody
      isElse =>
      have isDecision := Derives.decision (isWord.newline more)
        (quotation.newline more) (isGiven.newline more) isBody isElse
      cases alternative with
      | none => exact isDecision
      | some alternative => exact isDecision
  | noElse => exact .noElse _
  | elsePart isWord _ isAlternative =>
      exact .elsePart (isWord.newline more) isAlternative
  | elseDecision _ isDecision => exact .elseDecision isDecision
  | elseBlock isGiven _ isBody => exact .elseBlock (isGiven.newline more) isBody
  | noArms => exact .noArms _
  | arms isWord quotation isGiven _ _ isBody areArms =>
      exact .arms (isWord.newline more) (quotation.newline more)
        (isGiven.newline more) isBody areArms
  | body opens _ closes areItems =>
      exact .body (opens.newline more) areItems (closes.newline more)

end

/-! ## One outline after another -/

section

variable {start input rest : List Char}

theorem Mark.after {mark : Char} (isMark : Mark mark input rest)
    (blanks : Blanks start input) : Mark mark start rest :=
  blanks.trans isMark

theorem Word.after {word : String} (isWritten : Word word input rest)
    (blanks : Blanks start input) : Word word start rest :=
  ⟨blanks.trans isWritten.1, isWritten.2⟩

/-- Blanks may stand before an item. -/
theorem Derives.item_after {found : Item}
    (isItem : Derives (.item found) input rest) (blanks : Blanks start input) :
    Derives (.item found) start rest := by
  cases isItem with
  | statement isWord quotation isGiven ends =>
      exact .statement (isWord.after blanks) quotation isGiven ends
  | result isWord quotation isGiven ends =>
      exact .result (isWord.after blanks) quotation isGiven ends
  | emptyResult isWord isGiven ends =>
      exact .emptyResult (isWord.after blanks) isGiven ends
  | typeDefinition isWord quotation isGiven ends =>
      exact .typeDefinition (isWord.after blanks) quotation isGiven ends
  | decisionItem isDecision =>
      cases isDecision with
      | decision isWord quotation isGiven isBody isElse =>
          exact .decisionItem (.decision (isWord.after blanks) quotation isGiven
            isBody isElse)
  | selection isWord quotation isGiven opens areArms closes =>
      exact .selection (isWord.after blanks) quotation isGiven opens areArms closes
  | loop isWord quotation isGiven isBody =>
      exact .loop (isWord.after blanks) quotation isGiven isBody
  | container isWord quotation isGiven isBody =>
      exact .container (isWord.after blanks) quotation isGiven isBody
  | block isWord isGiven isBody =>
      exact .block (isWord.after blanks) isGiven isBody
  | bareBlock isBody =>
      cases isBody with
      | body opens areItems closes =>
          exact .bareBlock (.body (opens.after blanks) areItems closes)

/-- Blanks may stand before an outline. -/
theorem IsOutline.after {members : List Item} (isOutline : IsOutline input members)
    (blanks : Blanks start input) : IsOutline start members := by
  obtain ⟨rest, areItems, ends⟩ := isOutline
  cases areItems with
  | noItems => exact ⟨start, .noItems start, blanks.trans ends⟩
  | items isItem areItems =>
      exact ⟨rest, .items (isItem.item_after blanks) areItems, ends⟩

/-- Items and then an outline are one outline. -/
theorem Derives.outline_append {members others : List Item}
    (areItems : Derives (.items members) input rest)
    (isOutline : IsOutline rest others) : IsOutline input (members ++ others) := by
  induction members generalizing input with
  | nil =>
      cases areItems with
      | noItems => exact isOutline
  | cons member members ih =>
      cases areItems with
      | items isItem areItems =>
          obtain ⟨last, areOthers, ends⟩ := ih areItems
          exact ⟨last, .items isItem areOthers, ends⟩

end

theorem IsOutline.append {text more : List Char} {members others : List Item}
    (isOutline : IsOutline text members) (isMore : IsOutline more others) :
    IsOutline (text ++ '\n' :: more)
      (members.map (Program.map (Written.before ('\n' :: more))) ++ others) := by
  obtain ⟨rest, areItems, ends⟩ := isOutline
  have areMembers := areItems.newline more
  rw [Phrase.map, Program.mapMembers_eq] at areMembers
  exact areMembers.outline_append (isMore.after (ends.to_more more))

/-! ## Nesting -/

theorem nestingOfMembers_append (members others : List Item) :
    nestingOfMembers (members ++ others) =
      max (nestingOfMembers members) (nestingOfMembers others) := by
  induction members with
  | nil => exact (Nat.zero_max _).symm
  | cons member members ih =>
      rw [List.cons_append, nestingOfMembers, nestingOfMembers, ih, max_assoc]

section

variable (change : Written → Written)

theorem nestingOfMembers_map {members : List Item}
    (each : ∀ member ∈ members, nesting (member.map change) = nesting member) :
    nestingOfMembers (members.map (Program.map change)) =
      nestingOfMembers members := by
  induction members with
  | nil => rfl
  | cons member members ih =>
      obtain ⟨first, others⟩ := List.forall_mem_cons.mp each
      rw [List.map_cons, nestingOfMembers, nestingOfMembers, first, ih others]

theorem nestingOfArms_map {arms : List (String × Item)}
    (each : ∀ arm ∈ arms, nesting (arm.2.map change) = nesting arm.2) :
    nestingOfArms (Program.mapArms change arms) = nestingOfArms arms := by
  induction arms with
  | nil => rfl
  | cons arm arms ih =>
      obtain ⟨first, others⟩ := List.forall_mem_cons.mp each
      rw [Program.mapArms, nestingOfArms, nestingOfArms, first, ih others]

/-- What is written at the nodes does not tell how deep bodies nest. -/
theorem nesting_map (item : Item) : nesting (item.map change) = nesting item := by
  induction item using Program.induction with
  | statement | result | typeDefinition => rfl
  | block label members ih =>
      rw [Program.map, nesting, nesting, Program.mapMembers_eq,
        nestingOfMembers_map change ih]
  | decision label consequent ih => rw [Program.map, nesting, nesting, ih]
  | choice label consequent alternative ih₁ ih₂ =>
      rw [Program.map, nesting, nesting, ih₁, ih₂, Program.tag_map]
  | selection label arms ih =>
      rw [Program.map, nesting, nesting, nestingOfArms_map change ih]
  | loop label kind body ih | container label kind body ih =>
      rw [Program.map, nesting, nesting, ih]

end

/-- Two outlines, one below the other, are read into the items of both. -/
theorem readItems_append {source more : String} {members others : List Item}
    (read : readItems source = .ok members)
    (readMore : readItems more = .ok others) :
    readItems (source ++ "\n" ++ more) =
      .ok (members.map (Program.map (Written.before ('\n' :: more.toList))) ++
        others) := by
  rw [readItems_iff] at read readMore ⊢
  obtain ⟨isOutline, deepEnough⟩ := read
  obtain ⟨isMore, moreDeepEnough⟩ := readMore
  have isText : (source ++ "\n" ++ more).toList =
      source.toList ++ '\n' :: more.toList := by
    rw [String.toList_append, String.toList_append, List.append_assoc]
    rfl
  rw [isText, nestingOfMembers_append,
    nestingOfMembers_map _ fun member _ => nesting_map _ member]
  exact ⟨isOutline.append isMore, max_le deepEnough moreDeepEnough⟩

end Outline

end Flowchart
