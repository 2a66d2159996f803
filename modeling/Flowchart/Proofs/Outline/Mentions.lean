import Flowchart.Proofs.Outline.Continued
import Flowchart.Proofs.Outline.Shape

/-!
# Where names are written

A name is mentioned wherever it stands behind its mark, outside of quotes and
comments.  Mentions are found by going through a text from its front, and the
grammar is not asked.  The names that an outline gives to its items, each before
those of the items below it, are the mentions in the order of the text.
-/

namespace Flowchart.Outline

/-! ## Bytes -/

@[simp]
theorem byteCount_nil : byteCount [] = 0 := rfl

@[simp]
theorem byteCount_singleton (c : Char) : byteCount [c] = c.utf8Size := Nat.zero_add _

theorem byteCount_cons (c : Char) (text : List Char) :
    byteCount (c :: text) = c.utf8Size + byteCount text := by
  rw [← List.singleton_append, byteCount_append, byteCount_singleton]

theorem utf8ByteSize_ofList (text : List Char) :
    (String.ofList text).utf8ByteSize = byteCount text := by
  induction text with
  | nil => rfl
  | cons c rest ih =>
      rw [byteCount_cons, ← ih, ← List.singleton_append, String.ofList_append,
        String.utf8ByteSize_append, ← String.singleton_eq_ofList,
        String.utf8ByteSize_singleton]

theorem byteCount_toList (source : String) :
    byteCount source.toList = source.utf8ByteSize := by
  rw [← utf8ByteSize_ofList, String.ofList_toList]

/-! ## Mentions -/

/-- A name behind its mark, and the range that it takes up. -/
structure Mention where
  name : String
  span : Span
deriving DecidableEq, Repr

/-- What a character belongs to. -/
inductive Region where
  | text
  | comment
  | quotation
  | escape
deriving DecidableEq, Repr

/-- What the next character belongs to.  Two slashes start a comment. -/
def Region.after (region : Region) (c : Char) (following : Option Char) : Region :=
  match region with
  | .text =>
      if c = '"' then .quotation
      else if c = '/' ∧ following = some '/' then .comment
      else .text
  | .comment => if c = '\n' then .text else .comment
  | .quotation =>
      if c = '"' then .text
      else if c = '\\' then .escape
      else .quotation
  | .escape => .quotation

/-- The longest name at the front of a text. -/
def mentionAt (position : Nat) (text : List Char) : Mention :=
  let name := text.takeWhile isNameChar
  ⟨String.ofList name, .between position (position + byteCount name)⟩

/-- The names behind marks, from a position in a region on. -/
def mentionsFrom (region : Region) (position : Nat) : List Char → List Mention
  | [] => []
  | c :: rest =>
      let next := position + c.utf8Size
      let further := mentionsFrom (region.after c rest.head?) next rest
      if region = .text ∧ c = '@' then mentionAt next rest :: further else further

/-- The names mentioned in a text, in its order. -/
def mentions (source : String) : List Mention :=
  mentionsFrom .text 0 source.toList

/-- The mention of a name in a text of so many bytes. -/
def Name.mention (size : Nat) (name : Name) : Mention :=
  let finish := size - name.bytesAfter
  ⟨name.text, .between (finish - name.text.utf8ByteSize) finish⟩

/-! ## The order of the text -/

section

variable {region : Region} {position : Nat} {text : List Char}

theorem lt_start_of_mem {mention : Mention}
    (isIn : mention ∈ mentionsFrom region position text) :
    position < mention.span.start := by
  induction text generalizing region position with
  | nil => cases isIn
  | cons c rest ih =>
      have goesOn := c.utf8Size_pos
      rw [mentionsFrom] at isIn
      split at isIn
      · rcases List.mem_cons.mp isIn with rfl | isLater
        · exact Nat.lt_add_of_pos_right goesOn
        · exact Nat.lt_of_add_right_lt (ih isLater)
      · exact Nat.lt_of_add_right_lt (ih isIn)

theorem pairwise_mentionsFrom :
    (mentionsFrom region position text).Pairwise fun first later =>
      first.span.start < later.span.start := by
  induction text generalizing region position with
  | nil => exact .nil
  | cons c rest ih =>
      rw [mentionsFrom]
      split
      · exact .cons (fun later isLater => lt_start_of_mem isLater) ih
      · exact ih

end

/-! ## Mentions in a part of a text -/

/-- Up to what is left of a text these names are mentioned. -/
def Mentions (names : List Name) (input rest : List Char) : Prop :=
  ∃ taken, input = taken ++ rest ∧ ∀ position,
    mentionsFrom .text position input =
      names.map (Name.mention (position + byteCount input)) ++
        mentionsFrom .text (position + byteCount taken) rest

namespace Mentions

variable {names others : List Name} {input middle rest : List Char}

theorem refl (input : List Char) : Mentions [] input input :=
  ⟨[], rfl, fun _ => rfl⟩

theorem trans (first : Mentions names input middle)
    (second : Mentions others middle rest) : Mentions (names ++ others) input rest := by
  obtain ⟨taken, rfl, first⟩ := first
  obtain ⟨more, rfl, second⟩ := second
  refine ⟨taken ++ more, (List.append_assoc _ _ _).symm, fun position => ?_⟩
  rw [first, second, List.map_append, List.append_assoc, byteCount_append taken,
    byteCount_append taken, Nat.add_assoc, Nat.add_assoc]

theorem nothing_then (first : Mentions [] input middle)
    (second : Mentions names middle rest) : Mentions names input rest :=
  first.trans second

theorem then_nothing (first : Mentions names input middle)
    (second : Mentions [] middle rest) : Mentions names input rest := by
  have both := first.trans second
  rwa [List.append_nil] at both

end Mentions

section

variable {input rest : List Char}

/-- A character with no meaning of its own is passed over. -/
theorem mentions_char {c : Char} (plain : c ∉ ['@', '"', '/']) (rest : List Char) :
    Mentions [] (c :: rest) rest := by
  simp only [List.mem_cons, List.not_mem_nil, or_false, not_or] at plain
  obtain ⟨noMark, noQuote, noSlash⟩ := plain
  refine ⟨[c], rfl, fun position => ?_⟩
  simp [mentionsFrom, Region.after, noMark, noQuote, noSlash, byteCount_cons]

theorem mentions_run {inRun : Char → Bool} {text : List Char}
    (all : ∀ c ∈ text, inRun c = true) (plain : ['@', '"', '/'].any inRun = false)
    (rest : List Char) : Mentions [] (text ++ rest) rest := by
  induction text with
  | nil => exact .refl rest
  | cons c text ih =>
      obtain ⟨first, others⟩ := List.forall_mem_cons.mp all
      have isPlain : c ∉ ['@', '"', '/'] := fun isIn =>
        List.any_eq_false.mp plain c isIn first
      exact (mentions_char isPlain _).nothing_then (ih others)

/-- A comment ends before its line does, or with the text. -/
theorem mentionsFrom_comment {line text : List Char} (inLine : '\n' ∉ line)
    (atEnd : ∀ c ∈ text.head?, c = '\n') (position : Nat) :
    mentionsFrom .comment position (line ++ text) =
      mentionsFrom .text (position + byteCount line) text := by
  induction line generalizing position with
  | nil =>
      cases text with
      | nil => rfl
      | cons c more =>
          obtain rfl := atEnd c rfl
          simp [mentionsFrom, Region.after]
  | cons c line ih =>
      obtain ⟨differs, others⟩ := List.ne_and_not_mem_of_not_mem_cons inLine
      simp [mentionsFrom, Region.after, differs.symm, ih others, byteCount_cons,
        Nat.add_assoc]

theorem Blanks.mentions (blanks : Blanks input rest) : Mentions [] input rest := by
  induction blanks with
  | nothing text => exact .refl text
  | @blank c text rest isBlank _ ih =>
      have isPlain : c ∉ ['@', '"', '/'] := by
        rintro isIn
        simp only [List.mem_cons, List.not_mem_nil, or_false] at isIn
        rcases isIn with rfl | rfl | rfl <;> cases isBlank
      exact (mentions_char isPlain text).nothing_then ih
  | @comment line text rest inLine atEnd _ ih =>
      refine Mentions.nothing_then ?_ ih
      refine ⟨'/' :: '/' :: line, rfl, fun position => ?_⟩
      simp [mentionsFrom, Region.after, mentionsFrom_comment inLine atEnd,
        byteCount_cons, Nat.add_assoc]

theorem Mark.mentions {mark : Char} (isMark : Mark mark input rest)
    (plain : mark ∉ ['@', '"', '/']) : Mentions [] input rest :=
  (Blanks.mentions isMark).nothing_then (mentions_char plain rest)

theorem Word.mentions {word : String} (isWritten : Word word input rest)
    (isWord : isWord word = true) : Mentions [] input rest :=
  (Blanks.mentions isWritten.1).nothing_then
    (mentions_run (isRun_word isWord isWritten.2).all (by decide) rest)

/-! ## Quoted texts and attributes -/

theorem Content.mentionsFrom_eq {text : List Char}
    (content : Content text input rest) :
    ∃ taken, input = taken ++ rest ∧ ∀ position,
      mentionsFrom .quotation position input =
        mentionsFrom .text (position + byteCount taken) rest := by
  induction content with
  | closed rest =>
      refine ⟨['"'], rfl, fun position => ?_⟩
      simp [mentionsFrom, Region.after, byteCount_cons]
  | @escape letter meant text input rest _ _ ih =>
      obtain ⟨taken, rfl, passed⟩ := ih
      refine ⟨'\\' :: letter :: taken, rfl, fun position => ?_⟩
      simp [mentionsFrom, Region.after, passed, byteCount_cons, Nat.add_assoc]
  | @plain c text input rest isPlain _ ih =>
      obtain ⟨taken, rfl, passed⟩ := ih
      refine ⟨c :: taken, rfl, fun position => ?_⟩
      simp only [Outline.isPlain, Bool.and_eq_true, decide_eq_true_eq] at isPlain
      obtain ⟨⟨⟨noQuote, noEscape⟩, -⟩, -⟩ := isPlain
      simp [mentionsFrom, Region.after, noQuote, noEscape, passed, byteCount_cons,
        Nat.add_assoc]

theorem Quotation.mentions {text : String} (quotation : Quotation text input rest) :
    Mentions [] input rest := by
  cases quotation with
  | quoted isMark content =>
      refine (Blanks.mentions isMark).nothing_then ?_
      obtain ⟨taken, rfl, passed⟩ := content.mentionsFrom_eq
      refine ⟨'"' :: taken, rfl, fun position => ?_⟩
      simp [mentionsFrom, Region.after, passed, byteCount_cons, Nat.add_assoc]

theorem NamePart.mentions {name : Option Name} (part : NamePart name input rest) :
    Mentions name.toList input rest := by
  cases part with
  | nothing => exact .refl input
  | @name text input rest isMark isRun =>
      refine (Blanks.mentions isMark).nothing_then ?_
      obtain ⟨taken, same, passed⟩ := mentions_run isRun.all (by decide) rest
      obtain rfl := List.append_cancel_right same
      refine ⟨'@' :: text, rfl, fun position => ?_⟩
      have isMention : mentionAt (position + '@'.utf8Size) (text ++ rest) =
          Name.mention (position + byteCount ('@' :: (text ++ rest)))
            ⟨String.ofList text, byteCount rest⟩ := by
        have finish : position + byteCount ('@' :: (text ++ rest)) - byteCount rest =
            position + '@'.utf8Size + byteCount text := by
          rw [byteCount_cons, byteCount_append]
          omega
        rw [mentionAt, Reader.takeWhile_eq isRun.all isRun.ends, Name.mention,
          utf8ByteSize_ofList, finish, Nat.add_sub_cancel]
      rw [mentionsFrom, if_pos ⟨rfl, rfl⟩, isMention]
      have goesOn : Region.after .text '@' (text ++ rest).head? = .text := rfl
      rw [goesOn, passed, List.map_nil, List.nil_append, Option.toList_some,
        List.map_singleton, List.singleton_append, byteCount_cons '@' text,
        Nat.add_assoc]

theorem Measure.mentions {value : Float32} (measure : Measure value input rest) :
    Mentions [] input rest := by
  cases measure with
  | number blanks isRun =>
      exact blanks.mentions.nothing_then (mentions_run isRun.all (by decide) rest)

theorem Dimension.mentions {along : Axis × Float32}
    (dimension : Dimension along input rest) : Mentions [] input rest := by
  cases dimension with
  | @along axis _ _ _ _ _ isWritten isMark measure =>
      have isAxis : isWord axis.word = true := by cases axis <;> decide
      exact (isWritten.mentions isAxis).nothing_then
        ((isMark.mentions (by decide)).nothing_then measure.mentions)

theorem Dimensions.mentions {dimensions : List (Axis × Float32)}
    (areWritten : Dimensions dimensions input rest) : Mentions [] input rest := by
  induction areWritten with
  | single first => exact first.mentions
  | more first isMark _ ih =>
      exact first.mentions.nothing_then ((isMark.mentions (by decide)).nothing_then ih)

theorem SizePart.mentions {hint : Option (Size Float32)}
    (part : SizePart hint input rest) : Mentions [] input rest := by
  cases part with
  | nothing => exact .refl input
  | size opens dimensions closes =>
      exact (opens.mentions (by decide)).nothing_then
        (dimensions.mentions.nothing_then (closes.mentions (by decide)))

theorem Given.mentions {given : Attributes} (isGiven : Given given input rest) :
    Mentions given.name.toList input rest := by
  cases isGiven with
  | both namePart sizePart => exact namePart.mentions.then_nothing sizePart.mentions

end

/-! ## Items -/

/-- The names given at an item and below it, in the order of the walk. -/
def names (item : Item) : List Name := item.labels.filterMap Written.name

theorem names_eq (item : Item) :
    names item = item.label.name.toList ++ item.children.flatMap names := by
  have below : (item.children.flatMap Program.labels).filterMap Written.name =
      item.children.flatMap names := List.filterMap_flatMap
  rw [names, Program.labels_eq, List.filterMap_cons, below]
  cases item.label.name <;> rfl

/-- The names given in a part of an outline. -/
def Phrase.names (phrase : Phrase) : List Name := phrase.tops.flatMap Outline.names

@[simp]
theorem names_blockOf (members : List Item) :
    names (blockOf members) = members.flatMap names :=
  names_eq (blockOf members)

section

variable {item : Item} {members : List Item} {text : String} {given : Attributes}
  {input a b c rest : List Char}

/-- What an item starts with, up to its attributes. -/
theorem mentions_head (keyword : Mentions [] input a) (quotation : Mentions [] a b)
    (own : Mentions given.name.toList b c) : Mentions given.name.toList input c :=
  keyword.nothing_then (quotation.nothing_then own)

/-- The name of an item stands before those of the items below it. -/
theorem mentions_item (isLabel : item.label = .ofText text given)
    (own : Mentions given.name.toList input a)
    (below : Mentions (item.children.flatMap names) a rest) :
    Mentions ([item].flatMap names) input rest := by
  rw [List.flatMap_singleton, names_eq, isLabel]
  exact own.trans below

theorem mentions_body (inside : Mentions (members.flatMap names) input rest) :
    Mentions ([blockOf members].flatMap names) input rest := by
  rwa [List.flatMap_singleton, names_blockOf]

/-- The names of a part of an outline are what the text mentions there. -/
theorem Derives.mentions {phrase : Phrase} (derives : Derives phrase input rest) :
    Mentions phrase.names input rest := by
  induction derives with
  | noItems input | noElse input | noArms input => exact .refl input
  | items _ _ isItem areItems =>
      have both := isItem.trans areItems
      rwa [Phrase.names, Phrase.tops, List.flatMap_singleton] at both
  | @statement kind _ _ _ _ _ _ _ isWritten quotation isGiven ends =>
      exact mentions_item rfl
        (mentions_head (isWritten.mentions (isWord_statement kind))
          quotation.mentions isGiven.mentions)
        (ends.mentions (by decide))
  | result isWritten quotation isGiven ends
  | typeDefinition isWritten quotation isGiven ends =>
      exact mentions_item rfl
        (mentions_head (isWritten.mentions (by decide)) quotation.mentions
          isGiven.mentions)
        (ends.mentions (by decide))
  | emptyResult isWritten isGiven ends =>
      exact mentions_item rfl
        ((isWritten.mentions (by decide)).nothing_then isGiven.mentions)
        (ends.mentions (by decide))
  | decisionItem _ ih | elseDecision _ ih => exact ih
  | selection isWritten quotation isGiven opens _ closes areArms =>
      exact mentions_item rfl
        (mentions_head (isWritten.mentions (by decide)) quotation.mentions
          isGiven.mentions)
        ((opens.mentions (by decide)).nothing_then
          (areArms.then_nothing (closes.mentions (by decide))))
  | @loop kind _ _ _ _ _ _ _ _ isWritten quotation isGiven _ isBody =>
      exact mentions_item rfl
        (mentions_head (isWritten.mentions (isWord_loop kind)) quotation.mentions
          isGiven.mentions)
        (mentions_body isBody)
  | @container kind _ _ _ _ _ _ _ _ isWritten quotation isGiven _ isBody =>
      exact mentions_item rfl
        (mentions_head (isWritten.mentions (isWord_container kind))
          quotation.mentions isGiven.mentions)
        (mentions_body isBody)
  | block isWritten isGiven _ isBody =>
      exact mentions_item rfl
        ((isWritten.mentions (by decide)).nothing_then isGiven.mentions) isBody
  | bareBlock _ isBody => exact mentions_body isBody
  | decision isWritten quotation isGiven _ _ isBody isElse =>
      exact mentions_item rfl
        (mentions_head (isWritten.mentions (by decide)) quotation.mentions
          isGiven.mentions)
        (by
          have both := (mentions_body isBody).trans isElse
          rwa [List.flatMap_singleton] at both)
  | elsePart isWritten _ isAlternative =>
      exact (isWritten.mentions (by decide)).nothing_then isAlternative
  | elseBlock isGiven _ isBody => exact mentions_item rfl isGiven.mentions isBody
  | @arms _ given members _ input _ _ _ middle _ isWritten quotation isGiven _ _
      isBody areArms =>
      have arm : Mentions ([.block (.ofText "" given) members].flatMap names) input
          middle :=
        mentions_item rfl
          (mentions_head (isWritten.mentions (by decide)) quotation.mentions
            isGiven.mentions) isBody
      have both := arm.trans areArms
      rwa [List.flatMap_singleton] at both
  | body opens _ closes areItems =>
      exact (opens.mentions (by decide)).nothing_then
        (areItems.then_nothing (closes.mentions (by decide)))

end

/-- The names of the items that are read from a text are its mentions. -/
theorem mentions_of_readItems {source : String} {members : List Item}
    (read : readItems source = .ok members) :
    mentions source =
      (names (blockOf members)).map (Name.mention source.utf8ByteSize) := by
  obtain ⟨⟨rest, areItems, blanks⟩, -⟩ := isOutline_of_readItems read
  obtain ⟨taken, -, mentioned⟩ := areItems.mentions.then_nothing blanks.mentions
  have whole := mentioned 0
  rw [Nat.zero_add, byteCount_toList, mentionsFrom, List.append_nil] at whole
  rw [mentions, whole, names_blockOf]
  rfl

end Flowchart.Outline
