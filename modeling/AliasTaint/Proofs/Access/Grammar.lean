import AliasTaint.Access.Grammar
import Mathlib.Data.List.TakeWhile

/-!
# The grammar of access paths

The text of a path is a sequence of element texts: a dot and a name, or a key in brackets.  The
reader accepts exactly these texts, and gives the one path of readable elements that is rendered
like that.  A text that it refuses begins with a longest text of a path, and the reason is about
what follows it.

At every place a text is at its end, or begins with an element, or does not fit for one reason.  The
reader is described by what it does in these three cases, and the facts about it go by induction on
them.
-/

namespace AliasTaint

namespace PathElement

/-- The characters of a rendered element. -/
def characters (element : PathElement) : List Char :=
  (render element).toList

/-- The name or key of the element is read back from its text. -/
def Readable : PathElement → Prop
  | .field name => name ≠ "" ∧ '.' ∉ name.toList ∧ '[' ∉ name.toList
  | .index key => key ≠ "" ∧ ']' ∉ key.toList ∧ key ≠ "*"
  | .anyIndex => True

@[simp]
theorem characters_field (name : String) : (field name).characters = '.' :: name.toList := by
  simp [characters, render]

@[simp]
theorem characters_index (key : String) :
    (index key).characters = '[' :: (key.toList ++ [']']) := by
  simp [characters, render]

@[simp]
theorem characters_anyIndex : anyIndex.characters = ['[', '*', ']'] := by
  simp [characters, render]

end PathElement

namespace Path

/-! ## Texts of paths -/

/-- The texts of single elements. -/
inductive ElementText : List Char → Prop
  | field {name : List Char} (filled : name ≠ [])
      (plain : ∀ character ∈ name, character ≠ '.' ∧ character ≠ '[') :
      ElementText ('.' :: name)
  | index {key : List Char} (filled : key ≠ []) (plain : ∀ character ∈ key, character ≠ ']') :
      ElementText ('[' :: (key ++ [']']))

/-- The texts of paths are the sequences of element texts. -/
def PathText (text : List Char) : Prop :=
  ∃ pieces : List (List Char), (∀ piece ∈ pieces, ElementText piece) ∧ text = pieces.flatten

/-- A field name that stands before the text is at its end. -/
def EndsName (text : List Char) : Prop :=
  ∀ character ∈ text.head?, character = '.' ∨ character = '['

/-- The reason why a text that is not at its end does not begin with an element. -/
inductive Misfit : Defect → List Char → Prop
  | emptyField {rest : List Char} (nameless : EndsName rest) : Misfit .emptyField ('.' :: rest)
  | unterminatedIndex {rest : List Char} (unclosed : ']' ∉ rest) :
      Misfit .unterminatedIndex ('[' :: rest)
  | emptyIndex (rest : List Char) : Misfit .emptyIndex ('[' :: ']' :: rest)
  | noElement {character : Char} {rest : List Char}
      (noDot : character ≠ '.') (noBracket : character ≠ '[') :
      Misfit .noElement (character :: rest)

/-- A text begins with an element, which goes as far as it can, and a rest follows. -/
structure Begins (element : PathElement) (rest text : List Char) : Prop where
  readable : element.Readable
  text_eq : text = element.characters ++ rest
  ended : element.isField → EndsName rest

theorem inFieldName_iff {character : Char} :
    inFieldName character ↔ character ≠ '.' ∧ character ≠ '[' := by
  simp [inFieldName]

theorem inIndexKey_iff {character : Char} : inIndexKey character ↔ character ≠ ']' := by
  simp [inIndexKey]

theorem Misfit.unique {first second : Defect} {text : List Char}
    (firstMisfit : Misfit first text) (secondMisfit : Misfit second text) : first = second := by
  cases firstMisfit <;> cases secondMisfit <;> simp_all

/-- A text that does not fit begins with no element text. -/
theorem Misfit.not_elementText {defect : Defect} {text piece : List Char}
    (misfit : Misfit defect text) (isElement : ElementText piece) : ¬ piece <+: text := by
  rintro ⟨rest, rfl⟩
  cases isElement with
  | @field name filled plain =>
      obtain ⟨first, more, rfl⟩ := List.exists_cons_of_ne_nil filled
      have inName := plain first List.mem_cons_self
      cases misfit with
      | emptyField nameless =>
          exact (nameless first rfl).elim inName.1 inName.2
      | noElement noDot _ =>
          exact noDot rfl
  | @index key filled plain =>
      obtain ⟨first, more, rfl⟩ := List.exists_cons_of_ne_nil filled
      have inKey := plain first List.mem_cons_self
      simp only [List.cons_append] at misfit
      cases misfit with
      | unterminatedIndex unclosed =>
          simp at unclosed
      | emptyIndex _ =>
          exact inKey rfl
      | noElement _ noBracket =>
          exact noBracket rfl

/-! ## One element of a text -/

theorem EndsName.outside {text : List Char} (ends : EndsName text) :
    ∀ character ∈ text.head?, inFieldName character = false := by
  intro character isFirst
  rcases ends character isFirst with rfl | rfl <;> rfl

theorem takeWhile_append_of_ends (inside : Char → Bool) {taken rest : List Char}
    (allInside : ∀ character ∈ taken, inside character)
    (ends : ∀ character ∈ rest.head?, inside character = false) :
    (taken ++ rest).takeWhile inside = taken ∧ (taken ++ rest).dropWhile inside = rest := by
  rw [List.takeWhile_append_of_pos allInside, List.dropWhile_append_of_pos allInside]
  cases rest with
  | nil =>
      simp
  | cons first more =>
      simp [ends first rfl]

theorem takeWhile_inIndexKey {key : List Char} (rest : List Char) (plain : ']' ∉ key) :
    (key ++ ']' :: rest).takeWhile inIndexKey = key ∧
      (key ++ ']' :: rest).dropWhile inIndexKey = ']' :: rest := by
  refine takeWhile_append_of_ends inIndexKey ?_ (by simp [inIndexKey])
  exact fun character member => inIndexKey_iff.mpr (ne_of_mem_of_not_mem member plain)

theorem indexKey_eq {key other rest more : List Char} (plain : ']' ∉ key) (otherPlain : ']' ∉ other)
    (same : key ++ ']' :: rest = other ++ ']' :: more) : key = other := by
  rw [← (takeWhile_inIndexKey rest plain).1, same, (takeWhile_inIndexKey more otherPlain).1]

theorem parseElements_bracketed {key : List Char} (rest : List Char) (filled : key ≠ [])
    (plain : ']' ∉ key) :
    parseElements ('[' :: (key ++ ']' :: rest)) =
      (parseElements rest).map (indexElement key :: ·) := by
  obtain ⟨taken, dropped⟩ := takeWhile_inIndexKey rest plain
  rw [parseElements, taken, dropped]
  simp [filled]

theorem takeWhile_inFieldName {name : String} {rest : List Char}
    (readable : (PathElement.field name).Readable) (ended : EndsName rest) :
    (name.toList ++ rest).takeWhile inFieldName = name.toList ∧
      (name.toList ++ rest).dropWhile inFieldName = rest := by
  obtain ⟨_, noDot, noBracket⟩ := readable
  refine takeWhile_append_of_ends inFieldName ?_ ended.outside
  exact fun character member => inFieldName_iff.mpr
    ⟨ne_of_mem_of_not_mem member noDot, ne_of_mem_of_not_mem member noBracket⟩

/-- An element at the beginning of a text is read, and the reader goes on after it. -/
theorem Begins.parseElements_eq {element : PathElement} {rest text : List Char}
    (begins : Begins element rest text) :
    parseElements text = (parseElements rest).map (element :: ·) := by
  obtain ⟨readable, rfl, ended⟩ := begins
  cases element with
  | field name =>
      obtain ⟨taken, dropped⟩ := takeWhile_inFieldName readable (ended rfl)
      rw [PathElement.characters_field, List.cons_append, parseElements, taken, dropped]
      simp [readable.1]
  | index key =>
      obtain ⟨filled, plain, notAny⟩ := readable
      have isIndex : indexElement key.toList = .index key := by
        have notStar : key.toList ≠ ['*'] := fun same => notAny (String.toList_inj.mp same)
        simp [indexElement, notStar]
      have keyFilled : key.toList ≠ [] := by simpa using filled
      simpa [isIndex] using parseElements_bracketed rest keyFilled plain
  | anyIndex =>
      have filled : ['*'] ≠ [] := by simp
      exact parseElements_bracketed rest filled (by simp)

theorem Misfit.parseElements_eq {defect : Defect} {text : List Char} (misfit : Misfit defect text) :
    parseElements text = .error defect := by
  cases misfit with
  | @emptyField rest nameless =>
      have noName : rest.takeWhile inFieldName = [] := by
        have none : ∀ character ∈ ([] : List Char), inFieldName character := by simp
        exact (takeWhile_append_of_ends inFieldName none nameless.outside).1
      rw [parseElements, noName]
      rfl
  | @unterminatedIndex rest unclosed =>
      have allInside : rest.dropWhile inIndexKey = [] :=
        List.dropWhile_eq_nil_iff.mpr fun character member =>
          inIndexKey_iff.mpr (ne_of_mem_of_not_mem member unclosed)
      rw [parseElements, allInside]
      rfl
  | emptyIndex rest =>
      simp [parseElements, inIndexKey]
  | noElement noDot noBracket =>
      rw [parseElements.eq_4] <;> simp_all

theorem endsName_dropWhile (text : List Char) : EndsName (text.dropWhile inFieldName) := by
  intro character isFirst
  have stops := List.head?_dropWhile_not inFieldName text
  rw [Option.mem_def.mp isFirst] at stops
  simpa [inFieldName, Decidable.or_iff_not_imp_left] using stops

theorem readable_indexElement {key : List Char} (filled : key ≠ []) (plain : ']' ∉ key) :
    (indexElement key).Readable ∧ (indexElement key).characters = '[' :: (key ++ [']']) ∧
      (indexElement key).isField = false := by
  unfold indexElement
  split
  · rename_i isStar
    exact ⟨trivial, by simp [isStar], rfl⟩
  · rename_i notStar
    refine ⟨⟨by simpa using filled, by simpa using plain, ?_⟩, by simp, rfl⟩
    intro same
    exact notStar (by simpa using congrArg String.toList same)

/-- A text is at its end, begins with an element, or does not fit. -/
theorem text_cases (text : List Char) :
    text = [] ∨ (∃ element rest, Begins element rest text) ∨ ∃ defect, Misfit defect text := by
  cases text with
  | nil =>
      exact Or.inl rfl
  | cons first tail =>
      refine Or.inr ?_
      by_cases isDot : first = '.'
      · subst isDot
        have split := tail.takeWhile_append_dropWhile (p := inFieldName)
        have ended := endsName_dropWhile tail
        by_cases filled : tail.takeWhile inFieldName = []
        · rw [filled, List.nil_append] at split
          rw [split] at ended
          exact Or.inr ⟨_, .emptyField ended⟩
        · have plain : ∀ character ∈ tail.takeWhile inFieldName,
              character ≠ '.' ∧ character ≠ '[' :=
            fun character member => inFieldName_iff.mp (List.mem_takeWhile_imp member)
          refine Or.inl ⟨.field (.ofList (tail.takeWhile inFieldName)), _, ?_, ?_, fun _ => ended⟩
          · refine ⟨by simpa using filled, ?_, ?_⟩
            · simpa using fun member => (plain '.' member).1 rfl
            · simpa using fun member => (plain '[' member).2 rfl
          · simp [split]
      by_cases isBracket : first = '['
      · subst isBracket
        by_cases closed : ']' ∈ tail
        · obtain ⟨key, rest, rfl, plain⟩ := List.eq_append_cons_of_mem closed
          by_cases filled : key = []
          · subst filled
            exact Or.inr ⟨_, .emptyIndex rest⟩
          · obtain ⟨readable, characters, notField⟩ := readable_indexElement filled plain
            refine Or.inl ⟨indexElement key, rest, readable, by simp [characters], ?_⟩
            simp [notField]
        · exact Or.inr ⟨_, .unterminatedIndex closed⟩
      · exact Or.inr ⟨_, .noElement isDot isBracket⟩

theorem Begins.length_lt {element : PathElement} {rest text : List Char}
    (begins : Begins element rest text) : rest.length < text.length := by
  obtain ⟨_, rfl, _⟩ := begins
  cases element <;> simp <;> omega

/-- A statement holds of every text if it holds at the end and of all that does not fit, and passes
from what follows an element to the text that begins with the element. -/
theorem text_induction {motive : List Char → Prop}
    (atEnd : motive [])
    (atElement : ∀ {element rest text}, Begins element rest text → motive rest → motive text)
    (atMisfit : ∀ {defect text}, Misfit defect text → motive text)
    (text : List Char) : motive text := by
  rcases text_cases text with rfl | ⟨element, rest, begins⟩ | ⟨defect, misfit⟩
  · exact atEnd
  · have shorter := begins.length_lt
    exact atElement begins (text_induction atEnd atElement atMisfit rest)
  · exact atMisfit misfit
termination_by text.length

/-! ## Texts that are read -/

theorem toList_render (path : Path) :
    (render path).toList = path.flatMap PathElement.characters := by
  induction path with
  | nil =>
      rfl
  | cons element path inductionHypothesis =>
      have step : render (element :: path) = render element ++ render path := rfl
      rw [step, String.toList_append, inductionHypothesis, List.flatMap_cons]
      rfl

theorem endsName_flatMap (path : Path) : EndsName (path.flatMap PathElement.characters) := by
  cases path with
  | nil =>
      simp [EndsName]
  | cons element path =>
      cases element <;> simp [EndsName]

/-- The reader gives the path of readable elements whose characters are the text. -/
theorem parseElements_eq_ok_iff {text : List Char} {path : Path} :
    parseElements text = .ok path ↔
      text = path.flatMap PathElement.characters ∧ ∀ element ∈ path, element.Readable := by
  constructor
  · induction text using text_induction generalizing path with
    | atEnd =>
        intro read
        rw [parseElements] at read
        cases read
        simp
    | @atElement element rest text begins inductionHypothesis =>
        intro read
        rw [begins.parseElements_eq] at read
        cases readRest : parseElements rest with
        | error defect =>
            rw [readRest] at read
            cases read
        | ok more =>
            rw [readRest] at read
            cases read
            obtain ⟨rest_eq, readable⟩ := inductionHypothesis readRest
            exact ⟨by rw [begins.text_eq, List.flatMap_cons, ← rest_eq],
              List.forall_mem_cons.mpr ⟨begins.readable, readable⟩⟩
    | atMisfit misfit =>
        intro read
        rw [misfit.parseElements_eq] at read
        cases read
  · rintro ⟨rfl, readable⟩
    induction path with
    | nil =>
        rw [List.flatMap_nil, parseElements]
    | cons element path inductionHypothesis =>
        obtain ⟨elementReadable, pathReadable⟩ := List.forall_mem_cons.mp readable
        have begins : Begins element (path.flatMap PathElement.characters)
            ((element :: path).flatMap PathElement.characters) :=
          ⟨elementReadable, List.flatMap_cons, fun _ => endsName_flatMap path⟩
        rw [begins.parseElements_eq, inductionHypothesis pathReadable]
        rfl

theorem elementText_iff {piece : List Char} :
    ElementText piece ↔ ∃ element : PathElement, element.Readable ∧ element.characters = piece := by
  constructor
  · intro isElement
    cases isElement with
    | @field name filled plain =>
        refine ⟨.field (.ofList name), ⟨by simpa using filled, ?_, ?_⟩, by simp⟩
        · simpa using fun member => (plain '.' member).1 rfl
        · simpa using fun member => (plain '[' member).2 rfl
    | @index key filled plain =>
        have closedOnce : ']' ∉ key := fun member => plain ']' member rfl
        obtain ⟨readable, characters, _⟩ := readable_indexElement filled closedOnce
        exact ⟨indexElement key, readable, characters⟩
  · rintro ⟨element, readable, rfl⟩
    cases element with
    | field name =>
        obtain ⟨filled, noDot, noBracket⟩ := readable
        rw [PathElement.characters_field]
        exact .field (by simpa using filled) fun character member =>
          ⟨ne_of_mem_of_not_mem member noDot, ne_of_mem_of_not_mem member noBracket⟩
    | index key =>
        obtain ⟨filled, plain, _⟩ := readable
        rw [PathElement.characters_index]
        exact .index (by simpa using filled) fun character member =>
          ne_of_mem_of_not_mem member plain
    | anyIndex =>
        have filled : ['*'] ≠ [] := by simp
        exact .index filled (by simp)

theorem pathText_nil : PathText [] :=
  ⟨[], nofun, rfl⟩

theorem PathText.cons {piece text : List Char} (isElement : ElementText piece)
    (isPath : PathText text) : PathText (piece ++ text) := by
  obtain ⟨pieces, areElements, rfl⟩ := isPath
  exact ⟨piece :: pieces, List.forall_mem_cons.mpr ⟨isElement, areElements⟩, rfl⟩

theorem PathText.cases {text : List Char} (isPath : PathText text) :
    text = [] ∨ ∃ piece more, ElementText piece ∧ PathText more ∧ text = piece ++ more := by
  obtain ⟨pieces, areElements, rfl⟩ := isPath
  cases pieces with
  | nil =>
      exact Or.inl rfl
  | cons piece pieces =>
      obtain ⟨isElement, areElements⟩ := List.forall_mem_cons.mp areElements
      exact Or.inr ⟨piece, pieces.flatten, isElement, ⟨pieces, areElements, rfl⟩, rfl⟩

theorem pathText_iff {text : List Char} :
    PathText text ↔ ∃ path : Path,
      text = path.flatMap PathElement.characters ∧ ∀ element ∈ path, element.Readable := by
  constructor
  · rintro ⟨pieces, areElements, rfl⟩
    induction pieces with
    | nil =>
        exact ⟨[], rfl, nofun⟩
    | cons piece pieces inductionHypothesis =>
        obtain ⟨isElement, restAreElements⟩ := List.forall_mem_cons.mp areElements
        obtain ⟨element, elementReadable, rfl⟩ := elementText_iff.mp isElement
        obtain ⟨path, path_eq, readable⟩ := inductionHypothesis restAreElements
        exact ⟨element :: path, by rw [List.flatten_cons, path_eq, List.flatMap_cons],
          List.forall_mem_cons.mpr ⟨elementReadable, readable⟩⟩
  · rintro ⟨path, rfl, readable⟩
    refine ⟨path.map PathElement.characters, ?_, rfl⟩
    intro piece member
    obtain ⟨element, inPath, rfl⟩ := List.mem_map.mp member
    exact elementText_iff.mpr ⟨element, readable element inPath, rfl⟩

/-! ## Texts that are refused -/

/-- A text begins with a text of a path, and with no longer one. -/
structure LongestBeginning (before after text : List Char) : Prop where
  isPath : PathText before
  text_eq : text = before ++ after
  longest : ∀ longer, PathText longer → longer <+: text → longer.length ≤ before.length

theorem LongestBeginning.unique {before after otherBefore otherAfter text : List Char}
    (first : LongestBeginning before after text)
    (second : LongestBeginning otherBefore otherAfter text) :
    before = otherBefore ∧ after = otherAfter := by
  have firstBegins : before <+: text := ⟨after, first.text_eq.symm⟩
  have secondBegins : otherBefore <+: text := ⟨otherAfter, second.text_eq.symm⟩
  have sameLength : before.length = otherBefore.length :=
    Nat.le_antisymm (second.longest before first.isPath firstBegins)
      (first.longest otherBefore second.isPath secondBegins)
  exact List.append_inj (first.text_eq.symm.trans second.text_eq) sameLength

/-- An element text at the beginning of a text with more of a path after it is that of the element
there, or reaches no further than it. -/
theorem Begins.elementText_cases {element : PathElement} {rest text piece more : List Char}
    (begins : Begins element rest text) (isElement : ElementText piece) (isPath : PathText more)
    (beginsOther : piece ++ more <+: text) :
    piece = element.characters ∨ (piece ++ more).length ≤ element.characters.length := by
  obtain ⟨readable, rfl, ended⟩ := begins
  obtain ⟨tail, same⟩ := beginsOther
  cases isElement with
  | @field name filled plain =>
      cases element with
      | field other =>
          have nameInside : ∀ character ∈ name, inFieldName character := fun character member =>
            inFieldName_iff.mpr (plain character member)
          have other_eq : other.toList = name ++ (more ++ tail).takeWhile inFieldName := by
            have sameText : other.toList ++ rest = name ++ (more ++ tail) := by simp_all
            rw [← List.takeWhile_append_of_pos nameInside, ← sameText,
              (takeWhile_inFieldName readable (ended rfl)).1]
          rcases isPath.cases with rfl | ⟨next, others, isNext, _, rfl⟩
          · exact Or.inr (by simp [other_eq])
          · cases isNext <;> exact Or.inl (by simp [other_eq, inFieldName])
      | index key =>
          simp at same
      | anyIndex =>
          simp at same
  | @index key filled plain =>
      have closedOnce : ']' ∉ key := fun member => plain ']' member rfl
      cases element with
      | field other =>
          simp at same
      | index other =>
          have key_eq := indexKey_eq closedOnce readable.2.1 (by simpa using same)
          exact Or.inl (by simp [key_eq])
      | anyIndex =>
          have key_eq := indexKey_eq closedOnce (by simp : ']' ∉ ['*']) (by simpa using same)
          exact Or.inl (by simp [key_eq])

theorem Misfit.longestBeginning {defect : Defect} {text : List Char} (misfit : Misfit defect text) :
    LongestBeginning [] text text := by
  refine ⟨pathText_nil, rfl, ?_⟩
  intro longer isPath begins
  rcases isPath.cases with rfl | ⟨piece, more, isElement, _, rfl⟩
  · exact Nat.le_refl 0
  · exact absurd ((List.prefix_append piece more).trans begins) (misfit.not_elementText isElement)

theorem Begins.longestBeginning {element : PathElement} {rest text before after : List Char}
    (begins : Begins element rest text) (beginning : LongestBeginning before after rest) :
    LongestBeginning (element.characters ++ before) after text := by
  have isElement : ElementText element.characters :=
    elementText_iff.mpr ⟨element, begins.readable, rfl⟩
  refine ⟨beginning.isPath.cons isElement, ?_, ?_⟩
  · rw [begins.text_eq, beginning.text_eq, List.append_assoc]
  intro longer isPath longerBegins
  rw [List.length_append]
  rcases isPath.cases with rfl | ⟨piece, more, isPiece, moreIsPath, rfl⟩
  · exact Nat.zero_le _
  rcases begins.elementText_cases isPiece moreIsPath longerBegins with rfl | short
  · rw [begins.text_eq, List.prefix_append_right_inj] at longerBegins
    have moreShort := beginning.longest more moreIsPath longerBegins
    simpa using moreShort
  · omega

/-- The reader refuses a text for the reason why what follows its longest beginning that is a path
does not fit. -/
theorem parseElements_eq_error_iff {text : List Char} {defect : Defect} :
    parseElements text = .error defect ↔
      ∃ before after, LongestBeginning before after text ∧ Misfit defect after := by
  have forward : ∀ {defect}, parseElements text = .error defect →
      ∃ before after, LongestBeginning before after text ∧ Misfit defect after := by
    induction text using text_induction with
    | atEnd =>
        intro defect refused
        rw [parseElements] at refused
        cases refused
    | @atElement element rest text begins inductionHypothesis =>
        intro defect refused
        rw [begins.parseElements_eq] at refused
        cases readRest : parseElements rest with
        | ok path =>
            rw [readRest] at refused
            cases refused
        | error reason =>
            rw [readRest] at refused
            cases refused
            obtain ⟨before, after, beginning, misfit⟩ := inductionHypothesis readRest
            exact ⟨_, after, begins.longestBeginning beginning, misfit⟩
    | @atMisfit reason text misfit =>
        intro defect refused
        rw [misfit.parseElements_eq] at refused
        cases refused
        exact ⟨[], text, misfit.longestBeginning, misfit⟩
  refine ⟨forward, ?_⟩
  rintro ⟨before, after, beginning, misfit⟩
  cases read : parseElements text with
  | ok path =>
      -- A text that is read is its own longest beginning, and then nothing follows that.
      have isPath : PathText text := pathText_iff.mpr ⟨path, parseElements_eq_ok_iff.mp read⟩
      have notLonger := beginning.longest text isPath List.prefix_rfl
      rw [beginning.text_eq, List.length_append] at notLonger
      have afterNil : after = [] := List.length_eq_zero_iff.mp (by omega)
      subst afterNil
      cases misfit
  | error reason =>
      obtain ⟨otherBefore, otherAfter, other, otherMisfit⟩ := forward read
      obtain ⟨_, rfl⟩ := beginning.unique other
      rw [misfit.unique otherMisfit]

/-! ## Paths and their texts -/

theorem parse_eq_ok_iff {text : String} {path : Path} :
    parse text = .ok path ↔
      text.toList = path.flatMap PathElement.characters ∧ ∀ element ∈ path, element.Readable := by
  rw [← parseElements_eq_ok_iff]
  unfold parse
  cases parseElements text.toList <;> simp

theorem parse_eq_error_iff {text : String} {error : Error} :
    parse text = .error error ↔
      ∃ defect, parseElements text.toList = .error defect ∧
        error = .invalidPath text defect.reason := by
  unfold parse
  cases parseElements text.toList with
  | ok path =>
      simp
  | error reason =>
      simp [eq_comm]

/-- A text is read if it is a sequence of element texts, as the path of readable elements that is
rendered like that; the paths of readable elements are those that their text is read back to.  Any
other text is quoted by its error, with the reason why what follows the longest beginning of the
text that is a path does not begin with an element. -/
theorem parse_exact_grammar (text : String) :
    ((∃ path, parse text = .ok path) ↔ PathText text.toList) ∧
    (∀ path, parse text = .ok path → render path = text) ∧
    (∀ path : Path, parse (render path) = .ok path ↔ ∀ element ∈ path, element.Readable) ∧
    (∀ error, parse text = .error error ↔
      ∃ before after defect, LongestBeginning before after text.toList ∧ Misfit defect after ∧
        error = .invalidPath text defect.reason ∧
        error.message? = some ("Invalid path '" ++ text ++ "': " ++ defect.reason)) := by
  refine ⟨?_, ?_, ?_, ?_⟩
  · simp only [parse_eq_ok_iff, pathText_iff]
  · intro path read
    rw [← String.toList_inj, toList_render, (parse_eq_ok_iff.mp read).1]
  · intro path
    simp [parse_eq_ok_iff, toList_render]
  · intro error
    rw [parse_eq_error_iff]
    constructor
    · rintro ⟨defect, refused, rfl⟩
      obtain ⟨before, after, beginning, misfit⟩ := parseElements_eq_error_iff.mp refused
      exact ⟨before, after, defect, beginning, misfit, rfl, rfl⟩
    · rintro ⟨before, after, defect, beginning, misfit, isError, _⟩
      exact ⟨defect, parseElements_eq_error_iff.mpr ⟨before, after, beginning, misfit⟩, isError⟩

end Path

end AliasTaint
