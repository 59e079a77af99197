/-!
# Positions in a source text

A span is a range of byte offsets into the UTF-8 form of a text.  In a position
only a line feed ends a line; lines and columns count from one, columns in
characters.  A text that is printed line by line is cut at every line break, and
a carriage return with a line feed after it is one break.
-/

namespace LayeredLogic

structure Span where
  start : Nat
  stop : Nat
  deriving DecidableEq, Repr

structure Position where
  line : Nat
  column : Nat
  deriving DecidableEq, Repr

/-- The characters that take up exactly the first `offset` bytes, if there are
such. -/
def charsBefore? : Nat → List Char → Option (List Char)
  | 0, _ => some []
  | _ + 1, [] => none
  | offset + 1, c :: cs =>
      if c.utf8Size ≤ offset + 1 then
        (c :: ·) <$> charsBefore? (offset + 1 - c.utf8Size) cs
      else none

def Position.after (before : List Char) : Position where
  line := before.count '\n' + 1
  column := (before.reverse.takeWhile (· != '\n')).length + 1

/-- The position of a byte offset.  An offset past the end, or inside a
character, has the position of the end. -/
def Position.ofOffset (source : List Char) (offset : Nat) : Position :=
  .after ((charsBefore? offset source).getD source)

structure Diagnostic where
  span : Span
  position : Position
  message : String
  deriving DecidableEq, Repr

namespace Diagnostic

def ofSpan (source : String) (span : Span) (message : String) : Diagnostic :=
  ⟨span, .ofOffset source.toList span.start, message⟩

def text (d : Diagnostic) : String :=
  "syntax error at " ++ toString d.position.line ++ ":" ++
    toString d.position.column ++
    ": " ++ d.message

end Diagnostic

/-! ## Lines -/

def isLineBreak (c : Char) : Bool :=
  ['\n', '\x0B', '\x0C', '\r', '\u0085', '\u2028', '\u2029'].contains c

/-- Cuts a text behind each line break.  A break at the end opens no further
line. -/
def cutLines : List Char → List (List Char)
  | [] => []
  | '\r' :: '\n' :: rest => ['\r', '\n'] :: cutLines rest
  | c :: rest =>
      if isLineBreak c then [c] :: cutLines rest
      else match cutLines rest with
        | [] => [[c]]
        | line :: lines => (c :: line) :: lines

@[simp] theorem flatten_cutLines (text : List Char) :
    (cutLines text).flatten = text := by
  fun_induction cutLines text <;> simp_all

def linesOf (text : List Char) : List (List Char) :=
  if text.isEmpty then [[]] else cutLines text

@[simp] theorem flatten_linesOf (text : List Char) :
    (linesOf text).flatten = text := by
  unfold linesOf
  split
  · simp_all
  · exact flatten_cutLines text

structure Place where
  before : Nat
  column : Nat
  line : List Char
  deriving DecidableEq, Repr

/-- The place of an offset, counted in characters.  The end of the text belongs
to the last line. -/
def Place.find? (offset : Nat) : List (List Char) → Option Place
  | [] => none
  | [line] => if offset ≤ line.length then some ⟨0, offset, line⟩ else none
  | line :: lines =>
      if offset < line.length then some ⟨0, offset, line⟩
      else (find? (offset - line.length) lines).map fun place =>
        { place with before := place.before + 1 }

theorem Place.offset_of_find? {offset : Nat} {lines : List (List Char)}
    {place : Place} (h : find? offset lines = some place) :
    lines[place.before]? = some place.line ∧ place.column ≤ place.line.length ∧
      (lines.take place.before).flatten.length + place.column = offset := by
  induction lines generalizing offset place with
  | nil => simp [find?] at h
  | cons line lines ih =>
      cases lines with
      | nil =>
          simp only [find?, Option.ite_none_right_eq_some, Option.some.injEq]
            at h
          obtain ⟨le, rfl⟩ := h
          simp [le]
      | cons next lines =>
          simp only [find?] at h
          split at h
          · cases h
            simp only [List.getElem?_cons_zero, List.take_zero,
              List.flatten_nil, List.length_nil, true_and]
            omega
          · rename_i beyond
            obtain ⟨rest, found, rfl⟩ := Option.map_eq_some_iff.1 h
            obtain ⟨here, le, sum⟩ := ih found
            refine ⟨by simpa using here, le, ?_⟩
            simp only [List.take_succ_cons, List.flatten_cons,
              List.length_append]
            omega

end LayeredLogic
