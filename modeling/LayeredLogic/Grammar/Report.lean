import LayeredLogic.Text.Position
import LayeredLogic.Text.CodePoint

/-!
# Reports

A report prints the line of the source in which a diagnostic's span begins and
marks the span below it: a rule under its characters, with an arm in the middle
that leads to a remark.  Its lines end at every line break and not only at a
line feed, so its line number may be above that of the diagnostic's position;
the end of the source belongs to the last line, so it may also be below.

The source is ASCII and the span lies in one line, so that a byte offset counts
characters.
-/

namespace LayeredLogic

def tabStop : Nat := 4

/-- The columns that a character takes up.  A tab takes those up to the next tab
stop, where every character before it counts as one column. -/
def columnWidth (index : Nat) (c : Char) : Nat :=
  if c = '\t' then tabStop - index % tabStop else 1

theorem columnWidth_pos (index : Nat) (c : Char) : 0 < columnWidth index c := by
  unfold columnWidth tabStop
  split <;> omega

def trimLine (line : List Char) : List Char :=
  (line.reverse.dropWhile isBlank).reverse

def drawLine (line : List Char) : List Char :=
  line.zipIdx.flatMap fun (c, index) =>
    if isBlank c then List.replicate (columnWidth index c) ' ' else [c]

/-- A row below the characters of a line, with a stroke under each of the first
`count`.  A stroke is a first character and the one that fills up the columns
left; beyond the end of the line it takes one column. -/
def drawBelow (above : List Char) (count : Nat) (stroke : Nat → Char × Char) :
    List Char :=
  (List.range count).flatMap fun index =>
    let (first, fill) := stroke index
    first :: List.replicate
      ((above[index]?).elim 1 (columnWidth index) - 1) fill

/-! ## Marks -/

structure Mark where
  start : Nat
  stop : Nat
  deriving DecidableEq, Repr

namespace Mark

def middle (mark : Mark) : Nat := mark.start + (mark.stop - mark.start) / 2

/-- The rule under the marked characters, with a branch in the middle.  A mark
of no character is a bar. -/
def rule (mark : Mark) (index : Nat) : Char × Char :=
  if index = mark.middle then if mark.start < mark.stop then ('┬', '─')
    else ('│', ' ')
  else if mark.start ≤ index ∧ index < mark.stop then ('─', '─')
  else (' ', ' ')

def arm (mark : Mark) (index : Nat) : Char × Char :=
  if index < mark.middle then (' ', ' ')
  else if index = mark.middle then ('╰', '─')
  else ('─', '─')

def reach (mark : Mark) : Nat := mark.stop + 2

end Mark

/-! ## The report -/

namespace Diagnostic

def headingLines (heading : String) : List String :=
  (heading.splitOn "\n").map fun line =>
    match line.toList.reverse with
    | '\r' :: rest => String.ofList rest.reverse
    | _ => line

/-- The rows that show a line and a mark in it.  A mark that runs past the line,
as one can at the end of the source, leaves one row that shows nothing. -/
def markedLine (number margin : String) (line : List Char) (mark : Mark) :
    List String :=
  let shown := trimLine line
  if mark.stop ≤ line.length then
    [" " ++ number ++ " │ " ++ String.ofList (drawLine shown),
      margin ++ "│ " ++ String.ofList (drawBelow shown mark.reach mark.rule),
      margin ++ "│ " ++ String.ofList (drawBelow shown mark.reach mark.arm) ++
        " the error occurred here"]
  else [margin ++ "│ "]

def excerpt (span : Span) (place : Place) : List String :=
  let number := toString (place.before + 1)
  let margin := String.ofList (List.replicate (number.length + 2) ' ')
  let mark : Mark := ⟨place.column, place.column + (span.stop - span.start)⟩
  [margin ++ "╭─[ <unknown>:" ++ number ++ ":" ++ toString
    (place.column + 1) ++ " ]",
    margin ++ "│"] ++
    markedLine number margin place.line mark ++
    [String.ofList (List.replicate (number.length + 2) '─') ++ "╯"]

/-- The lines of a report.  A span whose first or last character lies beyond the
end of the source leaves the heading alone; the end itself still counts as a
character. -/
def report (source : String) (d : Diagnostic) : List String :=
  let lines := linesOf source.toList
  let final := max d.span.start (d.span.stop - 1)
  headingLines ("Error: " ++ d.message) ++
    match Place.find? d.span.start lines, Place.find? final lines with
    | some place, some _ => excerpt d.span place
    | _, _ => []

end Diagnostic

end LayeredLogic
