import LayeredLogic.Layer
import LayeredLogic.Text.Position

/-!
# The nesting limit

How deeply the tree of a text may nest is estimated on the text, before it is
parsed.  Every open parenthesis counts, and so does every prefix, implication,
equivalence, exclusive-or or modal operator seen so far inside it; `&` and `|`
do not.  What stands in brackets, braces or quotes is skipped.
-/

namespace LayeredLogic

def maxNesting : Nat := 256

namespace Nesting

inductive Mark where
  | opening
  | closing
  | operators (count : Nat)
  deriving DecidableEq, Repr

/-- The part of the text that the scan is in.  The characters of a word so far
are in reverse; what is skipped ends with a closing character that does not
stand behind an escape. -/
inductive Mode where
  | between
  | word (start : Nat) (reversed : List Char)
  | skipping (close : Char) (escaped : Bool)
  deriving DecidableEq, Repr

/-- How many operators a word counts for.  The temporal letters at its front are
operators of their own. -/
def wordWeight (layer : Layer) (word : List Char) : Nat :=
  if layer.keywords.contains word then 1
  else if layer.includes .ltl then (word.takeWhile isTemporalLetter).length
  else 0

def mark? (c : Char) (rest : List Char) : Option Mark :=
  if c = '(' then some .opening
  else if c = ')' then some .closing
  else if c = '!' ∨ c = '~' ∨ c = '^' then some (.operators 1)
  else if c = '-' ∧ rest.head? = some '>' then some (.operators 1)
  else none

def enter (offset : Nat) (c : Char) : Mode :=
  if c = '[' then .skipping ']' false
  else if c = '{' then .skipping '}' false
  else if c = '"' then .skipping '"' false
  else if isNameStart c then .word offset [c]
  else .between

def skip (close : Char) (escaped : Bool) (c : Char) : Mode :=
  if escaped then .skipping close false
  else if close = '"' ∧ c = '\\' then .skipping close true
  else if c = close then .between
  else .skipping close false

def marks (layer : Layer) : Mode → Nat → List Char → List (Mark × Span)
  | .between, offset, c :: cs =>
      let stop := offset + c.utf8Size
      ((mark? c cs).map fun mark => (mark, ⟨offset, stop⟩)).toList ++
        marks layer (enter offset c) stop cs
  | .word start reversed, offset, c :: cs =>
      let stop := offset + c.utf8Size
      if isNameChar c then marks layer (.word start (c :: reversed)) stop cs
      else
        (.operators (wordWeight layer reversed.reverse), ⟨start, offset⟩) ::
          (((mark? c cs).map fun mark => (mark, ⟨offset, stop⟩)).toList ++
            marks layer (enter offset c) stop cs)
  | .skipping close escaped, offset, c :: cs =>
      marks layer (skip close escaped c) (offset + c.utf8Size) cs
  | .word start reversed, offset, [] =>
      [(.operators (wordWeight layer reversed.reverse), ⟨start, offset⟩)]
  | .between, _, [] | .skipping _ _, _, [] => []

/-- The operators counted in the innermost parenthesis and in each one around
it. -/
structure Levels where
  current : Nat
  outer : List Nat
  deriving DecidableEq, Repr

namespace Levels

def depth (levels : Levels) : Nat :=
  levels.outer.length + (levels.current + levels.outer.foldr (· + ·) 0)

/-- Counts a mark.  A parenthesis that closes none is ignored. -/
def count (levels : Levels) : Mark → Levels
  | .opening => ⟨0, levels.current :: levels.outer⟩
  | .closing =>
      match levels.outer with
      | [] => levels
      | level :: outer => ⟨level, outer⟩
  | .operators n => ⟨levels.current + n, levels.outer⟩

end Levels

def firstBeyond (limit : Nat) (levels : Levels) :
    List (Mark × Span) → Option Span
  | [] => none
  | (mark, span) :: rest =>
      let levels := levels.count mark
      if limit < levels.depth then some span else firstBeyond limit levels rest

def excess? (layer : Layer) (cs : List Char) : Option Span :=
  firstBeyond maxNesting ⟨0, []⟩ (marks layer .between 0 cs)

end Nesting

end LayeredLogic
