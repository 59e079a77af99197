import LayeredLogic.Formula

/-!
# Canonical text

Junctions and binary modalities stand in parentheses of their own; a derived
connective gets them in operand position only.  The text reads back as the same
formula as long as the formula holds no literal: `t` and `f` are read as
variables.
-/

namespace LayeredLogic

def Junction.symbol : Junction → List Char
  | and => ['&']
  | or => ['|']

def Connective.symbol : Connective → List Char
  | implies => ['-', '>']
  | equiv => ['<', '-', '>']
  | xor => ['^']

def stepsChars : Option UInt64 → List Char
  | some steps => '[' :: Nat.toDigits 10 steps.toNat ++ [']']
  | none => []

def LabelSet.chars (labels : LabelSet) : List Char :=
  '{' :: [','].intercalate (labels.names.map String.toList) ++ ['}']

def UnaryModality.chars : UnaryModality → List Char
  | next steps => 'X' :: stepsChars steps
  | always i => 'G' :: Interval.charsOf i
  | eventually i => 'F' :: Interval.charsOf i
  | everywhere i => "everywhere".toList ++ Interval.charsOf i
  | somewhere i => "somewhere".toList ++ Interval.charsOf i
  | escape i => "escape".toList ++ Interval.charsOf i
  | graph direction labels edges =>
      direction.keyword.toList ++ (labels.chars ++ Interval.charsOf edges)

def BinaryModality.chars : BinaryModality → List Char
  | .until i => 'U' :: Interval.charsOf i
  | reach i => "reach".toList ++ Interval.charsOf i

namespace Formula

/-- The text of a formula in operand position, given its text on its own. -/
def enclose : Formula → List Char → List Char
  | derived _ _ _, cs => '(' :: cs ++ [')']
  | _, cs => cs

mutual

def chars : Formula → List Char
  | literal true => ['t']
  | literal false => ['f']
  | var name => name.toList
  | not a => '!' :: enclose a a.chars
  | junction k args =>
      '(' :: (' ' :: k.symbol ++ [' ']).intercalate (charsAll args) ++ [')']
  | derived c a b =>
      enclose a a.chars ++ ' ' :: c.symbol ++ ' ' :: enclose b b.chars
  | unary m a => m.chars ++ ' ' :: enclose a a.chars
  | binary m a b =>
      '(' :: enclose a a.chars ++ ' ' :: m.chars ++
        ' ' :: enclose b b.chars ++ [')']

def charsAll : List Formula → List (List Char)
  | [] => []
  | a :: rest => enclose a a.chars :: charsAll rest

end

def operandChars (a : Formula) : List Char := enclose a a.chars

def text (f : Formula) : String := String.ofList f.chars

theorem charsAll_eq_map (args : List Formula) :
    charsAll args = args.map operandChars := by
  induction args with
  | nil => rfl
  | cons a rest ih => simp [charsAll, operandChars, ih]

end Formula

end LayeredLogic
