import LayeredLogic.Grammar.Lexeme

/-!
# The grammar of a layer

From the loosest to the tightest: `<->` and `^` group to the left, `->` to the
right, a chain of `|` or `&` is one node, and the binary modalities group to the
left.  A layer that extends another adds its own prefix and binary modalities
and leaves all else as it is.

The levels are readers over a reader of operands; the recursion through
parentheses and prefix operators is in `operand` alone, one step for each of
them.
-/

namespace LayeredLogic

namespace Tree

def pair (rule : Rule) (lhs rhs : Tree) : Tree :=
  node rule.name [.tree lhs, .tree rhs] ⟨lhs.span.start, rhs.span.stop⟩

def modal (rule : Rule) (lhs : Tree) (interval : Option Tree) (rhs : Tree) :
    Tree :=
  node rule.name [.tree lhs, .ofTree? interval, .tree rhs]
    ⟨lhs.span.start, rhs.span.stop⟩

/-- One node for a whole chain; a single operand stands for itself. -/
def chain (rule : Rule) (first : Tree) (others : List Tree) : Tree :=
  match others.getLast? with
  | none => first
  | some last =>
      node rule.name (.tree first :: others.map .tree)
        ⟨first.span.start, last.span.stop⟩

def groupLeft (rule : Rule) (first : Tree) (others : List Tree) : Tree :=
  others.foldl (pair rule) first

def groupRight (rule : Rule) (first : Tree) : List Tree → Tree
  | [] => first
  | second :: others => pair rule first (groupRight rule second others)

end Tree

namespace Reader

def interval : Reader Tree := do
  let (parts, span) ← located do
    symbol ['[']
    let start ← optional integer
    symbol [',']
    let stop ← optional integer
    symbol [']']
    return [Part.ofToken? start, Part.ofToken? stop]
  return .node Rule.interval.name parts span

def steps : Reader Token := do
  symbol ['[']
  let count ← integer
  symbol [']']
  return count

def graphList : Reader Tree := do
  let ((first, others), span) ← located do
    symbol ['{']
    let names ← sepBy (token .name identifier) (symbol [','])
    symbol ['}']
    return names
  return .node Rule.graphList.name (.token first :: others.map .token) span

def literalAtom : Reader Tree := do
  let (t, span) ← located (token .literal literalLexeme)
  return .node Rule.literal.name [.token t] span

def variableAtom (layer : Layer) : Reader Tree := do
  let (t, span) ← located
      (orElse (token .name (nameLexeme layer)) (token .quoted quoted))
  return .node Rule.variable.name [.token t] span

def parenthesized (formula : Reader Tree) : Reader Tree := do
  symbol ['(']
  let t ← formula
  symbol [')']
  return t

/-! ## Prefix operators -/

def node (rule : Rule) (parts : Reader (List Part)) : Reader Tree := do
  let (parts, span) ← located parts
  return .node rule.name parts span

def negation (operand : Reader Tree) : Reader Tree :=
  node .negation do
    let _ ← padded (satisfy fun c => c == '!' || c == '~')
    return [.tree (← operand)]

def next (operand : Reader Tree) : Reader Tree :=
  node .next do
    symbol ['X']
    let count ← optional steps
    return [.ofToken? count, .tree (← operand)]

def bounded (rule : Rule) (operator : Reader Unit) (operand : Reader Tree) :
    Reader Tree :=
  node rule do
    operator
    let bounds ← optional interval
    return [.ofTree? bounds, .tree (← operand)]

def graph (rule : Rule) (word : List Char) (operand : Reader Tree) :
    Reader Tree :=
  node rule do
    keyword word
    let labels ← graphList
    let edges ← optional interval
    return [.tree labels, .ofTree? edges, .tree (← operand)]

def temporal (operand : Reader Tree) : List (Reader Tree) :=
  [next operand, bounded .always (symbol ['G']) operand,
    bounded .eventually (symbol ['F']) operand]

def spatial (operand : Reader Tree) : List (Reader Tree) :=
  [bounded .everywhere (keyword "everywhere".toList) operand,
    bounded .somewhere (keyword "somewhere".toList) operand,
    bounded .escape (keyword "escape".toList) operand]

def graphical (operand : Reader Tree) : List (Reader Tree) :=
  [graph .graphIncoming "in".toList operand,
    graph .graphOutgoing "out".toList operand]

def prefixed (layer : Layer) (operand : Reader Tree) : List (Reader Tree) :=
  negation operand ::
    ((if layer.includes .ltl then temporal operand else []) ++
      (if layer.includes .strel then spatial operand else []) ++
      (if layer.includes .stlGo then graphical operand else []))

/-! ## Infix operators -/

def binaryModality (layer : Layer) : Reader Rule :=
  firstOf <|
    (do
      symbol ['U']
      return Rule.until) ::
    (if layer.includes .strel then
      [do
        keyword "reach".toList
        return Rule.reach]
    else [])

def modal (layer : Layer) (operand : Reader Tree) : Reader Tree :=
  if layer.includes .ltl then do
    let first ← operand
    let others ← many do
      let rule ← binaryModality layer
      let bounds ← optional interval
      return (rule, bounds, ← operand)
    return others.foldl
      (fun lhs (rule, bounds, rhs) => .modal rule lhs bounds rhs) first
  else operand

def level (sign : List Char) (group : Tree → List Tree → Tree)
    (tighter : Reader Tree) :
    Reader Tree := do
  let (first, others) ← sepBy tighter (symbol sign)
  return group first others

def formula (layer : Layer) (operand : Reader Tree) : Reader Tree :=
  modal layer operand
    |> level ['&'] (.chain .conjunction)
    |> level ['|'] (.chain .disjunction)
    |> level ['^'] (.groupLeft .xor)
    |> level ['-', '>'] (.groupRight .implies)
    |> level ['<', '-', '>'] (.groupLeft .equiv)

/-- An operand under at most the given number of parentheses and prefix
operators.  The literal comes first, so that `FALSE` is not read as `F ALSE`. -/
def operand (layer : Layer) : Nat → Reader Tree
  | 0 => fail
  | n + 1 =>
      firstOf <| literalAtom :: prefixed layer (operand layer n) ++
        [parenthesized (formula layer (operand layer n)), variableAtom layer]

/-- A whole text.  No text holds more parentheses and operators than characters.
-/
def sentence (layer : Layer) : Reader Tree := fun c =>
  (do
    let t ← padded (formula layer (operand layer (c.rest.length + 1)))
    finish
    return t : Reader Tree) c

end Reader

end LayeredLogic
