import LayeredLogic.Assembly.Table
import LayeredLogic.Grammar.Tree
import LayeredLogic.Text.Quoted

/-!
# The rules of the layers

How each rule of the grammars makes a formula, an interval or a label set of its
parts.  A layer's table registers its own operators and extends the table of the
layer below.
-/

namespace LayeredLogic

namespace Handler

def liftFormula {α : Type} : Except FormulaError α → Take α
  | .ok a => return a
  | .error e => throw (.formula e)

def liftInterval {α : Type} : Except IntervalError α → Take α
  | .ok a => return a
  | .error e => throw (.interval e)

def negation : Take Value := do
  return .formula (Formula.neg (← Args.formula))

def junction (k : Junction) : Take Value := do
  let args ← Args.rest Args.formula
  return .formula (← liftFormula (Formula.join? k args))

def derived (c : Connective) : Take Value := do
  let lhs ← Args.formula
  let rhs ← Args.formula
  return .formula (.derived c lhs rhs)

def atom : Take Value := do
  return .formula (.var (← Args.name))

def trueSpellings : List String := ["1", "TRUE", "true"]

def literal : Take Value := do
  return .formula (.literal (trueSpellings.contains (← Args.name)))

def interval : Take Value := do
  let start ← Args.integer
  let stop ← Args.integer
  return .interval (← liftInterval (Interval.ofSigned start stop))

/-- The step count must not be negative, which is told before the operand is
looked at. -/
def next : Take Value := do
  let count ← liftInterval (readBound? (← Args.integer))
  return .formula (.unary (.next count) (← Args.formula))

def unary (modality : Option Interval → UnaryModality) : Take Value := do
  let bounds ← Args.interval
  return .formula (.unary (modality bounds) (← Args.formula))

def binary (modality : Option Interval → BinaryModality) : Take Value := do
  let lhs ← Args.formula
  let bounds ← Args.interval
  return .formula (.binary (modality bounds) lhs (← Args.formula))

def graphList : Take Value := do
  return .labels (.ofList (← Args.rest Args.name))

def graph (direction : Direction) : Take Value := do
  let labels ← Args.labels
  let edges ← Args.interval
  let arg ← Args.formula
  return .formula (← liftFormula (Formula.graph? direction labels edges arg))

end Handler

namespace TokenHandler

def plain : TokenHandler := fun text => .ok (.name text)

def quoted : TokenHandler := fun text =>
  .ok (.name (String.ofList (Quoted.decode text.toList)))

def integer : TokenHandler := fun text =>
  match Numeral.read text.toList with
  | .ok value => .ok (.integer value)
  | .error reason => .error (.invalidNumber text reason)

end TokenHandler

namespace RuleTable

def base : RuleTable :=
  new .base
    |>.rule Rule.negation.name .negation
    |>.rule Rule.conjunction.name (.junction .and)
    |>.rule Rule.disjunction.name (.junction .or)
    |>.rule Rule.implies.name (.derived .implies)
    |>.rule Rule.equiv.name (.derived .equiv)
    |>.rule Rule.xor.name (.derived .xor)
    |>.rule Rule.variable.name .atom
    |>.rule Rule.literal.name .literal
    |>.rule Rule.interval.name .interval
    |>.token TokenKind.name.tag .plain
    |>.token TokenKind.literal.tag .plain
    |>.token TokenKind.quoted.tag .quoted
    |>.token TokenKind.integer.tag .integer

def ltl : RuleTable :=
  extending .ltl base
    |>.rule Rule.next.name .next
    |>.rule Rule.always.name (.unary .always)
    |>.rule Rule.eventually.name (.unary .eventually)
    |>.rule Rule.until.name (.binary .until)

def strel : RuleTable :=
  extending .strel ltl
    |>.rule Rule.everywhere.name (.unary .everywhere)
    |>.rule Rule.somewhere.name (.unary .somewhere)
    |>.rule Rule.escape.name (.unary .escape)
    |>.rule Rule.reach.name (.binary .reach)

def stlGo : RuleTable :=
  extending .stlGo ltl
    |>.rule Rule.graphList.name .graphList
    |>.rule Rule.graphIncoming.name (.graph .incoming)
    |>.rule Rule.graphOutgoing.name (.graph .outgoing)

def ofLayer : Layer → RuleTable
  | .base => base
  | .ltl => ltl
  | .strel => strel
  | .stlGo => stlGo

end RuleTable

end LayeredLogic
