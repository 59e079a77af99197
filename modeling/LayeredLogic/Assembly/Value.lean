import LayeredLogic.Formula.Construct
import LayeredLogic.Text.Numeral

/-!
# Values of the parts of a tree

While a tree is assembled every part has a value, and a rule takes values of the
kinds it expects.
-/

namespace LayeredLogic

inductive ValueKind where
  | formula
  | interval
  | integer
  | name
  | labels
  | absent
  deriving DecidableEq, Repr

def ValueKind.text : ValueKind → String
  | formula => "a formula"
  | interval => "an interval"
  | integer => "an integer"
  | name => "a name"
  | labels => "a graph list"
  | absent => "nothing"

inductive Value where
  | formula (formula : Formula)
  | interval (interval : Interval)
  | integer (value : Int64)
  | name (name : String)
  | labels (labels : LabelSet)
  | absent
  deriving DecidableEq, Repr

namespace Value

def kind : Value → ValueKind
  | formula _ => .formula
  | interval _ => .interval
  | integer _ => .integer
  | name _ => .name
  | labels _ => .labels
  | absent => .absent

def formula? : Value → Option Formula
  | formula f => some f
  | _ => none

def interval? : Value → Option (Option Interval)
  | interval i => some (some i)
  | absent => some none
  | _ => none

def integer? : Value → Option (Option Int64)
  | integer n => some (some n)
  | absent => some none
  | _ => none

def name? : Value → Option String
  | name s => some s
  | _ => none

def labels? : Value → Option LabelSet
  | labels ls => some ls
  | _ => none

end Value

inductive AssemblyError where
  | unknownRule (rule : String) (layer : Layer)
  | missingPart (rule : String) (index : Nat) (expected : ValueKind)
  | unexpectedPart (rule : String) (index : Nat) (expected found : ValueKind)
  | trailingParts (rule : String) (count : Nat)
  | notAFormula (rule : String) (found : ValueKind)
  | invalidNumber (text : String) (reason : NumeralError)
  | formula (error : FormulaError)
  | interval (error : IntervalError)
  deriving DecidableEq, Repr

def AssemblyError.message : AssemblyError → String
  | unknownRule rule layer =>
      "no rule named `" ++ rule ++ "` in the `" ++ layer.name ++
        "` rule table or in any table it extends"
  | missingPart rule index expected =>
      "rule `" ++ rule ++ "` is missing child #" ++ toString index ++
        " (" ++ expected.text ++ ")"
  | unexpectedPart rule index expected found =>
      "rule `" ++ rule ++ "` expected " ++ expected.text ++ " as child #" ++
        toString index ++
        ", found " ++ found.text
  | trailingParts rule count =>
      "rule `" ++ rule ++ "` received " ++ toString count ++
        " children, more than it consumes"
  | notAFormula rule found =>
      "rule `" ++ rule ++ "` produced " ++ found.text ++
        " where a formula was expected"
  | invalidNumber text reason =>
      "`" ++ text ++ "` is not a valid integer: " ++ reason.message
  | formula error => error.message
  | interval error => error.message

/-- Failures among which those of the assembly are found. -/
class Reports (ε : Type) where
  ofAssembly : AssemblyError → ε

instance : Reports AssemblyError := ⟨id⟩

end LayeredLogic
