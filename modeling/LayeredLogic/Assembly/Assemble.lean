import LayeredLogic.Assembly.Rules
import LayeredLogic.Grammar.Parse

/-!
# Assembly

A tree is assembled from its leaves up: the parts from left to right, then the
rule itself.  The first failure in this order is the result.  A text is read by
the grammar of a layer and its tree assembled with that layer's rule table.
-/

namespace LayeredLogic

namespace RuleTable

variable {ε : Type}

def tokenValue (table : RuleTable ε) (t : Token) : Except ε Value :=
  match table.resolveToken t.kind with
  | some (_, handler) => handler t.text
  | none => .ok (.name t.text)

variable [Reports ε]

def ruleValue (table : RuleTable ε) (rule : String) (values : List Value) :
    Except ε Value :=
  match table.resolve rule with
  | some (_, handler) => Args.consume handler rule values
  | none => .error (Reports.ofAssembly (.unknownRule rule table.layer))

mutual

def value (table : RuleTable ε) : Tree → Except ε Value
  | .node rule parts _ => do table.ruleValue rule (← values table parts)

def values (table : RuleTable ε) : List Part → Except ε (List Value)
  | [] => .ok []
  | .tree t :: rest => do
      let v ← value table t
      return v :: (← values table rest)
  | .token t :: rest => do
      let v ← table.tokenValue t
      return v :: (← values table rest)
  | .absent :: rest => do return .absent :: (← values table rest)

end

def assemble (table : RuleTable ε) (t : Tree) : Except ε Formula := do
  let v ← table.value t
  match v with
  | .formula f => return f
  | other => throw (Reports.ofAssembly (.notAFormula t.rule other.kind))

end RuleTable

/-! ## From text to formula -/

inductive ReadError where
  | unknownLayer (name : String)
  | malformed (error : SyntaxError)
  | assembly (error : AssemblyError)
  deriving DecidableEq, Repr

def ReadError.message : ReadError → String
  | unknownLayer name =>
      "unknown grammar layer `" ++ name ++ "`, expected one of: " ++
        ", ".intercalate (Layer.all.map Layer.name)
  | malformed error => error.message
  | assembly error => error.message

instance : Reports ReadError := ⟨.assembly⟩

namespace Formula

def parse (layer : Layer) (source : String) : Except ReadError Formula := do
  let t ← (Tree.parse layer source).mapError .malformed
  ((RuleTable.ofLayer layer).assemble t).mapError .assembly

def parseIn (layerName source : String) : Except ReadError Formula :=
  match Layer.ofName? layerName with
  | some layer => parse layer source
  | none => .error (.unknownLayer layerName)

end Formula

end LayeredLogic
