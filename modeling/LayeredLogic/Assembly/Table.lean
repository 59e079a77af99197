import LayeredLogic.Assembly.Args
import LayeredLogic.Text.Escape

/-!
# Rule tables

A table gives a handler to each rule and token kind that it knows and hands
every other name on to the table that it extends.  Of two handlers under one
name in one table the later is in force.
-/

namespace LayeredLogic

abbrev Handler (ε : Type := AssemblyError) : Type :=
  ExceptT ε (StateM Args) Value

abbrev TokenHandler (ε : Type := AssemblyError) : Type :=
  String → Except ε Value

/-- The handlers that one table registers itself, the latest first. -/
structure Registry (ε : Type := AssemblyError) where
  layer : Layer
  rules : List (String × Handler ε)
  tokens : List (String × TokenHandler ε)

structure RuleTable (ε : Type := AssemblyError) where
  own : Registry ε
  fallback : List (Registry ε)

namespace RuleTable

variable {ε : Type}

def new (layer : Layer) : RuleTable ε := ⟨⟨layer, [], []⟩, []⟩

def extending (layer : Layer) (table : RuleTable ε) : RuleTable ε :=
  ⟨⟨layer, [], []⟩, table.own :: table.fallback⟩

def rule (table : RuleTable ε) (name : String) (handler : Handler ε) :
    RuleTable ε :=
  { table with
    own := { table.own with rules := (name, handler) :: table.own.rules } }

def token (table : RuleTable ε) (kind : String) (handler : TokenHandler ε) :
    RuleTable ε :=
  { table with
    own := { table.own with tokens := (kind, handler) :: table.own.tokens } }

def layer (table : RuleTable ε) : Layer := table.own.layer

def chain (table : RuleTable ε) : List (Registry ε) :=
  table.own :: table.fallback

/-- The handler of a rule, with the layer of the table that provides it. -/
def resolve (table : RuleTable ε) (name : String) :
    Option (Layer × Handler ε) :=
  table.chain.findSome? fun registry =>
    (registry.rules.lookup name).map fun handler => (registry.layer, handler)

def resolveToken (table : RuleTable ε) (kind : String) :
    Option (Layer × TokenHandler ε) :=
  table.chain.findSome? fun registry =>
    (registry.tokens.lookup kind).map fun handler => (registry.layer, handler)

def nameList (names : List String) : String :=
  "[" ++ ", ".intercalate
    ((LabelSet.ofList names).names.map Escape.quote) ++ "]"

def description (table : RuleTable ε) : String :=
  let fallback := match table.fallback with
    | [] => "None"
    | registry :: _ => "Some(" ++ registry.layer.tag ++ ")"
  "RuleTable \x7b layer: " ++ table.layer.tag ++
    ", rules: " ++ nameList (table.own.rules.map Prod.fst) ++
    ", tokens: " ++ nameList (table.own.tokens.map Prod.fst) ++
    ", fallback: " ++ fallback ++ " \x7d"

@[simp] theorem chain_extending (layer : Layer) (table : RuleTable ε) :
    (extending layer table).chain = ⟨layer, [], []⟩ :: table.chain := rfl

end RuleTable

end LayeredLogic
