/-!
# Logic layers

The four layers form a small lattice: `base ⊂ ltl ⊂ strel` and
`base ⊂ ltl ⊂ stl_go`, with `strel` and `stl_go` incomparable.  A layer includes
every layer on the chain of its parents.  Identifiers are ASCII, and a layer
reserves the literal words and the keywords of its operators.
-/

namespace LayeredLogic

inductive Layer where
  | base
  | ltl
  | strel
  | stlGo
  deriving DecidableEq, Repr

namespace Layer

def all : List Layer := [base, ltl, strel, stlGo]

def parent? : Layer → Option Layer
  | base => none
  | ltl => some base
  | strel | stlGo => some ltl

def ancestry : Layer → List Layer
  | base => [base]
  | ltl => [ltl, base]
  | strel => [strel, ltl, base]
  | stlGo => [stlGo, ltl, base]

/-- Whether every operator of the second layer is an operator of the first. -/
def includes (layer other : Layer) : Bool := layer.ancestry.contains other

def name : Layer → String
  | base => "base"
  | ltl => "ltl"
  | strel => "strel"
  | stlGo => "stl_go"

def longName : Layer → String
  | base => "propositional"
  | ltl => "temporal"
  | strel => "spatial"
  | stlGo => "graph"

def tag : Layer → String
  | base => "Base"
  | ltl => "Ltl"
  | strel => "Strel"
  | stlGo => "StlGo"

def ofName? (text : String) : Option Layer :=
  all.find? fun layer => layer.name == text || layer.longName == text

@[simp] theorem mem_all (layer : Layer) : layer ∈ all := by
  cases layer <;> decide

theorem ancestry_eq (layer : Layer) :
    layer.ancestry = layer :: (layer.parent?.map ancestry).getD [] := by
  cases layer <;> rfl

@[simp] theorem includes_self (layer : Layer) :
    layer.includes layer = true := by
  cases layer <;> rfl

@[simp] theorem includes_base (layer : Layer) : layer.includes base = true := by
  cases layer <;> rfl

theorem includes_trans {a b c : Layer} (hab : a.includes b)
    (hbc : b.includes c) : a.includes c := by
  revert hab hbc
  cases a <;> cases b <;> cases c <;> decide

theorem includes_antisymm {a b : Layer} (hab : a.includes b)
    (hba : b.includes a) : a = b := by
  revert hab hba
  cases a <;> cases b <;> decide

@[simp] theorem ofName?_name (layer : Layer) :
    ofName? layer.name = some layer := by
  cases layer <;> rfl

@[simp] theorem ofName?_longName (layer : Layer) :
    ofName? layer.longName = some layer := by
  cases layer <;> rfl

end Layer

/-! ## Words -/

def isNameStart (c : Char) : Bool := c.isAlpha || c == '_'

def isNameChar (c : Char) : Bool := c.isAlphanum || c == '_'

def literalWords : List (List Char) :=
  ["TRUE".toList, "FALSE".toList, "true".toList, "false".toList]

namespace Layer

def keywords (layer : Layer) : List (List Char) :=
  (if layer.includes strel then
    ["everywhere".toList, "somewhere".toList, "escape".toList, "reach".toList]
      else []) ++
  (if layer.includes stlGo then ["in".toList, "out".toList] else [])

def reserves (layer : Layer) (word : List Char) : Bool :=
  literalWords.contains word || layer.keywords.contains word

end Layer

/-- The letters that are temporal operators even without white space after them.
-/
def isTemporalLetter (c : Char) : Bool :=
  c == 'X' || c == 'G' || c == 'F' || c == 'U'

end LayeredLogic
