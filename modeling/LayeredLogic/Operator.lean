import LayeredLogic.Layer

/-!
# Operators

The tags of the eighteen node kinds, each introduced by one layer.
-/

namespace LayeredLogic

inductive Operator where
  | literal
  | variable
  | not
  | and
  | or
  | implies
  | equiv
  | xor
  | next
  | always
  | eventually
  | until
  | everywhere
  | somewhere
  | reach
  | escape
  | graphIncoming
  | graphOutgoing
  deriving DecidableEq, Repr

namespace Operator

def all : List Operator :=
  [literal, .variable, not, and, or, implies, equiv, xor, next, always,
    eventually, .until,
    everywhere, somewhere, reach, escape, graphIncoming, graphOutgoing]

def name : Operator → String
  | literal => "Literal"
  | .variable => "Variable"
  | not => "Not"
  | and => "And"
  | or => "Or"
  | implies => "Implies"
  | equiv => "Equiv"
  | xor => "Xor"
  | next => "Next"
  | always => "Always"
  | eventually => "Eventually"
  | .until => "Until"
  | everywhere => "Everywhere"
  | somewhere => "Somewhere"
  | reach => "Reach"
  | escape => "Escape"
  | graphIncoming => "GraphIncoming"
  | graphOutgoing => "GraphOutgoing"

def layer : Operator → Layer
  | literal | .variable | not | and | or | implies | equiv | xor => .base
  | next | always | eventually | .until => .ltl
  | everywhere | somewhere | reach | escape => .strel
  | graphIncoming | graphOutgoing => .stlGo

def isModal (op : Operator) : Bool := op.layer != .base

theorem mem_all (op : Operator) : op ∈ all := by
  cases op <;> decide

end Operator

end LayeredLogic
