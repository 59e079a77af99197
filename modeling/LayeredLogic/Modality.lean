import LayeredLogic.Interval
import LayeredLogic.LabelSet
import LayeredLogic.Operator

/-!
# Connectives and modalities

What stands at a node above its operands: a junction (`&`, `|`), a derived
connective (`->`, `<->`, `^`), a unary modality or a binary one.  Bounds and
labels are part of the modality.
-/

namespace LayeredLogic

inductive Junction where
  | and
  | or
  deriving DecidableEq, Repr

namespace Junction

def dual : Junction → Junction
  | and => or
  | or => and

/-- The literal that leaves a junction unchanged; its negation absorbs the whole
junction. -/
def identity : Junction → Bool
  | and => true
  | or => false

def operator : Junction → Operator
  | and => .and
  | or => .or

@[simp] theorem dual_dual (k : Junction) : k.dual.dual = k := by
  cases k <;> rfl

@[simp] theorem identity_dual (k : Junction) :
    k.dual.identity = !k.identity := by
  cases k <;> rfl

end Junction

inductive Connective where
  | implies
  | equiv
  | xor
  deriving DecidableEq, Repr

def Connective.operator : Connective → Operator
  | implies => .implies
  | equiv => .equiv
  | xor => .xor

/-- Which edges of a node a graph modality counts. -/
inductive Direction where
  | incoming
  | outgoing
  deriving DecidableEq, Repr

namespace Direction

def keyword : Direction → String
  | incoming => "in"
  | outgoing => "out"

def operator : Direction → Operator
  | incoming => .graphIncoming
  | outgoing => .graphOutgoing

end Direction

inductive UnaryModality where
  | next (steps : Option UInt64)
  | always (bounds : Option Interval)
  | eventually (bounds : Option Interval)
  | everywhere (bounds : Option Interval)
  | somewhere (bounds : Option Interval)
  | escape (bounds : Option Interval)
  | graph (direction : Direction) (labels : LabelSet) (edges : Option Interval)
  deriving DecidableEq, Repr

namespace UnaryModality

def operator : UnaryModality → Operator
  | next _ => .next
  | always _ => .always
  | eventually _ => .eventually
  | everywhere _ => .everywhere
  | somewhere _ => .somewhere
  | escape _ => .escape
  | graph direction _ _ => direction.operator

/-- The modality `m'` with `!m a` equivalent to `m' !a`, where the family has
one. -/
def dual? : UnaryModality → Option UnaryModality
  | next steps => some (next steps)
  | always i => some (eventually i)
  | eventually i => some (always i)
  | everywhere i => some (somewhere i)
  | somewhere i => some (everywhere i)
  | escape _ | graph _ _ _ => none

theorem dual?_cases {m m' : UnaryModality} (h : m.dual? = some m') :
    (∃ steps, m = next steps ∧ m' = next steps) ∨
      (∃ i, m = always i ∧ m' = eventually i) ∨
      (∃ i, m = eventually i ∧ m' = always i) ∨
      (∃ i, m = everywhere i ∧ m' = somewhere i) ∨
      ∃ i, m = somewhere i ∧ m' = everywhere i := by
  cases m with
  | escape | graph => cases h
  | next | always | eventually | everywhere | somewhere =>
      obtain rfl := Option.some.inj h
      simp

theorem dual?_of_dual? {m m' : UnaryModality} (h : m.dual? = some m') :
    m'.dual? = some m := by
  rcases dual?_cases h with ⟨_, rfl, rfl⟩ | ⟨_, rfl, rfl⟩ | ⟨_, rfl, rfl⟩ |
    ⟨_, rfl, rfl⟩ | ⟨_, rfl, rfl⟩ <;> rfl

theorem layer_of_dual? {m m' : UnaryModality} (h : m.dual? = some m') :
    m'.operator.layer = m.operator.layer := by
  rcases dual?_cases h with ⟨_, rfl, rfl⟩ | ⟨_, rfl, rfl⟩ | ⟨_, rfl, rfl⟩ |
    ⟨_, rfl, rfl⟩ | ⟨_, rfl, rfl⟩ <;> rfl

end UnaryModality

inductive BinaryModality where
  | until (bounds : Option Interval)
  | reach (bounds : Option Interval)
  deriving DecidableEq, Repr

namespace BinaryModality

def operator : BinaryModality → Operator
  | .until _ => .until
  | reach _ => .reach

def bounds : BinaryModality → Option Interval
  | .until i | reach i => i

end BinaryModality

end LayeredLogic
