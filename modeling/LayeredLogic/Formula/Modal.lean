import LayeredLogic.Formula.Lookahead

/-!
# Modal nodes

A modal node taken apart into its modality and operands, so that it can be
rebuilt over mapped operands without asking which modality it is.  The map may
have effects; operands are mapped from left to right.
-/

namespace LayeredLogic

inductive Modal where
  | unary (modality : UnaryModality) (arg : Formula)
  | binary (modality : BinaryModality) (lhs rhs : Formula)
  deriving DecidableEq, Repr

namespace Modal

def toFormula : Modal → Formula
  | unary m a => .unary m a
  | binary m a b => .binary m a b

def operator (node : Modal) : Operator := node.toFormula.operator

def operands (node : Modal) : List Formula := node.toFormula.children

def lookahead : Modal → Horizon
  | unary m _ => m.lookahead
  | binary m _ _ => m.lookahead

def mapOperandsM {μ : Type → Type} [Monad μ] (f : Formula → μ Formula) :
    Modal → μ Formula
  | unary m a => do return .unary m (← f a)
  | binary m a b => do
      let a ← f a
      let b ← f b
      return .binary m a b

/-- The dual modality over mapped operands.  Without a dual nothing is mapped.
-/
def dualM? {μ : Type → Type} [Monad μ] (f : Formula → μ Formula) :
    Modal → μ (Option Formula)
  | unary m a =>
      match m.dual? with
      | some m' => do return some (.unary m' (← f a))
      | none => return none
  | binary _ _ _ => return none

def mapOperands (f : Formula → Formula) (node : Modal) : Formula :=
  Id.run (node.mapOperandsM fun a => pure (f a))

def dual? (f : Formula → Formula) (node : Modal) : Option Formula :=
  Id.run (node.dualM? fun a => pure (f a))

@[simp] theorem mapOperands_unary (f : Formula → Formula) (m : UnaryModality)
    (a : Formula) :
    mapOperands f (unary m a) = .unary m (f a) := rfl

@[simp] theorem mapOperands_binary (f : Formula → Formula) (m : BinaryModality)
    (a b : Formula) :
    mapOperands f (binary m a b) = .binary m (f a) (f b) := rfl

@[simp] theorem dual?_binary (f : Formula → Formula) (m : BinaryModality)
    (a b : Formula) :
    dual? f (binary m a b) = none := rfl

@[simp] theorem dual?_unary (f : Formula → Formula) (m : UnaryModality)
    (a : Formula) :
    dual? f (unary m a) = m.dual?.map fun m' => .unary m' (f a) := by
  cases m <;> rfl

end Modal

def Formula.asModal? : Formula → Option Modal
  | unary m a => some (.unary m a)
  | binary m a b => some (.binary m a b)
  | _ => none

theorem Formula.asModal?_eq_some_iff {f : Formula} {node : Modal} :
    f.asModal? = some node ↔ node.toFormula = f := by
  cases f <;> cases node <;> simp [asModal?, Modal.toFormula, eq_comm]

end LayeredLogic
