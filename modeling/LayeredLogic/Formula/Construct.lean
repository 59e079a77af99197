import LayeredLogic.Formula

/-!
# Building formulas

The operations that build a formula keep it reduced: negation flips literals and
cancels double negation; a junction absorbs or drops literals and takes the
operands of a junction of its own kind as its own, so that `(a & b) & c` has the
three operands `a, b, c`.
-/

namespace LayeredLogic

inductive FormulaError where
  | tooFewOperands (kind : Junction) (count : Nat)
  | emptyLabelSet (direction : Direction)
  deriving DecidableEq, Repr

def FormulaError.message : FormulaError → String
  | tooFewOperands kind count =>
      "`" ++ kind.operator.name ++ "` needs at least 2 operands, got " ++
        toString count
  | emptyLabelSet direction =>
      "graph operator `" ++ direction.operator.name ++
        "` needs at least one graph label"

namespace Formula

def neg : Formula → Formula
  | literal value => literal !value
  | not a => a
  | a => not a

/-- What a formula contributes to a junction: the operands of a junction of the
same kind, otherwise itself. -/
def operandsFor (k : Junction) : Formula → List Formula
  | junction j args => if j = k then args else [junction j args]
  | a => [a]

def join (k : Junction) : Formula → Formula → Formula
  | literal value, b => if value = k.identity then b else literal value
  | a, literal value => if value = k.identity then a else literal value
  | a, b => junction k (a.operandsFor k ++ b.operandsFor k)

def joinAll (k : Junction) (args : List Formula) : Formula :=
  args.foldl (join k) (literal k.identity)

def join? (k : Junction) (args : List Formula) : Except FormulaError Formula :=
  if args.length < 2 then .error (.tooFewOperands k args.length)
    else .ok (joinAll k args)

def graph? (direction : Direction) (labels : LabelSet) (edges : Option Interval)
    (arg : Formula) : Except FormulaError Formula :=
  if labels.isEmpty then .error (.emptyLabelSet direction)
  else .ok (unary (.graph direction labels edges) arg)

instance : Complement Formula := ⟨neg⟩
instance : AndOp Formula := ⟨join .and⟩
instance : OrOp Formula := ⟨join .or⟩

@[simp] theorem neg_literal (value : Bool) :
    neg (literal value) = literal !value := rfl

@[simp] theorem neg_not (a : Formula) : neg (not a) = a := rfl

@[simp] theorem join_identity_left (k : Junction) (a : Formula) :
    join k (literal k.identity) a = a := by
  simp [join]

@[simp] theorem join_absorbing_left (k : Junction) (a : Formula) :
    join k (literal !k.identity) a = literal !k.identity := by
  simp [join]

@[simp] theorem join_identity_right (k : Junction) (a : Formula) :
    join k a (literal k.identity) = a := by
  cases a <;> simp [join, eq_comm]

@[simp] theorem join_absorbing_right (k : Junction) (a : Formula) :
    join k a (literal !k.identity) = literal !k.identity := by
  cases a <;> simp [join]
  rename_i value
  cases value <;> cases k <;> simp [Junction.identity]

@[simp] theorem joinAll_nil (k : Junction) :
    joinAll k [] = literal k.identity := rfl

@[simp] theorem joinAll_singleton (k : Junction) (a : Formula) :
    joinAll k [a] = a := by
  simp [joinAll]

/-- What the identity literal has and joining keeps, a joined list has if its
members do. -/
theorem joinAll_induct {motive : Formula → Prop} {k : Junction}
    {args : List Formula} (identity : motive (literal k.identity))
    (join : ∀ a b, motive a → motive b → motive (join k a b))
    (h : ∀ a ∈ args, motive a) : motive (joinAll k args) :=
  List.foldlRecOn args (Formula.join k) identity fun acc hacc a ha =>
    join acc a hacc (h a ha)

end Formula

end LayeredLogic
