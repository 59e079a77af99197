import LayeredLogic.Formula.Expand

/-!
# Negation normal form

`normalize true f` is the normal form of `f` and `normalize false f` that of its
negation.  Negations go down through junctions by De Morgan's laws and through a
modality to its dual; a modality without a dual stops the descent and stays an
atom, its operands normalized on their own.  A derived connective is expanded
where it is met.

The recursion ends because expansion leaves no derived connective: it is entered
at most once on every chain of calls, and every other call is on an operand.
-/

namespace LayeredLogic

def Junction.signed (positive : Bool) (k : Junction) : Junction :=
  if positive then k else k.dual

namespace Formula

/-- The formula itself under positive polarity, its negation under negative. -/
def signed (positive : Bool) (a : Formula) : Formula :=
  if positive then a else neg a

/-! ## The measure -/

theorem hasDerived_of_mem_children {f a : Formula} (h : a ∈ f.children)
    (ha : a.hasDerived = true) : f.hasDerived = true := by
  cases f with
  | literal | var => simp [children] at h
  | not | unary =>
      obtain rfl := List.mem_singleton.mp h
      exact ha
  | junction k args =>
      rw [hasDerived, anyDerived_eq_any]
      exact List.any_eq_true.mpr ⟨a, h, ha⟩
  | derived => rfl
  | binary m b c =>
      rcases List.mem_cons.mp h with rfl | h
      · simp [hasDerived, ha]
      · obtain rfl := List.mem_singleton.mp h
        simp [hasDerived, ha]

/-- Whether a derived connective is left, then the size. -/
def pending (f : Formula) : Nat × Nat := (f.hasDerived.toNat, f.size)

abbrev Precedes (f g : Formula) : Prop :=
  Prod.Lex (· < ·) (· < ·) f.pending g.pending

theorem precedes_of_mem_children {f a : Formula} (h : a ∈ f.children) :
    a.Precedes f := by
  have hsize := size_lt_of_mem_children h
  have hder := hasDerived_of_mem_children h
  unfold Precedes pending
  cases ha : a.hasDerived <;> cases hf : f.hasDerived
  · exact Prod.Lex.right _ hsize
  · exact Prod.Lex.left _ _ Nat.zero_lt_one
  · simp [ha, hf] at hder
  · exact Prod.Lex.right _ hsize

theorem precedes_expand_derived (c : Connective) (a b : Formula) :
    (derived c a b).expand.Precedes (derived c a b) := by
  unfold Precedes pending
  rw [hasDerived_expand]
  exact Prod.Lex.left _ _ Nat.zero_lt_one

/-! ## The normal form -/

/-- The normal form of a formula, or of its negation when `positive` is false.
-/
def normalize (positive : Bool) (f : Formula) : Formula :=
  match f with
  | literal value => signed positive (literal value)
  | var name => signed positive (var name)
  | not a => normalize (!positive) a
  | junction k args =>
      joinAll (k.signed positive)
        (args.attach.map fun ⟨a, _⟩ => normalize positive a)
  | derived c a b => normalize positive (derived c a b).expand
  | unary m a =>
      if positive then unary m (normalize true a)
      else match m.dual? with
        | some m' => unary m' (normalize false a)
        | none => not (unary m (normalize true a))
  | binary m a b =>
      signed positive (binary m (normalize true a) (normalize true b))
termination_by f.pending
decreasing_by
  · exact precedes_of_mem_children (by simp [children])
  · exact precedes_of_mem_children (by simpa [children])
  · exact precedes_expand_derived c a b
  all_goals exact precedes_of_mem_children (by simp [children])

def nnf (f : Formula) : Formula := normalize true f

def negatedNnf (f : Formula) : Formula := normalize false f

@[simp] theorem normalize_literal (positive value : Bool) :
    normalize positive (literal value) = signed positive (literal value) := by
  rw [normalize]

@[simp] theorem normalize_var (positive : Bool) (name : String) :
    normalize positive (var name) = signed positive (var name) := by
  rw [normalize]

@[simp] theorem normalize_not (positive : Bool) (a : Formula) :
    normalize positive (not a) = normalize (!positive) a := by
  rw [normalize]

@[simp] theorem normalize_junction (positive : Bool) (k : Junction)
    (args : List Formula) :
    normalize positive (junction k args) =
      joinAll (k.signed positive) (args.map (normalize positive)) := by
  rw [normalize]
  simp

theorem normalize_derived (positive : Bool) (c : Connective) (a b : Formula) :
    normalize positive (derived c a b) =
      normalize positive (derived c a b).expand := by
  rw [normalize]

@[simp] theorem normalize_unary_true (m : UnaryModality) (a : Formula) :
    normalize true (unary m a) = unary m (normalize true a) := by
  rw [normalize]
  simp

theorem normalize_unary_of_dual {m m' : UnaryModality} (h : m.dual? = some m')
    (a : Formula) :
    normalize false (unary m a) = unary m' (normalize false a) := by
  rw [normalize]
  simp [h]

theorem normalize_unary_of_no_dual {m : UnaryModality} (h : m.dual? = none)
    (a : Formula) :
    normalize false (unary m a) = not (unary m (normalize true a)) := by
  rw [normalize]
  simp [h]

@[simp] theorem normalize_binary (positive : Bool) (m : BinaryModality)
    (a b : Formula) :
    normalize positive (binary m a b) =
      signed positive (binary m (normalize true a) (normalize true b)) := by
  rw [normalize]

@[elab_as_elim]
theorem polarityInduct {motive : Bool → Formula → Prop}
    (literal : ∀ positive value, motive positive (literal value))
    (var : ∀ positive name, motive positive (var name))
    (not : ∀ positive a, motive (!positive) a → motive positive (not a))
    (junction : ∀ positive k args, (∀ a ∈ args, motive positive a) →
      motive positive (junction k args))
    (derived : ∀ positive c a b, motive positive (derived c a b).expand →
      motive positive (derived c a b))
    (unary : ∀ m a, motive true a → motive true (unary m a))
    (dual : ∀ m m' a, m.dual? = some m' → motive false a →
      motive false (.unary m a))
    (atom : ∀ m a, m.dual? = none → motive true a → motive false (.unary m a))
    (binary : ∀ positive m a b, motive true a → motive true b →
      motive positive (binary m a b)) (positive : Bool) (f : Formula) :
    motive positive f := by
  refine normalize.induct motive literal var not junction derived unary ?_ ?_
    binary positive f
  · intro positive m a hpositive m' hdual ih
    obtain rfl := (Bool.not_eq_true positive).mp hpositive
    exact dual m m' a hdual ih
  · intro positive m a hpositive hdual ih
    obtain rfl := (Bool.not_eq_true positive).mp hpositive
    exact atom m a hdual ih

end Formula

end LayeredLogic
