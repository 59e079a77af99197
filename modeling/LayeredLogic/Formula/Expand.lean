import LayeredLogic.Formula.Construct

/-!
# Expansion of derived connectives

Puts `!a | b` for `a -> b`, `(a | !b) & (!a | b)` for `a <-> b` and
`(a & !b) | (!a & b)` for `a ^ b`, operands first.  Every node is built anew, so
the result is reduced and holds no derived connective.
-/

namespace LayeredLogic.Formula

def define : Connective → Formula → Formula → Formula
  | .implies, a, b => join .or (neg a) b
  | .equiv, a, b => join .and (join .or a (neg b)) (join .or (neg a) b)
  | .xor, a, b => join .or (join .and a (neg b)) (join .and (neg a) b)

mutual

def expand : Formula → Formula
  | literal value => literal value
  | var name => var name
  | not a => neg a.expand
  | junction k args => joinAll k (expandAll args)
  | derived c a b => define c a.expand b.expand
  | unary m a => unary m a.expand
  | binary m a b => binary m a.expand b.expand

def expandAll : List Formula → List Formula
  | [] => []
  | a :: rest => a.expand :: expandAll rest

end

@[simp] theorem expandAll_eq_map (args : List Formula) :
    expandAll args = args.map expand := by
  induction args with
  | nil => rfl
  | cons a rest ih => simp [expandAll, ih]

mutual

def hasDerived : Formula → Bool
  | literal _ | var _ => false
  | not a | unary _ a => a.hasDerived
  | junction _ args => anyDerived args
  | derived _ _ _ => true
  | binary _ a b => a.hasDerived || b.hasDerived

def anyDerived : List Formula → Bool
  | [] => false
  | a :: rest => a.hasDerived || anyDerived rest

end

theorem anyDerived_eq_any (args : List Formula) :
    anyDerived args = args.any hasDerived := by
  induction args with
  | nil => rfl
  | cons a rest ih => simp [anyDerived, ih]

theorem anyDerived_eq_false {args : List Formula} :
    anyDerived args = false ↔ ∀ a ∈ args, a.hasDerived = false := by
  simp [anyDerived_eq_any]

@[simp] theorem hasDerived_neg (a : Formula) :
    a.neg.hasDerived = a.hasDerived := by
  cases a <;> rfl

theorem hasDerived_operandsFor {k : Junction} {a : Formula}
    (h : a.hasDerived = false) :
    ∀ b ∈ a.operandsFor k, b.hasDerived = false := by
  intro b hb
  cases a <;> simp_all [operandsFor]
  rename_i j args
  split at hb
  · exact anyDerived_eq_false.mp h b hb
  · simp_all

theorem hasDerived_join {k : Junction} {a b : Formula}
    (ha : a.hasDerived = false) (hb : b.hasDerived = false) :
    (join k a b).hasDerived = false := by
  unfold join
  split
  · split
    · exact hb
    · rfl
  · split
    · exact ha
    · rfl
  · simp only [hasDerived, anyDerived_eq_false, List.mem_append]
    rintro c (h | h)
    · exact hasDerived_operandsFor ha c h
    · exact hasDerived_operandsFor hb c h

theorem hasDerived_joinAll {k : Junction} {args : List Formula}
    (h : ∀ a ∈ args, a.hasDerived = false) :
    (joinAll k args).hasDerived = false :=
  joinAll_induct (motive := fun a => a.hasDerived = false) rfl
    (fun _ _ => hasDerived_join) h

theorem hasDerived_define {c : Connective} {a b : Formula}
    (ha : a.hasDerived = false) (hb : b.hasDerived = false) :
    (define c a b).hasDerived = false := by
  cases c <;> simp [define, hasDerived_join, ha, hb]

@[simp] theorem hasDerived_expand (f : Formula) :
    f.expand.hasDerived = false := by
  induction f using induct with
  | literal | var => rfl
  | not a ih => simpa [expand] using ih
  | junction k args ih =>
      simp only [expand, expandAll_eq_map]
      exact hasDerived_joinAll (by simpa using ih)
  | derived c a b iha ihb => exact hasDerived_define iha ihb
  | unary m a ih => exact ih
  | binary m a b iha ihb => simp [expand, hasDerived, iha, ihb]

end LayeredLogic.Formula
