import LayeredLogic.Formula.Modal
import LayeredLogic.Formula.NormalForm
import LayeredLogic.Formula.Traversal

/-!
# Semi-reduced formulas

In a semi-reduced formula no negation stands over a literal or another negation,
no junction holds a literal, an operand of its own kind or fewer than two
operands, and no graph modality is without labels.  Every operation that builds
a formula of such operands, and both rewritings, give such a formula again.
-/

namespace LayeredLogic

namespace Formula

def IsLiteral (f : Formula) : Prop := ∃ value, f = literal value

def IsJunction (k : Junction) (f : Formula) : Prop :=
  ∃ args, f = junction k args

def Negatable (f : Formula) : Prop := ¬ f.IsLiteral ∧ ∀ a, f ≠ not a

def Joinable (k : Junction) (f : Formula) : Prop :=
  ¬ f.IsLiteral ∧ ¬ f.IsJunction k

end Formula

def UnaryModality.Labelled : UnaryModality → Prop
  | graph _ labels _ => labels.isEmpty = false
  | next _ | always _ | eventually _ | everywhere _ | somewhere _ | escape _ =>
      True

namespace Formula

/-- What a semi-reduced formula asks of one node. -/
def NodeReduced : Formula → Prop
  | not a => a.Negatable
  | junction k args => 2 ≤ args.length ∧ ∀ a ∈ args, a.Joinable k
  | unary m _ => m.Labelled
  | literal _ | var _ | derived _ _ _ | binary _ _ _ => True

def SemiReduced (f : Formula) : Prop := ∀ g ∈ f.subformulas, g.NodeReduced

theorem semiReduced_iff {f : Formula} :
    f.SemiReduced ↔ f.NodeReduced ∧ ∀ a ∈ f.children, a.SemiReduced :=
  forall_mem_subformulas_iff

theorem SemiReduced.child {f a : Formula} (h : f.SemiReduced)
    (ha : a ∈ f.children) : a.SemiReduced :=
  (semiReduced_iff.mp h).2 a ha

@[simp] theorem semiReduced_literal (value : Bool) :
    (literal value).SemiReduced :=
  semiReduced_iff.mpr ⟨trivial, by simp [children]⟩

@[simp] theorem semiReduced_var (name : String) : (var name).SemiReduced :=
  semiReduced_iff.mpr ⟨trivial, by simp [children]⟩

@[simp] theorem semiReduced_not {a : Formula} :
    (not a).SemiReduced ↔ a.Negatable ∧ a.SemiReduced := by
  simp [semiReduced_iff (f := not a), NodeReduced, children]

@[simp] theorem semiReduced_junction {k : Junction} {args : List Formula} :
    (junction k args).SemiReduced ↔
      2 ≤ args.length ∧ ∀ a ∈ args, a.Joinable k ∧ a.SemiReduced := by
  simp only [semiReduced_iff (f := junction k args), NodeReduced, children,
    and_assoc, forall_and]

@[simp] theorem semiReduced_derived {c : Connective} {a b : Formula} :
    (derived c a b).SemiReduced ↔ a.SemiReduced ∧ b.SemiReduced := by
  simp [semiReduced_iff (f := derived c a b), NodeReduced, children]

@[simp] theorem semiReduced_unary {m : UnaryModality} {a : Formula} :
    (unary m a).SemiReduced ↔ m.Labelled ∧ a.SemiReduced := by
  simp [semiReduced_iff (f := unary m a), NodeReduced, children]

@[simp] theorem semiReduced_binary {m : BinaryModality} {a b : Formula} :
    (binary m a b).SemiReduced ↔ a.SemiReduced ∧ b.SemiReduced := by
  simp [semiReduced_iff (f := binary m a b), NodeReduced, children]

/-! ## Constructors -/

private theorem negatable_unary (m : UnaryModality) (a : Formula) :
    (unary m a).Negatable := by
  simp [Negatable, IsLiteral]

theorem neg_of_negatable {a : Formula} (h : a.Negatable) : a.neg = .not a := by
  cases a with
  | literal value => exact absurd ⟨value, rfl⟩ h.1
  | not a => exact absurd rfl (h.2 a)
  | var | junction | derived | unary | binary => rfl

theorem semiReduced_neg {a : Formula} (h : a.SemiReduced) :
    (neg a).SemiReduced := by
  cases a with
  | literal value => simp [neg]
  | not a => exact (semiReduced_not.mp h).2
  | var | junction | derived | unary | binary =>
      exact semiReduced_not.mpr ⟨by simp [Negatable, IsLiteral], h⟩

theorem operandsFor_of_joinable {k : Junction} {a : Formula}
    (h : a.Joinable k) : a.operandsFor k = [a] := by
  cases a with
  | junction j args =>
      have hj : j ≠ k := fun hj => h.2 ⟨args, by rw [hj]⟩
      simp [operandsFor, hj]
  | literal | var | not | derived | unary | binary => rfl

theorem join_of_not_literal {k : Junction} {a b : Formula} (ha : ¬ a.IsLiteral)
    (hb : ¬ b.IsLiteral) :
    join k a b = junction k (a.operandsFor k ++ b.operandsFor k) := by
  unfold join
  split
  · exact absurd ⟨_, rfl⟩ ha
  · exact absurd ⟨_, rfl⟩ hb
  · rfl

theorem join_cases (k : Junction) (a b : Formula) :
    (∃ value, join k a b = literal value) ∨ join k a b = a ∨ join k a b = b ∨
      (¬ a.IsLiteral ∧ ¬ b.IsLiteral ∧
        join k a b = junction k (a.operandsFor k ++ b.operandsFor k)) := by
  by_cases ha : a.IsLiteral
  · obtain ⟨value, rfl⟩ := ha
    by_cases hvalue : value = k.identity
    · exact Or.inr (Or.inr (Or.inl (by simp [join, hvalue])))
    · exact Or.inl ⟨value, by simp [join, hvalue]⟩
  · by_cases hb : b.IsLiteral
    · obtain ⟨value, rfl⟩ := hb
      by_cases hvalue : value = k.identity
      · exact Or.inr (Or.inl (by rw [hvalue, join_identity_right]))
      · refine Or.inl ⟨!k.identity, ?_⟩
        rw [Bool.eq_not_of_ne hvalue, join_absorbing_right]
    · refine Or.inr (Or.inr (Or.inr ⟨ha, hb, ?_⟩))
      exact join_of_not_literal ha hb

theorem joinable_of_mem_operandsFor {k : Junction} {a b : Formula}
    (h : a.SemiReduced) (ha : ¬ a.IsLiteral) (hb : b ∈ a.operandsFor k) :
    b.Joinable k ∧ b.SemiReduced := by
  by_cases hk : a.IsJunction k
  · obtain ⟨args, rfl⟩ := hk
    simp only [operandsFor, if_true] at hb
    exact (semiReduced_junction.mp h).2 b hb
  · rw [operandsFor_of_joinable ⟨ha, hk⟩, List.mem_singleton] at hb
    subst hb
    exact ⟨⟨ha, hk⟩, h⟩

theorem operandsFor_ne_nil {k : Junction} {a : Formula} (h : a.SemiReduced) :
    0 < (a.operandsFor k).length := by
  cases a with
  | junction j args =>
      have hlength := (semiReduced_junction.mp h).1
      simp only [operandsFor]
      split
      · omega
      · simp
  | literal | var | not | derived | unary | binary => simp [operandsFor]

theorem semiReduced_join {k : Junction} {a b : Formula} (ha : a.SemiReduced)
    (hb : b.SemiReduced) : (join k a b).SemiReduced := by
  rcases join_cases k a b with ⟨value, h⟩ | h | h | ⟨hla, hlb, h⟩
  · rw [h]
    exact semiReduced_literal value
  · rwa [h]
  · rwa [h]
  · rw [h, semiReduced_junction]
    constructor
    · have hlengtha := operandsFor_ne_nil (k := k) ha
      have hlengthb := operandsFor_ne_nil (k := k) hb
      rw [List.length_append]
      omega
    · intro c hc
      rcases List.mem_append.mp hc with hc | hc
      · exact joinable_of_mem_operandsFor ha hla hc
      · exact joinable_of_mem_operandsFor hb hlb hc

theorem semiReduced_joinAll {k : Junction} {args : List Formula}
    (h : ∀ a ∈ args, a.SemiReduced) : (joinAll k args).SemiReduced :=
  joinAll_induct (motive := SemiReduced) (semiReduced_literal _)
    (fun _ _ => semiReduced_join) h

private theorem foldl_join_of_joinable {k : Junction}
    {before after : List Formula} (h : ∀ a ∈ after, a.Joinable k) :
    after.foldl (join k) (junction k before) =
      junction k (before ++ after) := by
  induction after generalizing before with
  | nil => rw [List.append_nil, List.foldl_nil]
  | cons a after ih =>
      have ha := h a List.mem_cons_self
      have hjoin :
          join k (junction k before) a = junction k (before ++ [a]) := by
        rw [join_of_not_literal (by simp [IsLiteral]) ha.1,
          operandsFor_of_joinable ha]
        simp [operandsFor]
      rw [List.foldl_cons, hjoin,
        ih fun x hx => h x (List.mem_cons_of_mem _ hx)]
      simp

theorem joinAll_of_joinable {k : Junction} {args : List Formula}
    (hlength : 2 ≤ args.length) (h : ∀ a ∈ args, a.Joinable k) :
    joinAll k args = junction k args := by
  obtain ⟨a, rest, rfl⟩ := List.exists_cons_of_length_pos (l := args) (by omega)
  obtain ⟨b, rest, rfl⟩ := List.exists_cons_of_length_pos (l := rest) (by
    rw [List.length_cons] at hlength
    omega)
  have ha := h a (by simp)
  have hb := h b (by simp)
  have hjoin : join k a b = junction k [a, b] := by
    rw [join_of_not_literal ha.1 hb.1, operandsFor_of_joinable ha,
      operandsFor_of_joinable hb]
    rfl
  rw [joinAll, List.foldl_cons, join_identity_left, List.foldl_cons, hjoin,
    foldl_join_of_joinable fun x hx => h x (by simp [hx])]
  rfl

/-! ## Rewriting -/

private theorem semiReduced_define {c : Connective} {a b : Formula}
    (ha : a.SemiReduced) (hb : b.SemiReduced) : (define c a b).SemiReduced := by
  have hna := semiReduced_neg ha
  have hnb := semiReduced_neg hb
  cases c with
  | implies => exact semiReduced_join hna hb
  | equiv =>
      exact semiReduced_join (semiReduced_join ha hnb) (semiReduced_join hna hb)
  | xor =>
      exact semiReduced_join (semiReduced_join ha hnb) (semiReduced_join hna hb)

theorem semiReduced_expand {f : Formula} (h : f.SemiReduced) :
    f.expand.SemiReduced := by
  induction f using induct with
  | literal | var => exact h
  | not a ih => exact semiReduced_neg (ih (semiReduced_not.mp h).2)
  | junction k args ih =>
      rw [expand, expandAll_eq_map]
      apply semiReduced_joinAll
      intro b hb
      obtain ⟨a, ha, rfl⟩ := List.mem_map.mp hb
      exact ih a ha ((semiReduced_junction.mp h).2 a ha).2
  | derived c a b iha ihb =>
      obtain ⟨ha, hb⟩ := semiReduced_derived.mp h
      exact semiReduced_define (iha ha) (ihb hb)
  | unary m a ih =>
      obtain ⟨hm, ha⟩ := semiReduced_unary.mp h
      exact semiReduced_unary.mpr ⟨hm, ih ha⟩
  | binary m a b iha ihb =>
      obtain ⟨ha, hb⟩ := semiReduced_binary.mp h
      exact semiReduced_binary.mpr ⟨iha ha, ihb hb⟩

theorem labelled_of_dual {m m' : UnaryModality} (h : m.dual? = some m') :
    m'.Labelled := by
  cases m <;> cases h <;> trivial

theorem semiReduced_signed {positive : Bool} {a : Formula} (h : a.SemiReduced) :
    (signed positive a).SemiReduced := by
  cases positive with
  | true => exact h
  | false => exact semiReduced_neg h

private theorem semiReduced_normalize {positive : Bool} {f : Formula}
    (h : f.SemiReduced) : (normalize positive f).SemiReduced := by
  induction positive, f using polarityInduct with
  | literal positive value =>
      simpa using semiReduced_signed (semiReduced_literal value)
  | var positive name => simpa using semiReduced_signed (semiReduced_var name)
  | not positive a ih =>
      rw [normalize_not]
      exact ih (semiReduced_not.mp h).2
  | junction positive k args ih =>
      rw [normalize_junction]
      apply semiReduced_joinAll
      intro b hb
      obtain ⟨a, ha, rfl⟩ := List.mem_map.mp hb
      exact ih a ha ((semiReduced_junction.mp h).2 a ha).2
  | derived positive c a b ih =>
      rw [normalize_derived]
      exact ih (semiReduced_expand h)
  | unary m a ih =>
      obtain ⟨hm, ha⟩ := semiReduced_unary.mp h
      rw [normalize_unary_true]
      exact semiReduced_unary.mpr ⟨hm, ih ha⟩
  | dual m m' a hdual ih =>
      rw [normalize_unary_of_dual hdual]
      exact semiReduced_unary.mpr
        ⟨labelled_of_dual hdual, ih (semiReduced_unary.mp h).2⟩
  | atom m a hdual ih =>
      obtain ⟨hm, ha⟩ := semiReduced_unary.mp h
      rw [normalize_unary_of_no_dual hdual, semiReduced_not]
      exact ⟨negatable_unary m _, semiReduced_unary.mpr ⟨hm, ih ha⟩⟩
  | binary positive m a b iha ihb =>
      obtain ⟨ha, hb⟩ := semiReduced_binary.mp h
      rw [normalize_binary]
      exact semiReduced_signed (semiReduced_binary.mpr ⟨iha ha, ihb hb⟩)

theorem semiReduced_nnf {f : Formula} (h : f.SemiReduced) : f.nnf.SemiReduced :=
  semiReduced_normalize h

end Formula

end LayeredLogic
