import LayeredLogic.Proofs.Rewriting
import LayeredLogic.Proofs.Traversal

/-!
# Depth under rewriting

Rewriting puts at most three nodes on top of each other where there was one: an
equivalence or an exclusive-or becomes a junction of junctions with a negated
operand.  Negations that go down to the leaves only change places with what they
pass, so that a normal form is at most one level deeper than the expansion.
Both operands of such a connective stand in the result twice, and the size of
what exclusive-ors expand to doubles with each of them.
-/

namespace LayeredLogic.Formula

variable {k : Junction} {a b : Formula} {args : List Formula} {n : Nat}

private theorem depth_junction_le (h : ∀ a ∈ args, a.depth ≤ n) :
    (junction k args).depth ≤ n + 1 := by
  have := depthAll_le h
  rw [depth]
  omega

theorem depth_neg_le (a : Formula) : (neg a).depth ≤ a.depth + 1 := by
  cases a <;> simp only [neg, depth] <;> omega

theorem depth_signed_le (positive : Bool) (a : Formula) :
    (signed positive a).depth ≤ a.depth + (!positive).toNat := by
  cases positive with
  | true => exact Nat.le_refl _
  | false => exact depth_neg_le a

private theorem depth_le_of_mem_operandsFor (h : b ∈ a.operandsFor k) :
    b.depth ≤ a.depth := by
  cases a with
  | junction j args =>
      rw [operandsFor] at h
      split at h
      · exact Nat.le_of_lt (depth_lt_of_mem_children (f := junction j args) h)
      · rw [List.mem_singleton.mp h]
  | literal | var | not | derived | unary | binary =>
      rw [List.mem_singleton.mp h]

/-- A junction that is spliced adds no level to the one that takes its operands.
-/
theorem depth_joinAll_le (h : ∀ a ∈ args, a.depth ≤ n) :
    (joinAll k args).depth ≤ n + 1 := by
  have hjoined : (joinAll k args).IsLiteral ∨
      ∀ b ∈ (joinAll k args).operandsFor k, b.depth ≤ n := by
    refine joinAll_induct (motive :=
      fun a => a.IsLiteral ∨ ∀ b ∈ a.operandsFor k, b.depth ≤ n)
      (Or.inl ⟨_, rfl⟩) ?_ fun a ha => Or.inr fun b hb =>
        Nat.le_trans (depth_le_of_mem_operandsFor hb) (h a ha)
    intro a b ha hb
    rcases join_cases k a b
      with ⟨value, hjoin⟩ | hjoin | hjoin | ⟨hla, hlb, hjoin⟩
    · exact Or.inl ⟨value, hjoin⟩
    · rwa [hjoin]
    · rwa [hjoin]
    · rw [hjoin]
      refine Or.inr ?_
      simp only [operandsFor, if_true, List.forall_mem_append]
      exact ⟨ha.resolve_left hla, hb.resolve_left hlb⟩
  rcases hjoined with ⟨value, hvalue⟩ | hoperands
  · rw [hvalue, depth]
    omega
  · generalize joinAll k args = joined at hoperands ⊢
    cases joined with
    | junction j args =>
        rw [operandsFor] at hoperands
        split at hoperands
        · exact depth_junction_le hoperands
        · exact Nat.le_succ_of_le (hoperands _ (List.mem_singleton_self _))
    | literal | var | not | derived | unary | binary =>
        exact Nat.le_succ_of_le (hoperands _ (List.mem_singleton_self _))

theorem depth_join_le (ha : a.depth ≤ n) (hb : b.depth ≤ n) :
    (join k a b).depth ≤ n + 1 := by
  have hpair : (joinAll k [a, b]).depth ≤ n + 1 :=
    depth_joinAll_le
      (List.forall_mem_cons.mpr ⟨ha, List.forall_mem_singleton.mpr hb⟩)
  rwa [joinAll_cons, joinAll_singleton] at hpair

private theorem depth_define_le (c : Connective) (ha : a.depth ≤ n)
    (hb : b.depth ≤ n) : (define c a b).depth ≤ n + 3 := by
  have hna := Nat.le_trans (depth_neg_le a) (Nat.succ_le_succ ha)
  have hnb := Nat.le_trans (depth_neg_le b) (Nat.succ_le_succ hb)
  have ha' := Nat.le_succ_of_le ha
  have hb' := Nat.le_succ_of_le hb
  cases c with
  | implies => exact Nat.le_succ_of_le (depth_join_le hna hb')
  | equiv => exact depth_join_le (depth_join_le ha' hnb) (depth_join_le hna hb')
  | xor => exact depth_join_le (depth_join_le ha' hnb) (depth_join_le hna hb')

/-! ## Rewriting -/

private theorem depth_expand_le (f : Formula) :
    f.expand.depth + 2 ≤ 3 * f.depth := by
  induction f using childInduct with
  | step f ih =>
      -- Every operand leaves three levels for what stands above it.
      have hchild :
          ∀ a ∈ f.children, a.expand.depth ≤ 3 * f.depth - 5 ∧ 2 ≤ f.depth := by
        intro a ha
        have hlt := depth_lt_of_mem_children ha
        have hexpand := ih a ha
        have hpos := a.depth_pos
        omega
      cases f with
      | literal | var => exact Nat.le_refl 3
      | not a =>
          have ha := hchild a (by simp [children])
          have hneg := depth_neg_le a.expand
          rw [expand]
          omega
      | junction k args =>
          rw [expand, expandAll_eq_map]
          cases args with
          | nil => exact Nat.le_refl 3
          | cons a args =>
              have hall : ∀ b ∈ (a :: args).map expand, b.depth ≤ _ :=
                List.forall_mem_map.mpr fun b hb => (hchild b hb).1
              have hjoin := depth_joinAll_le (k := k) hall
              have ha := hchild a List.mem_cons_self
              omega
      | derived c a b =>
          have ha := hchild a (by simp [children])
          have hb := hchild b (by simp [children])
          have hdefine := depth_define_le c ha.1 hb.1
          rw [expand]
          omega
      | unary m a =>
          have ha := hchild a (by simp [children])
          rw [expand, depth_eq]
          simp only [children, depthAll]
          omega
      | binary m a b =>
          have ha := hchild a (by simp [children])
          have hb := hchild b (by simp [children])
          rw [expand, depth_eq]
          simp only [children, depthAll]
          omega

private theorem depth_normalize_le_of_hasDerived (positive : Bool) (f : Formula)
    (h : f.hasDerived = false) :
    (normalize positive f).depth ≤ f.depth + (!positive).toNat := by
  induction positive, f using polarityInduct with
  | literal positive value =>
      rw [normalize_literal]
      exact depth_signed_le positive _
  | var positive name =>
      rw [normalize_var]
      exact depth_signed_le positive _
  | not positive a ih =>
      have ha := ih h
      rw [normalize_not, depth]
      cases positive with
      | true => exact Nat.le_trans ha (Nat.le_of_eq (Nat.add_comm a.depth 1))
      | false =>
          have hle : a.depth + (!!false).toNat ≤ 1 + a.depth :=
            Nat.le_add_left _ _
          exact Nat.le_succ_of_le (Nat.le_trans ha hle)
  | junction positive k args ih =>
      have hargs : ∀ a ∈ args, (normalize positive a).depth ≤
          depthAll args + (!positive).toNat := by
        intro a ha
        have hnormal := ih a ha (anyDerived_eq_false.mp h a ha)
        have hle := depth_le_depthAll ha
        omega
      have hjoin :=
        depth_joinAll_le (k :=
          k.signed positive) (List.forall_mem_map.mpr hargs)
      rw [normalize_junction, depth]
      omega
  | derived => cases h
  | unary m a ih =>
      have ha := ih h
      rw [normalize_unary_true, depth, depth]
      omega
  | dual m m' a hdual ih =>
      have ha := ih h
      rw [normalize_unary_of_dual hdual, depth, depth]
      omega
  | atom m a hdual ih =>
      have ha := ih h
      rw [normalize_unary_of_no_dual hdual, depth, depth, depth]
      simp only [Bool.not_true, Bool.not_false, Bool.toNat_true,
        Bool.toNat_false] at ha ⊢
      omega
  | binary positive m a b iha ihb =>
      rw [hasDerived, Bool.or_eq_false_iff] at h
      have ha := iha h.1
      have hb := ihb h.2
      have hnode : (binary m (normalize true a) (normalize true b)).depth ≤
          (binary m a b).depth := by
        rw [depth, depth]
        simp only [Bool.not_true, Bool.toNat_false] at ha hb
        omega
      rw [normalize_binary]
      exact Nat.le_trans (depth_signed_le positive _)
        (Nat.add_le_add_right hnode _)

theorem depth_normalize_le (positive : Bool) (f : Formula) :
    (normalize positive f).depth ≤ f.expand.depth + (!positive).toNat := by
  rw [← normalize_expand]
  exact depth_normalize_le_of_hasDerived positive f.expand (hasDerived_expand f)

/-! ## Sizes -/

theorem size_le_sizeAll_operandsFor (k : Junction) (a : Formula) :
    a.size ≤ sizeAll (a.operandsFor k) + 1 := by
  have hsingle : a.size ≤ sizeAll [a] + 1 := by
    rw [sizeAll]
    omega
  cases a with
  | junction j args =>
      rw [operandsFor]
      split
      · rw [size, Nat.add_comm]
      · exact hsingle
  | literal | var | not | derived | unary | binary => exact hsingle

theorem size_add_size_le_join (ha : ¬ a.IsLiteral) (hb : ¬ b.IsLiteral) :
    a.size + b.size ≤ (join k a b).size + 1 := by
  have hla := size_le_sizeAll_operandsFor k a
  have hlb := size_le_sizeAll_operandsFor k b
  rw [join_of_not_literal ha hb, size, sizeAll_append]
  omega

private theorem size_le_neg_join (ha : ¬ a.IsLiteral) (hb : ¬ b.IsLiteral) :
    (join k a b).size ≤ (neg (join k a b)).size := by
  rw [join_of_not_literal ha hb]
  exact Nat.le_add_left _ 1

theorem size_le_join_join {i j : Junction} {c d : Formula} (ha : a.Grounded)
    (hb : b.Grounded) (hc : c.Grounded) (hd : d.Grounded) :
    a.size + b.size + (c.size + d.size) ≤
      (join k (join i a b) (join j c d)).size + 3 := by
  have hab := size_add_size_le_join (k := i) ha.not_isLiteral hb.not_isLiteral
  have hcd := size_add_size_le_join (k := j) hc.not_isLiteral hd.not_isLiteral
  have hjoin :=
    size_add_size_le_join (k := k) (ha.join (k := i) hb).not_isLiteral
    (hc.join (k := j) hd).not_isLiteral
  omega

/-- Exclusive-ors with a variable, each of them the first operand of the next.
-/
def xorTower : Nat → Formula
  | 0 => var "p"
  | n + 1 => derived .xor (xorTower n) (var "p")

theorem built_xorTower (n : Nat) : Built (xorTower n) := by
  induction n with
  | zero => exact .var "p"
  | succ n ih => exact .derived .xor ih (.var "p")

private theorem depth_xorTower (n : Nat) : (xorTower n).depth = n + 1 := by
  induction n with
  | zero => rfl
  | succ n ih =>
      rw [xorTower, depth, ih, depth]
      omega

theorem size_xorTower (n : Nat) : (xorTower n).size = 2 * n + 1 := by
  induction n with
  | zero => rfl
  | succ n ih =>
      rw [xorTower, size, ih, size]
      omega

theorem grounded_var (name : String) : (var name).Grounded :=
  grounded_iff.mpr ⟨fun _ => ⟨name, rfl⟩, by simp [children]⟩

theorem grounded_xorTower (n : Nat) : (xorTower n).Grounded := by
  induction n with
  | zero => exact grounded_var "p"
  | succ n ih => exact grounded_derived.mpr ⟨ih, grounded_var "p"⟩

private theorem normalize_xorTower_succ (positive : Bool) (n : Nat) :
    normalize positive (xorTower (n + 1)) = join (Junction.or.signed positive)
      (join (Junction.and.signed positive) (normalize positive (xorTower n))
        (signed (!positive) (var "p")))
      (join (Junction.and.signed positive) (normalize (!positive) (xorTower n))
        (signed positive (var "p"))) := by
  have hjoin := (distributes_normalize positive).join
  have hdefine : (derived .xor (xorTower n) (var "p")).expand =
      join .or (join .and (xorTower n).expand (neg (var "p")))
        (join .and (xorTower n).expand.neg (var "p")) := rfl
  rw [xorTower, normalize_derived, hdefine, hjoin, hjoin, hjoin, normalize_neg,
    normalize_neg, normalize_expand, normalize_expand, normalize_var,
    normalize_var]

/-- Both the expansion and its negation stand in the expansion of the next
exclusive-or. -/
theorem two_pow_le_size_expand (n : Nat) :
    2 ^ n ≤ (xorTower n).expand.size ∧
    2 ^ n ≤ (xorTower n).expand.neg.size := by
  induction n with
  | zero => exact ⟨Nat.le_refl 1, Nat.le_succ 1⟩
  | succ n ih =>
      have he : (xorTower n).expand.Grounded :=
        (Keeps.expand propagates_horizon _).grounded (grounded_xorTower n)
      have hp := grounded_var "p"
      have hjoin :=
        size_le_join_join (k := .or) (i := .and) (j := .and) he hp.neg he.neg hp
      have hsize : 2 ^ (n + 1) ≤ (xorTower (n + 1)).expand.size := by
        have hp1 : (var "p").size = 1 := rfl
        have hp2 : (neg (var "p")).size = 2 := rfl
        have htower : (xorTower (n + 1)).expand = join .or
          (join .and (xorTower n).expand (neg (var "p")))
          (join .and (xorTower n).expand.neg (var "p")) := rfl
        rw [htower, Nat.pow_succ]
        omega
      exact ⟨hsize,
        Nat.le_trans hsize (size_le_neg_join (he.join hp.neg).not_isLiteral
        (he.neg.join hp).not_isLiteral)⟩

theorem two_pow_le_size_normalize (positive : Bool) (n : Nat) :
    2 ^ n ≤ (normalize positive (xorTower n)).size := by
  induction n generalizing positive with
  | zero =>
      rw [xorTower, normalize_var]
      exact size_pos _
  | succ n ih =>
      have hgrounded : ∀ sign, (normalize sign (xorTower n)).Grounded :=
        fun sign =>
        (Keeps.normalize propagates_horizon sign _).grounded
        (grounded_xorTower n)
      have hp : ∀ sign, (signed sign (var "p")).Grounded := fun sign =>
        (Keeps.signed propagates_horizon sign _).grounded (grounded_var "p")
      have hjoin := size_le_join_join (k := Junction.or.signed positive)
        (i := Junction.and.signed positive) (j := Junction.and.signed positive)
        (hgrounded positive) (hp !positive) (hgrounded !positive) (hp positive)
      have hsizes : (signed (!positive) (var "p")).size +
          (signed positive (var "p")).size = 3 := by
        cases positive <;> rfl
      have hpositive := ih positive
      have hnegative := ih !positive
      rw [normalize_xorTower_succ, Nat.pow_succ]
      omega

/-- Expansion and the normal forms of a formula and of its negation are at most
three times as deep as the formula.  Their size can be exponential in its size.
-/
theorem height_rewritten_le :
    (∀ f : Formula, f.expand.height ≤ 3 * f.height - 2 ∧
      f.nnf.height ≤ 3 * f.height - 2 ∧
      f.neg.nnf.height ≤ 3 * f.height - 1) ∧
    ∀ n, ∃ f, Built f ∧ f.height = n + 1 ∧ f.size = 2 * n + 1 ∧
      2 ^ n ≤ f.expand.size ∧ 2 ^ n ≤ f.nnf.size ∧ 2 ^ n ≤ f.neg.nnf.size := by
  simp only [height_eq_depth, nnf, normalize_neg]
  constructor
  · intro f
    have hexpand := depth_expand_le f
    have hpositive := depth_normalize_le true f
    have hnegative := depth_normalize_le false f
    simp only [Bool.not_true, Bool.not_false, Bool.toNat_true, Bool.toNat_false]
      at *
    omega
  · intro n
    exact ⟨xorTower n, built_xorTower n, depth_xorTower n, size_xorTower n,
      (two_pow_le_size_expand n).1, two_pow_le_size_normalize true n,
      two_pow_le_size_normalize false n⟩

end LayeredLogic.Formula
