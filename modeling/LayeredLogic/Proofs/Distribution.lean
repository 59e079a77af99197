import LayeredLogic.Proofs.Reduced

/-!
# The algebra of joining

Joining is associative, its identity literal is neutral and the other literal
absorbs.  Expansion distributes over it, and so does normalization, which takes
a junction to its dual under negative polarity.  Hence it makes no difference
whether derived connectives are expanded before, during or after normalization,
and two normalizations are one of the combined polarity.
-/

namespace LayeredLogic

namespace Formula

theorem literal_cases (k : Junction) (a : Formula) :
    a = literal k.identity ∨ a = literal k.dual.identity ∨ ¬ a.IsLiteral := by
  by_cases ha : a.IsLiteral
  · obtain ⟨value, rfl⟩ := ha
    cases value <;> cases k <;> simp [Junction.identity, Junction.dual]
  · exact Or.inr (Or.inr ha)

theorem join_absorbing (k : Junction) (a : Formula) :
    join k (literal k.dual.identity) a = literal k.dual.identity ∧
      join k a (literal k.dual.identity) = literal k.dual.identity := by
  simp

private theorem join_assoc (k : Junction) (a b c : Formula) :
    join k (join k a b) c = join k a (join k b c) := by
  rcases literal_cases k a with rfl | rfl | ha
  · simp
  · simp
  rcases literal_cases k b with rfl | rfl | hb
  · simp
  · simp
  rcases literal_cases k c with rfl | rfl | hc
  · simp
  · simp
  -- No literal is left, so all operands stand side by side.
  have hjunction : ∀ args, ¬ (junction k args).IsLiteral := by simp [IsLiteral]
  rw [join_of_not_literal ha hb, join_of_not_literal hb hc,
    join_of_not_literal (hjunction _) hc, join_of_not_literal ha (hjunction _)]
  simp [operandsFor]

instance (k : Junction) : Std.Associative (join k) := ⟨join_assoc k⟩

theorem foldl_join (k : Junction) (acc : Formula) (args : List Formula) :
    args.foldl (join k) acc = join k acc (joinAll k args) :=
  calc args.foldl (join k) acc
      = args.foldl (join k) (join k acc (literal k.identity)) := by
        rw [join_identity_right]
    _ = join k acc (joinAll k args) := List.foldl_assoc

theorem joinAll_cons (k : Junction) (a : Formula) (args : List Formula) :
    joinAll k (a :: args) = join k a (joinAll k args) := by
  rw [joinAll, List.foldl_cons, join_identity_left, foldl_join]

theorem joinAll_append (k : Junction) (as bs : List Formula) :
    joinAll k (as ++ bs) = join k (joinAll k as) (joinAll k bs) := by
  rw [joinAll, List.foldl_append, foldl_join]
  rfl

/-- The map takes a junction to the images of its operands, joined as a junction
of the kind that `σ` gives, and the literals that are special to the one kind to
those special to the other. -/
structure Distributes (σ : Junction → Junction) (g : Formula → Formula) :
    Prop where
  dual : ∀ k, σ k.dual = (σ k).dual
  literal : ∀ k, g (literal k.identity) = .literal (σ k).identity
  junction : ∀ k args, g (junction k args) = joinAll (σ k) (args.map g)

namespace Distributes

variable {σ : Junction → Junction} {g : Formula → Formula}

theorem joinAll_operandsFor (hg : Distributes σ g) (k : Junction)
    (a : Formula) : Formula.joinAll (σ k) ((a.operandsFor k).map g) = g a := by
  cases a with
  | junction j args =>
      simp only [operandsFor]
      split
      · rename_i hj
        rw [← hj, hg.junction]
      · simp
  | literal | var | not | derived | unary | binary => simp [operandsFor]

theorem join (hg : Distributes σ g) (k : Junction) (a b : Formula) :
    g (join k a b) = .join (σ k) (g a) (g b) := by
  have habsorbing :
      g (.literal k.dual.identity) = .literal (σ k).dual.identity := by
    rw [hg.literal, hg.dual]
  rcases literal_cases k a with rfl | rfl | ha
  · rw [join_identity_left, hg.literal, join_identity_left]
  · rw [(join_absorbing k b).1, habsorbing, (join_absorbing _ _).1]
  rcases literal_cases k b with rfl | rfl | hb
  · rw [join_identity_right, hg.literal, join_identity_right]
  · rw [(join_absorbing k a).2, habsorbing, (join_absorbing _ _).2]
  rw [join_of_not_literal ha hb, hg.junction, List.map_append, joinAll_append,
    hg.joinAll_operandsFor, hg.joinAll_operandsFor]

theorem joinAll (hg : Distributes σ g) (k : Junction) (args : List Formula) :
    g (joinAll k args) = .joinAll (σ k) (args.map g) := by
  induction args with
  | nil => exact hg.literal k
  | cons a args ih =>
      rw [joinAll_cons, hg.join, ih, List.map_cons, joinAll_cons]

end Distributes

private theorem distributes_expand : Distributes id expand where
  dual _ := rfl
  literal _ := rfl
  junction k args := by rw [expand, expandAll_eq_map, id_eq]

theorem distributes_normalize (positive : Bool) :
    Distributes (Junction.signed positive) (normalize positive) where
  dual k := by cases positive <;> rfl
  literal k := by cases positive <;> simp [Formula.signed, Junction.signed]
  junction := normalize_junction positive

theorem normalize_neg (positive : Bool) (a : Formula) :
    normalize positive (neg a) = normalize (!positive) a := by
  cases a with
  | literal value => cases positive <;> simp [signed]
  | not a => simp
  | var | junction | derived | unary | binary => exact normalize_not positive _

theorem normalize_unary_congr (m : UnaryModality) {a b : Formula}
    (h : ∀ positive, normalize positive a = normalize positive b)
    (positive : Bool) :
    normalize positive (unary m a) = normalize positive (unary m b) := by
  cases positive with
  | true => rw [normalize_unary_true, normalize_unary_true, h]
  | false =>
      cases hdual : m.dual? with
      | some m' =>
          rw [normalize_unary_of_dual hdual, normalize_unary_of_dual hdual, h]
      | none =>
          rw [normalize_unary_of_no_dual hdual,
            normalize_unary_of_no_dual hdual, h]

theorem normalize_expand (positive : Bool) (f : Formula) :
    normalize positive f.expand = normalize positive f := by
  induction f using induct generalizing positive with
  | literal | var => rfl
  | not a ih => rw [expand, normalize_neg, normalize_not, ih]
  | junction k args ih =>
      rw [expand, expandAll_eq_map, (distributes_normalize positive).joinAll,
        normalize_junction, List.map_map]
      congr 1
      exact List.map_congr_left fun a ha => ih a ha positive
  | derived c a b => exact (normalize_derived positive c a b).symm
  | unary m a ih =>
      rw [expand]
      exact normalize_unary_congr m ih positive
  | binary m a b iha ihb =>
      rw [expand, normalize_binary, normalize_binary, iha, ihb]

private theorem expand_normalize (positive : Bool) (f : Formula) :
    (normalize positive f).expand = normalize positive f := by
  induction positive, f using polarityInduct with
  | literal positive value =>
      rw [normalize_literal]
      cases positive <;> rfl
  | var positive name =>
      rw [normalize_var]
      cases positive <;> rfl
  | not positive a ih => rwa [normalize_not]
  | junction positive k args ih =>
      rw [normalize_junction, distributes_expand.joinAll, List.map_map, id_eq]
      congr 1
      exact List.map_congr_left ih
  | derived positive c a b ih => rwa [normalize_derived]
  | unary m a ih => rw [normalize_unary_true, expand, ih]
  | dual m m' a hdual ih => rw [normalize_unary_of_dual hdual, expand, ih]
  | atom m a hdual ih =>
      rw [normalize_unary_of_no_dual hdual, expand, expand, ih]
      rfl
  | binary positive m a b iha ihb =>
      have hbinary : (binary m (normalize true a) (normalize true b)).expand =
          binary m (normalize true a) (normalize true b) := by
            rw [expand, iha, ihb]
      rw [normalize_binary]
      cases positive with
      | true => exact hbinary
      | false => exact congrArg neg hbinary

/-- Expanding up front, on the way or at the end gives the same normal form of a
formula, and expanding up front or on the way the same one of its negation. -/
theorem nnf_commutes_expand (f : Formula) :
    f.nnf = f.expand.nnf ∧ f.nnf = f.nnf.expand ∧
    (neg f).nnf = (neg f.expand).nnf := by
  refine ⟨?_, ?_, ?_⟩
  · exact (normalize_expand true f).symm
  · exact (expand_normalize true f).symm
  · calc (neg f).nnf = normalize false f := normalize_neg true f
      _ = normalize false f.expand := (normalize_expand false f).symm
      _ = (neg f.expand).nnf := (normalize_neg true f.expand).symm

private theorem signed_signed (outer inner : Bool) (k : Junction) :
    (k.signed inner).signed outer = k.signed (outer == inner) := by
  cases outer <;> cases inner <;> cases k <;> rfl

/-- Normalizing a normal form under negative polarity takes it to the other
normal form: De Morgan's laws are applied once in each direction, every dual is
undone, and atoms stay what they are. -/
theorem normalize_normalize (outer inner : Bool) (f : Formula) :
    normalize outer (normalize inner f) = normalize (outer == inner) f := by
  induction inner, f using polarityInduct generalizing outer with
  | literal inner value => cases outer <;> cases inner <;> simp [signed]
  | var inner name => cases outer <;> cases inner <;> simp [signed, neg]
  | not inner a ih =>
      rw [normalize_not, ih, normalize_not]
      cases outer <;> cases inner <;> rfl
  | junction inner k args ih =>
      rw [normalize_junction, (distributes_normalize outer).joinAll,
        signed_signed, List.map_map, normalize_junction]
      congr 1
      exact List.map_congr_left fun a ha => ih a ha outer
  | derived inner c a b ih => rw [normalize_derived, ih, normalize_derived]
  | unary m a ih =>
      simp only [beq_true] at ih
      rw [normalize_unary_true, beq_true]
      exact normalize_unary_congr m ih outer
  | dual m m' a hdual ih =>
      rw [normalize_unary_of_dual hdual]
      cases outer with
      | true =>
          rw [normalize_unary_true, ih]
          exact (normalize_unary_of_dual hdual a).symm
      | false =>
          rw [normalize_unary_of_dual (UnaryModality.dual?_of_dual? hdual), ih]
          exact (normalize_unary_true m a).symm
  | atom m a hdual ih =>
      simp only [beq_true] at ih
      rw [normalize_unary_of_no_dual hdual, normalize_not, beq_false]
      exact normalize_unary_congr m ih (!outer)
  | binary inner m a b iha ihb =>
      have hbinary : ∀ outer,
          normalize outer (binary m (normalize true a) (normalize true b)) =
          normalize outer (binary m a b) := by
        intro outer
        rw [normalize_binary, iha, ihb, normalize_binary]
        rfl
      rw [normalize_binary]
      cases inner with
      | true => exact (hbinary outer).trans (by cases outer <;> rfl)
      | false =>
          exact (normalize_neg outer _).trans
            ((hbinary (!outer)).trans (by cases outer <;> rfl))

/-- The normal form of the negation of a normal form is the other normal form,
tree for tree. -/
theorem nnf_neg_nnf (f : Formula) :
    (neg (neg f).nnf).nnf = f.nnf ∧ (neg f.nnf).nnf = (neg f).nnf := by
  constructor
  · calc (neg (neg f).nnf).nnf = normalize false (neg f).nnf :=
      normalize_neg true _
      _ = normalize false (normalize false f) := by
        rw [nnf, normalize_neg, Bool.not_true]
      _ = f.nnf := normalize_normalize false false f
  · calc (neg f.nnf).nnf = normalize false f.nnf := normalize_neg true _
      _ = normalize false f := normalize_normalize false true f
      _ = (neg f).nnf := (normalize_neg true f).symm

end Formula

end LayeredLogic
