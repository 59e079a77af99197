import LayeredLogic.Proofs.Built
import LayeredLogic.Proofs.Distribution
import LayeredLogic.Proofs.Horizon

/-!
# What rewriting keeps

A quantity that connectives only pass on from their operands, and in which a
modality is monotone and like its dual, never grows when a formula is rewritten:
literals may absorb operands, and no operand is added.  Without literals nothing
is absorbed, so the quantity stays the same.  The horizon is such a quantity.
-/

namespace LayeredLogic

namespace Formula

/-- All leaves are variables.  A junction without operands is a leaf too, and it
would be rewritten to a literal. -/
def Grounded (f : Formula) : Prop :=
  ∀ g ∈ f.subformulas, g.children = [] → ∃ name, g = var name

theorem grounded_iff {f : Formula} :
    f.Grounded ↔
      (f.children = [] → ∃ name, f = var name) ∧ ∀ a ∈ f.children, a.Grounded :=
  forall_mem_subformulas_iff

theorem Grounded.not_isLiteral {f : Formula} (h : f.Grounded) :
    ¬ f.IsLiteral := by
  rintro ⟨value, rfl⟩
  obtain ⟨name, hname⟩ := (grounded_iff.mp h).1 rfl
  cases hname

@[simp] theorem grounded_not {a : Formula} : (not a).Grounded ↔ a.Grounded := by
  simp [grounded_iff (f := not a), children]

@[simp] theorem grounded_junction {k : Junction} {args : List Formula} :
    (junction k args).Grounded ↔ args ≠ [] ∧ ∀ a ∈ args, a.Grounded := by
  simp [grounded_iff (f := junction k args), children]

@[simp] theorem grounded_derived {c : Connective} {a b : Formula} :
    (derived c a b).Grounded ↔ a.Grounded ∧ b.Grounded := by
  simp [grounded_iff (f := derived c a b), children]

@[simp] theorem grounded_unary {m : UnaryModality} {a : Formula} :
    (unary m a).Grounded ↔ a.Grounded := by
  simp [grounded_iff (f := unary m a), children]

@[simp] theorem grounded_binary {m : BinaryModality} {a b : Formula} :
    (binary m a b).Grounded ↔ a.Grounded ∧ b.Grounded := by
  simp [grounded_iff (f := binary m a b), children]

theorem SemiReduced.grounded {f : Formula} (h : f.SemiReduced)
    (hliteral : ∀ g ∈ f.subformulas, ∀ value, g ≠ literal value) :
    f.Grounded := by
  intro g hg hleaf
  cases g with
  | literal value => exact absurd rfl (hliteral _ hg value)
  | var name => exact ⟨name, rfl⟩
  | junction k args =>
      obtain ⟨hlength, -⟩ := h _ hg
      rw [children] at hleaf
      simp [hleaf] at hlength
  | not | derived | unary | binary => simp [children] at hleaf

theorem Grounded.neg {a : Formula} (h : a.Grounded) : (neg a).Grounded := by
  cases a with
  | literal value => exact absurd ⟨value, rfl⟩ h.not_isLiteral
  | not a => exact grounded_not.mp h
  | var | junction | derived | unary | binary => exact grounded_not.mpr h

theorem Grounded.operandsFor {k : Junction} {a : Formula} (h : a.Grounded) :
    a.operandsFor k ≠ [] ∧ ∀ b ∈ a.operandsFor k, b.Grounded := by
  have hsingle : [a] ≠ [] ∧ ∀ b ∈ [a], b.Grounded :=
    ⟨List.cons_ne_nil a [], List.forall_mem_singleton.mpr h⟩
  cases a with
  | junction j args =>
      rw [Formula.operandsFor]
      split
      · exact grounded_junction.mp h
      · exact hsingle
  | literal | var | not | derived | unary | binary => exact hsingle

theorem Grounded.join {k : Junction} {a b : Formula} (ha : a.Grounded)
    (hb : b.Grounded) : (join k a b).Grounded := by
  obtain ⟨hne, hoperands⟩ := ha.operandsFor (k := k)
  rw [join_of_not_literal ha.not_isLiteral hb.not_isLiteral, grounded_junction]
  exact ⟨List.append_ne_nil_of_left_ne_nil hne _,
    List.forall_mem_append.mpr ⟨hoperands, hb.operandsFor.2⟩⟩

theorem Grounded.joinAll {k : Junction} {args : List Formula} (hne : args ≠ [])
    (h : ∀ a ∈ args, a.Grounded) : (joinAll k args).Grounded := by
  induction args with
  | nil => exact absurd rfl hne
  | cons a rest ih =>
      obtain ⟨ha, hrest⟩ := List.forall_mem_cons.mp h
      rw [joinAll_cons]
      cases rest with
      | nil => rwa [joinAll_nil, join_identity_right]
      | cons b rest => exact ha.join (ih (List.cons_ne_nil b rest) hrest)

/-! ## Quantities that connectives pass on -/

variable {α : Type} [PartialOrder α] {of : Formula → α}

/-- A connective has the least upper bound of its operands, whatever its kind,
and a modality acts on its operands monotonically and like its dual. -/
structure Propagates (of : Formula → α) : Prop where
  literal : ∀ value x, of (literal value) ≤ x
  not : ∀ a, of (not a) = of a
  junction : ∀ k args x, of (junction k args) ≤ x ↔ ∀ a ∈ args, of a ≤ x
  derived : ∀ c a b x, of (derived c a b) ≤ x ↔ of a ≤ x ∧ of b ≤ x
  unary : ∀ m a b, of a ≤ of b → of (unary m a) ≤ of (unary m b)
  dual : ∀ m m' a, m.dual? = some m' → of (.unary m' a) = of (.unary m a)
  binary : ∀ m a b c d, of a ≤ of c → of b ≤ of d →
    of (binary m a b) ≤ of (binary m c d)

namespace Propagates

theorem neg (ho : Propagates of) (a : Formula) : of (neg a) = of a := by
  cases a with
  | literal value => exact le_antisymm (ho.literal _ _) (ho.literal _ _)
  | not a => exact (ho.not a).symm
  | var | junction | derived | unary | binary => exact ho.not _

theorem operandsFor (ho : Propagates of) {k : Junction} {a : Formula} {x : α} :
    (∀ b ∈ a.operandsFor k, of b ≤ x) ↔ of a ≤ x := by
  cases a with
  | junction j args =>
      rw [Formula.operandsFor]
      split
      · exact (ho.junction j args x).symm
      · exact List.forall_mem_singleton
  | literal | var | not | derived | unary | binary =>
      exact List.forall_mem_singleton

theorem join_le_iff (ho : Propagates of) {k : Junction} {a b : Formula} {x : α}
    (ha : ¬ a.IsLiteral) (hb : ¬ b.IsLiteral) :
    of (join k a b) ≤ x ↔ of a ≤ x ∧ of b ≤ x := by
  rw [join_of_not_literal ha hb, ho.junction, List.forall_mem_append,
    ho.operandsFor, ho.operandsFor]

theorem join_le (ho : Propagates of) {k : Junction} {a b : Formula} {x : α}
    (ha : of a ≤ x) (hb : of b ≤ x) : of (join k a b) ≤ x := by
  rcases join_cases k a b with ⟨value, h⟩ | h | h | ⟨hla, hlb, -⟩
  · rw [h]
    exact ho.literal value x
  · rwa [h]
  · rwa [h]
  · exact (ho.join_le_iff hla hlb).mpr ⟨ha, hb⟩

theorem le_join (ho : Propagates of) {k : Junction} {a b : Formula}
    (ha : a.Grounded) (hb : b.Grounded) :
    of a ≤ of (join k a b) ∧ of b ≤ of (join k a b) :=
  (ho.join_le_iff ha.not_isLiteral hb.not_isLiteral).mp (le_refl _)

private theorem joinAll_le (ho : Propagates of) {k : Junction}
    {args : List Formula} {x : α} (h : ∀ a ∈ args, of a ≤ x) :
    of (joinAll k args) ≤ x :=
  joinAll_induct (motive := fun a => of a ≤ x) (ho.literal _ x)
    (fun _ _ => ho.join_le) h

private theorem le_joinAll (ho : Propagates of) {k : Junction}
    {args : List Formula} (hgrounded : ∀ a ∈ args, a.Grounded) :
    ∀ a ∈ args, of a ≤ of (joinAll k args) := by
  induction args with
  | nil => simp
  | cons b rest ih =>
      obtain ⟨hb, hrest⟩ := List.forall_mem_cons.mp hgrounded
      rw [joinAll_cons]
      cases rest with
      | nil => simp
      | cons c rest =>
          have hjoined : (joinAll k (c :: rest)).Grounded :=
            .joinAll (List.cons_ne_nil c rest) hrest
          obtain ⟨hle, hbelow⟩ := ho.le_join (k := k) hb hjoined
          exact List.forall_mem_cons.mpr
            ⟨hle, fun a ha => (ih hrest a ha).trans hbelow⟩

end Propagates

/-! ## Rewriting -/

structure Keeps (of : Formula → α) (f g : Formula) : Prop where
  le : of g ≤ of f
  grounded : f.Grounded → g.Grounded
  ge : f.Grounded → of f ≤ of g

namespace Keeps

variable {f g h a a' b b' : Formula}

theorem refl (f : Formula) : Keeps of f f := ⟨le_refl _, id, fun _ => le_refl _⟩

theorem trans (hfg : Keeps of f g) (hgh : Keeps of g h) : Keeps of f h where
  le := hgh.le.trans hfg.le
  grounded hf := hgh.grounded (hfg.grounded hf)
  ge hf := (hfg.ge hf).trans (hgh.ge (hfg.grounded hf))

theorem of_eq (hfg : Keeps of f g) (hf : f.Grounded) : of g = of f :=
  le_antisymm hfg.le (hfg.ge hf)

theorem neg (ho : Propagates of) (f : Formula) : Keeps of f (neg f) where
  le := (ho.neg f).le
  grounded := Grounded.neg
  ge _ := (ho.neg f).ge

theorem not (ho : Propagates of) (a : Formula) : Keeps of (not a) a where
  le := (ho.not a).ge
  grounded := grounded_not.mp
  ge _ := (ho.not a).le

theorem joinAll (ho : Propagates of) (k j : Junction) {args : List Formula}
    {g : Formula → Formula} (h : ∀ a ∈ args, Keeps of a (g a)) :
    Keeps of (junction k args) (joinAll j (args.map g)) where
  le := by
    apply ho.joinAll_le
    rw [List.forall_mem_map]
    intro a ha
    exact (h a ha).le.trans ((ho.junction k args _).mp (le_refl _) a ha)
  grounded hf := by
    obtain ⟨hne, hargs⟩ := grounded_junction.mp hf
    apply Grounded.joinAll
    · simpa using hne
    · exact List.forall_mem_map.mpr fun a ha => (h a ha).grounded (hargs a ha)
  ge hf := by
    obtain ⟨-, hargs⟩ := grounded_junction.mp hf
    have hgrounded : ∀ b ∈ args.map g, b.Grounded :=
      List.forall_mem_map.mpr fun a ha => (h a ha).grounded (hargs a ha)
    rw [ho.junction]
    intro a ha
    exact ((h a ha).ge (hargs a ha)).trans
      (ho.le_joinAll hgrounded _ (List.mem_map_of_mem ha))

theorem join (ho : Propagates of) (k : Junction) (hg : Keeps of f g)
    (hh : Keeps of f h) :
    Keeps of f (join k g h) where
  le := ho.join_le hg.le hh.le
  grounded hf := (hg.grounded hf).join (hh.grounded hf)
  ge hf := (hg.ge hf).trans (ho.le_join (hg.grounded hf) (hh.grounded hf)).1

theorem derived (ho : Propagates of) (c : Connective) (k : Junction)
    (ha : Keeps of a a') (hb : Keeps of b b') :
    Keeps of (derived c a b) (.join k a' b') where
  le := by
    obtain ⟨hlea, hleb⟩ := (ho.derived c a b _).mp (le_refl _)
    exact ho.join_le (ha.le.trans hlea) (hb.le.trans hleb)
  grounded hf := by
    obtain ⟨hfa, hfb⟩ := grounded_derived.mp hf
    exact (ha.grounded hfa).join (hb.grounded hfb)
  ge hf := by
    obtain ⟨hfa, hfb⟩ := grounded_derived.mp hf
    obtain ⟨hlea, hleb⟩ :=
      ho.le_join (k := k) (ha.grounded hfa) (hb.grounded hfb)
    exact (ho.derived c a b _).mpr
      ⟨(ha.ge hfa).trans hlea, (hb.ge hfb).trans hleb⟩

theorem define (ho : Propagates of) (c : Connective) (ha : Keeps of a a')
    (hb : Keeps of b b') : Keeps of (.derived c a b) (define c a' b') := by
  have hna := ha.trans (neg ho a')
  have hnb := hb.trans (neg ho b')
  cases c with
  | implies => exact derived ho .implies .or hna hb
  | equiv =>
      exact join ho .and (derived ho .equiv .or ha hnb)
        (derived ho .equiv .or hna hb)
  | xor =>
      exact join ho .or (derived ho .xor .and ha hnb)
        (derived ho .xor .and hna hb)

theorem unary (ho : Propagates of) (m : UnaryModality) (ha : Keeps of a a') :
    Keeps of (unary m a) (.unary m a') where
  le := ho.unary m _ _ ha.le
  grounded hf := grounded_unary.mpr (ha.grounded (grounded_unary.mp hf))
  ge hf := ho.unary m _ _ (ha.ge (grounded_unary.mp hf))

theorem dual (ho : Propagates of) {m m' : UnaryModality}
    (hdual : m.dual? = some m') (a : Formula) :
    Keeps of (.unary m a) (.unary m' a) where
  le := (ho.dual m m' a hdual).le
  grounded hf := grounded_unary.mpr (grounded_unary.mp hf)
  ge _ := (ho.dual m m' a hdual).ge

theorem binary (ho : Propagates of) (m : BinaryModality) (ha : Keeps of a a')
    (hb : Keeps of b b') : Keeps of (binary m a b) (.binary m a' b') where
  le := ho.binary m _ _ _ _ ha.le hb.le
  grounded hf := by
    obtain ⟨hfa, hfb⟩ := grounded_binary.mp hf
    exact grounded_binary.mpr ⟨ha.grounded hfa, hb.grounded hfb⟩
  ge hf := by
    obtain ⟨hfa, hfb⟩ := grounded_binary.mp hf
    exact ho.binary m _ _ _ _ (ha.ge hfa) (hb.ge hfb)

theorem expand (ho : Propagates of) (f : Formula) : Keeps of f f.expand := by
  induction f using induct with
  | literal | var => exact refl _
  | not a ih => exact (not ho a).trans (ih.trans (neg ho _))
  | junction k args ih =>
      rw [Formula.expand, expandAll_eq_map]
      exact joinAll ho k k ih
  | derived c a b iha ihb => exact define ho c iha ihb
  | unary m a ih => exact unary ho m ih
  | binary m a b iha ihb => exact binary ho m iha ihb

theorem signed (ho : Propagates of) (positive : Bool) (f : Formula) :
    Keeps of f (signed positive f) := by
  cases positive with
  | true => exact refl f
  | false => exact neg ho f

theorem normalize (ho : Propagates of) (positive : Bool) (f : Formula) :
    Keeps of f (normalize positive f) := by
  induction positive, f using polarityInduct with
  | literal positive value =>
      rw [normalize_literal]
      exact signed ho positive _
  | var positive name =>
      rw [normalize_var]
      exact signed ho positive _
  | not positive a ih =>
      rw [normalize_not]
      exact (not ho a).trans ih
  | junction positive k args ih =>
      rw [normalize_junction]
      exact joinAll ho k _ ih
  | derived positive c a b ih =>
      rw [normalize_derived]
      exact (expand ho _).trans ih
  | unary m a ih =>
      rw [normalize_unary_true]
      exact unary ho m ih
  | dual m m' a hdual ih =>
      rw [normalize_unary_of_dual hdual]
      exact (unary ho m ih).trans (dual ho hdual _)
  | atom m a hdual ih =>
      rw [normalize_unary_of_no_dual hdual]
      exact (unary ho m ih).trans (neg ho _)
  | binary positive m a b iha ihb =>
      rw [normalize_binary]
      exact (binary ho m iha ihb).trans (signed ho positive _)

end Keeps

theorem propagates_horizon : Propagates horizon where
  literal _ x := x.zero_le
  not _ := rfl
  junction k args x := by
    rw [horizon, horizonAll_eq_sup, Horizon.sup_le_iff, List.forall_mem_map]
  derived _ _ _ _ := max_le_iff
  unary m _ _ h := Horizon.add_le_add_left h m.lookahead
  dual m m' a h := by rw [horizon, horizon, UnaryModality.lookahead_of_dual? h]
  binary m _ _ _ _ hac hbd :=
    Horizon.add_le_add_left (max_le_max hac hbd) m.lookahead

/-- Neither expansion nor a normal form of a formula or its negation looks
farther ahead than the formula does, and without literals all look as far. -/
theorem horizon_rewritten (f : Formula) :
    (∀ g ∈ [f.expand, f.nnf, f.neg.nnf], g.horizon ≤ f.horizon) ∧
      (Built f → (∀ g ∈ f.subformulas, ∀ value, g ≠ literal value) →
        ∀ g ∈ [f.expand, f.nnf, f.neg.nnf], g.horizon = f.horizon) := by
  have hkeeps : ∀ g ∈ [f.expand, f.nnf, f.neg.nnf], Keeps horizon f g := by
    simp only [List.forall_mem_cons, nnf, normalize_neg]
    exact ⟨.expand propagates_horizon f, .normalize propagates_horizon true f,
      .normalize propagates_horizon false f, by simp⟩
  constructor
  · exact fun g hg => (hkeeps g hg).le
  · exact fun hbuilt hliteral g hg =>
      (hkeeps g hg).of_eq (hbuilt.semiReduced.grounded hliteral)

theorem horizon_rewritten_equiv :
    let f := derived .equiv (unary (.next (some 2)) (var "p"))
      (unary (.always (some ⟨some 0, some 5, by decide⟩)) (var "q"))
    Built f ∧ (∀ g ∈ f.subformulas, ∀ value, g ≠ literal value) ∧
      ∀ g ∈ [f.expand, f.nnf, f.neg.nnf], g.horizon = .bounded 5 := by
  intro f
  have hbuilt : Built f :=
    .derived .equiv (.unary _ nofun (.var "p")) (.unary _ nofun (.var "q"))
  have hliteral : ∀ g ∈ f.subformulas, ∀ value, g ≠ literal value := by decide
  exact ⟨hbuilt, hliteral, (horizon_rewritten f).2 hbuilt hliteral⟩

/-- A literal may absorb an operand and all that it looks ahead. -/
example :
    (derived .implies (unary (.always none) (var "p")) top).horizon =
      .unbounded ∧
    (derived .implies (unary (.always none) (var "p")) top).expand.horizon =
      .zero := by
  decide

end Formula

end LayeredLogic
