import LayeredLogic.Proofs.Reduced

/-!
# Properties of all nodes

A property that every node of a formula has is kept by the operations that build
formulas, as long as the nodes that they add have it.  Rewriting adds negations,
junctions and literals, and it puts a modality over other operands or its dual
in its place.
-/

namespace LayeredLogic

namespace Formula

@[elab_as_elim]
theorem childInduct {motive : Formula → Prop}
    (step : ∀ f, (∀ a ∈ f.children, motive a) → motive f) (f : Formula) :
    motive f := by
  induction f using induct with
  | literal | var => exact step _ (by simp [children])
  | not a ih | unary _ a ih => exact step _ (List.forall_mem_singleton.mpr ih)
  | junction k args ih => exact step _ ih
  | derived _ a b iha ihb | binary _ a b iha ihb =>
      exact step _
        (List.forall_mem_cons.mpr ⟨iha, List.forall_mem_singleton.mpr ihb⟩)

section

variable {P : Formula → Prop}

theorem forall_mem_subformulas_neg (hliteral : ∀ value, P (literal value))
    (hnot : ∀ a, P (not a)) {a : Formula} (ha : ∀ g ∈ a.subformulas, P g) :
    ∀ g ∈ (neg a).subformulas, P g := by
  cases a with
  | literal value =>
      exact forall_mem_subformulas_iff.mpr ⟨hliteral _, by simp [children]⟩
  | not a => exact (forall_mem_subformulas_iff.mp ha).2 a (by simp [children])
  | var | junction | derived | unary | binary =>
      exact forall_mem_subformulas_iff.mpr
        ⟨hnot _, List.forall_mem_singleton.mpr ha⟩

theorem forall_mem_subformulas_unary {m : UnaryModality} {a : Formula}
    (hnode : P (unary m a)) (ha : ∀ g ∈ a.subformulas, P g) :
    ∀ g ∈ (unary m a).subformulas, P g :=
  forall_mem_subformulas_iff.mpr ⟨hnode, List.forall_mem_singleton.mpr ha⟩

theorem forall_mem_subformulas_binary {m : BinaryModality} {a b : Formula}
    (hnode : P (binary m a b)) (ha : ∀ g ∈ a.subformulas, P g)
    (hb : ∀ g ∈ b.subformulas, P g) : ∀ g ∈ (binary m a b).subformulas, P g :=
  forall_mem_subformulas_iff.mpr
    ⟨hnode, List.forall_mem_cons.mpr ⟨ha, List.forall_mem_singleton.mpr hb⟩⟩

variable {k : Junction}

theorem forall_mem_subformulas_operandsFor {a b : Formula}
    (ha : ∀ g ∈ a.subformulas, P g) (hb : b ∈ a.operandsFor k) :
    ∀ g ∈ b.subformulas, P g := by
  cases a with
  | junction j args =>
      simp only [operandsFor] at hb
      split at hb
      · exact (forall_mem_subformulas_iff.mp ha).2 b hb
      · rwa [List.mem_singleton.mp hb]
  | literal | var | not | derived | unary | binary =>
      rwa [List.mem_singleton.mp hb]

theorem forall_mem_subformulas_join (hliteral : ∀ value, P (literal value))
    (hjunction : ∀ args, P (junction k args)) {a b : Formula}
    (ha : ∀ g ∈ a.subformulas, P g) (hb : ∀ g ∈ b.subformulas, P g) :
    ∀ g ∈ (join k a b).subformulas, P g := by
  rcases join_cases k a b with ⟨value, h⟩ | h | h | ⟨-, -, h⟩
  · rw [h]
    exact forall_mem_subformulas_iff.mpr ⟨hliteral _, by simp [children]⟩
  · rwa [h]
  · rwa [h]
  · rw [h, forall_mem_subformulas_iff]
    refine ⟨hjunction _, ?_⟩
    intro c hc
    rcases List.mem_append.mp hc with hc | hc
    · exact forall_mem_subformulas_operandsFor ha hc
    · exact forall_mem_subformulas_operandsFor hb hc

theorem forall_mem_subformulas_joinAll (hliteral : ∀ value, P (literal value))
    (hjunction : ∀ args, P (junction k args)) {args : List Formula}
    (h : ∀ a ∈ args, ∀ g ∈ a.subformulas, P g) :
    ∀ g ∈ (joinAll k args).subformulas, P g := by
  refine joinAll_induct (motive := fun a => ∀ g ∈ a.subformulas, P g) ?_ ?_ h
  · exact forall_mem_subformulas_iff.mpr ⟨hliteral _, by simp [children]⟩
  · intro a b ha hb
    exact forall_mem_subformulas_join hliteral hjunction ha hb

end

/-- A node property that rewriting keeps: what rewriting may add has it, and a
modal node has it by its modality alone. -/
structure Invariant (P : Formula → Prop) : Prop where
  literal : ∀ value, P (literal value)
  not : ∀ a, P (not a)
  junction : ∀ k args, P (junction k args)
  unary : ∀ m a b, P (unary m a) → P (unary m b)
  dual : ∀ m m' a b, m.dual? = some m' → P (.unary m a) → P (.unary m' b)
  binary : ∀ m a b c d, P (binary m a b) → P (binary m c d)

namespace Invariant

variable {P : Formula → Prop} {a b f : Formula}

theorem neg (hP : Invariant P) (ha : ∀ g ∈ a.subformulas, P g) :
    ∀ g ∈ (neg a).subformulas, P g :=
  forall_mem_subformulas_neg hP.literal hP.not ha

theorem join (hP : Invariant P) (k : Junction) (ha : ∀ g ∈ a.subformulas, P g)
    (hb : ∀ g ∈ b.subformulas, P g) : ∀ g ∈ (join k a b).subformulas, P g :=
  forall_mem_subformulas_join hP.literal (hP.junction k) ha hb

theorem joinAll (hP : Invariant P) (k : Junction) {args : List Formula}
    (h : ∀ a ∈ args, ∀ g ∈ a.subformulas, P g) :
    ∀ g ∈ (joinAll k args).subformulas, P g :=
  forall_mem_subformulas_joinAll hP.literal (hP.junction k) h

theorem define (hP : Invariant P) (c : Connective)
    (ha : ∀ g ∈ a.subformulas, P g) (hb : ∀ g ∈ b.subformulas, P g) :
    ∀ g ∈ (define c a b).subformulas, P g := by
  have hna := hP.neg ha
  have hnb := hP.neg hb
  cases c with
  | implies => exact hP.join .or hna hb
  | equiv => exact hP.join .and (hP.join .or ha hnb) (hP.join .or hna hb)
  | xor => exact hP.join .or (hP.join .and ha hnb) (hP.join .and hna hb)

theorem expand (hP : Invariant P) (h : ∀ g ∈ f.subformulas, P g) :
    ∀ g ∈ f.expand.subformulas, P g := by
  induction f using childInduct with
  | step f ih =>
      obtain ⟨hnode, hbelow⟩ := forall_mem_subformulas_iff.mp h
      have hargs : ∀ a ∈ f.children, ∀ g ∈ a.expand.subformulas, P g :=
        fun a ha => ih a ha (hbelow a ha)
      cases f with
      | literal | var => exact h
      | not a => exact hP.neg (hargs a (by simp [children]))
      | junction k args =>
          rw [Formula.expand, expandAll_eq_map]
          exact hP.joinAll k (List.forall_mem_map.mpr hargs)
      | derived c a b =>
          exact hP.define c (hargs a (by simp [children]))
            (hargs b (by simp [children]))
      | unary m a =>
          have ha := hargs a (by simp [children])
          exact forall_mem_subformulas_unary (hP.unary m _ _ hnode) ha
      | binary m a b =>
          have ha := hargs a (by simp [children])
          have hb := hargs b (by simp [children])
          exact forall_mem_subformulas_binary (hP.binary m _ _ _ _ hnode) ha hb

theorem signed (hP : Invariant P) (positive : Bool)
    (ha : ∀ g ∈ a.subformulas, P g) :
    ∀ g ∈ (signed positive a).subformulas, P g := by
  cases positive with
  | true => exact ha
  | false => exact hP.neg ha

theorem normalize (hP : Invariant P) {positive : Bool}
    (h : ∀ g ∈ f.subformulas, P g) :
    ∀ g ∈ (normalize positive f).subformulas, P g := by
  induction positive, f using polarityInduct with
  | literal positive value =>
      rw [normalize_literal]
      exact hP.signed positive h
  | var positive name =>
      rw [normalize_var]
      exact hP.signed positive h
  | not positive a ih =>
      obtain ⟨-, hbelow⟩ := forall_mem_subformulas_iff.mp h
      rw [normalize_not]
      exact ih (hbelow a (by simp [children]))
  | junction positive k args ih =>
      obtain ⟨-, hbelow⟩ := forall_mem_subformulas_iff.mp h
      rw [normalize_junction]
      exact hP.joinAll _
        (List.forall_mem_map.mpr fun a ha => ih a ha (hbelow a ha))
  | derived positive c a b ih =>
      rw [normalize_derived]
      exact ih (hP.expand h)
  | unary m a ih =>
      obtain ⟨hnode, hbelow⟩ := forall_mem_subformulas_iff.mp h
      have ha := ih (hbelow a (by simp [children]))
      rw [normalize_unary_true]
      exact forall_mem_subformulas_unary (hP.unary m _ _ hnode) ha
  | dual m m' a hdual ih =>
      obtain ⟨hnode, hbelow⟩ := forall_mem_subformulas_iff.mp h
      have ha := ih (hbelow a (by simp [children]))
      rw [normalize_unary_of_dual hdual]
      exact forall_mem_subformulas_unary (hP.dual m m' _ _ hdual hnode) ha
  | atom m a hdual ih =>
      obtain ⟨hnode, hbelow⟩ := forall_mem_subformulas_iff.mp h
      have ha := ih (hbelow a (by simp [children]))
      rw [normalize_unary_of_no_dual hdual]
      have hatom :=
        forall_mem_subformulas_unary
          (hP.unary m _ (Formula.normalize true a) hnode) ha
      exact forall_mem_subformulas_iff.mpr
        ⟨hP.not _, List.forall_mem_singleton.mpr hatom⟩
  | binary positive m a b iha ihb =>
      obtain ⟨hnode, hbelow⟩ := forall_mem_subformulas_iff.mp h
      have ha := iha (hbelow a (by simp [children]))
      have hb := ihb (hbelow b (by simp [children]))
      rw [normalize_binary]
      apply hP.signed positive
      exact forall_mem_subformulas_binary (hP.binary m _ _ _ _ hnode) ha hb

end Invariant

end Formula

end LayeredLogic
