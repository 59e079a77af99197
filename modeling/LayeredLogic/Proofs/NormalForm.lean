import LayeredLogic.Proofs.Built
import LayeredLogic.Proofs.Nodes

/-!
# Normal forms

In a negation normal form a negation stands over an atom only, which is a
variable or a modality without a dual, and there is no derived connective.  A
semi-reduced formula of this kind is its own normal form, because its operands
can be joined again as they are; likewise expansion changes no semi-reduced
formula without derived connectives.
-/

namespace LayeredLogic

namespace Formula

def derivedOperators : List Operator := [.implies, .equiv, .xor]

theorem exists_eq_derived {f : Formula} (h : f.operator ∈ derivedOperators) :
    ∃ c a b, f = derived c a b := by
  cases f with
  | derived c a b => exact ⟨c, a, b, rfl⟩
  | literal | var | not => simp [derivedOperators, operator] at h
  | junction k =>
      cases k <;> simp [derivedOperators, operator, Junction.operator] at h
  | binary m =>
      cases m <;>
        simp [derivedOperators, operator, BinaryModality.operator] at h
  | unary m =>
      have hbase : m.operator.layer = .base := by
        simp only [derivedOperators, operator, List.mem_cons, List.not_mem_nil,
          or_false] at h
        rcases h with h | h | h <;> rw [h] <;> rfl
      cases m with
      | graph direction => cases direction <;> cases hbase
      | next | always | eventually | everywhere | somewhere | escape =>
          cases hbase

theorem hasDerived_of_mem_subformulas {f g : Formula} (hg : g ∈ f.subformulas)
    (h : g.hasDerived = true) : f.hasDerived = true := by
  induction f using childInduct with
  | step f ih =>
      rw [subformulas_eq] at hg
      rcases List.mem_cons.mp hg with rfl | hg
      · exact h
      · obtain ⟨a, ha, hg⟩ := List.mem_flatMap.mp hg
        exact hasDerived_of_mem_children ha (ih a ha hg)

private theorem expand_of_hasDerived_eq_false {f : Formula}
    (hreduced : f.SemiReduced) (h : f.hasDerived = false) : f.expand = f := by
  induction f using induct with
  | literal | var => rfl
  | not a ih =>
      obtain ⟨hnegatable, ha⟩ := semiReduced_not.mp hreduced
      rw [expand, ih ha h, neg_of_negatable hnegatable]
  | junction k args ih =>
      obtain ⟨hlength, hargs⟩ := semiReduced_junction.mp hreduced
      have hall := anyDerived_eq_false.mp h
      have hmap : args.map expand = args := by
        rw [List.map_congr_left fun a ha => ih a ha (hargs a ha).2 (hall a ha),
          List.map_id']
      rw [expand, expandAll_eq_map, hmap]
      exact joinAll_of_joinable hlength fun a ha => (hargs a ha).1
  | derived c a b => cases h
  | unary m a ih => rw [expand, ih (semiReduced_unary.mp hreduced).2 h]
  | binary m a b iha ihb =>
      obtain ⟨ha, hb⟩ := semiReduced_binary.mp hreduced
      rw [hasDerived, Bool.or_eq_false_iff] at h
      rw [expand, iha ha h.1, ihb hb h.2]

def atomOperators : List Operator :=
  [.variable, .until, .reach, .escape, .graphIncoming, .graphOutgoing]

def IsAtom : Formula → Prop
  | var _ | binary _ _ _ => True
  | unary m _ => m.dual? = none
  | literal _ | not _ | junction _ _ | derived _ _ _ => False

private theorem operator_mem_of_isAtom {a : Formula} (h : a.IsAtom) :
    a.operator ∈ atomOperators := by
  cases a with
  | var name => exact List.mem_cons_self
  | unary m a =>
      cases m with
      | escape bounds => simp [atomOperators, operator, UnaryModality.operator]
      | graph direction labels edges =>
          cases direction <;>
            simp [atomOperators, operator, UnaryModality.operator,
              Direction.operator]
      | next | always | eventually | everywhere | somewhere => cases h
  | binary m a b =>
      cases m <;> simp [atomOperators, operator, BinaryModality.operator]
  | literal | not | junction | derived => exact absurd h id

def NodeNormal : Formula → Prop
  | not a => a.IsAtom
  | derived _ _ _ => False
  | literal _ | var _ | junction _ _ | unary _ _ | binary _ _ _ => True

def Normal (f : Formula) : Prop := ∀ g ∈ f.subformulas, g.NodeNormal

theorem normal_iff {f : Formula} :
    f.Normal ↔ f.NodeNormal ∧ ∀ a ∈ f.children, a.Normal :=
  forall_mem_subformulas_iff

private theorem normal_literal (value : Bool) : (literal value).Normal :=
  normal_iff.mpr ⟨trivial, by simp [children]⟩

theorem normal_not {a : Formula} (hatom : a.IsAtom) (ha : a.Normal) :
    (not a).Normal :=
  normal_iff.mpr ⟨hatom, List.forall_mem_singleton.mpr ha⟩

private theorem normal_normalize (positive : Bool) (f : Formula) :
    (normalize positive f).Normal := by
  induction positive, f using polarityInduct with
  | literal positive value =>
      rw [normalize_literal]
      cases positive <;> exact normal_literal _
  | var positive name =>
      have hvar : (var name).Normal :=
        normal_iff.mpr ⟨trivial, by simp [children]⟩
      rw [normalize_var]
      cases positive with
      | true => exact hvar
      | false => exact normal_not trivial hvar
  | not positive a ih => rwa [normalize_not]
  | junction positive k args ih =>
      rw [normalize_junction]
      have hargs : ∀ b ∈ args.map (normalize positive),
          ∀ g ∈ b.subformulas, g.NodeNormal :=
        List.forall_mem_map.mpr ih
      exact forall_mem_subformulas_joinAll (fun _ => trivial)
        (fun _ => trivial) hargs
  | derived positive c a b ih => rwa [normalize_derived]
  | unary m a ih =>
      rw [normalize_unary_true]
      exact forall_mem_subformulas_unary trivial ih
  | dual m m' a hdual ih =>
      rw [normalize_unary_of_dual hdual]
      exact forall_mem_subformulas_unary trivial ih
  | atom m a hdual ih =>
      rw [normalize_unary_of_no_dual hdual]
      exact normal_not hdual (forall_mem_subformulas_unary trivial ih)
  | binary positive m a b iha ihb =>
      have hbinary : (binary m (normalize true a) (normalize true b)).Normal :=
        forall_mem_subformulas_binary trivial iha ihb
      rw [normalize_binary]
      cases positive with
      | true => exact hbinary
      | false => exact normal_not trivial hbinary

private theorem normalize_false_of_isAtom {a : Formula} (h : a.IsAtom) :
    normalize false a = not (normalize true a) := by
  cases a with
  | var name => simp [signed, neg]
  | unary m a => rw [normalize_unary_of_no_dual h, normalize_unary_true]
  | binary m a b => simp [signed, neg]
  | literal | not | junction | derived => exact absurd h id

private theorem normalize_of_normal {f : Formula} (hreduced : f.SemiReduced)
    (h : f.Normal) : normalize true f = f := by
  induction f using induct with
  | literal | var => simp [signed]
  | not a ih =>
      obtain ⟨hatom, hbelow⟩ := normal_iff.mp h
      have ha :=
        ih (semiReduced_not.mp hreduced).2 (hbelow a List.mem_cons_self)
      rw [normalize_not, Bool.not_true, normalize_false_of_isAtom hatom, ha]
  | junction k args ih =>
      obtain ⟨hlength, hargs⟩ := semiReduced_junction.mp hreduced
      obtain ⟨-, hbelow⟩ := normal_iff.mp h
      have hmap : args.map (normalize true) = args := by
        rw [List.map_congr_left fun a ha =>
          ih a ha (hargs a ha).2 (hbelow a ha), List.map_id']
      rw [normalize_junction, hmap]
      exact joinAll_of_joinable hlength fun a ha => (hargs a ha).1
  | derived c a b => exact absurd (normal_iff.mp h).1 id
  | unary m a ih =>
      obtain ⟨-, hbelow⟩ := normal_iff.mp h
      have ha :=
        ih (semiReduced_unary.mp hreduced).2 (hbelow a List.mem_cons_self)
      rw [normalize_unary_true, ha]
  | binary m a b iha ihb =>
      obtain ⟨ha, hb⟩ := semiReduced_binary.mp hreduced
      obtain ⟨-, hbelow⟩ := normal_iff.mp h
      simp only [children, List.forall_mem_cons] at hbelow
      rw [normalize_binary, iha ha hbelow.1, ihb hb hbelow.2.1]
      rfl

end Formula

open Formula in
/-- The shape of what the rewritings give, and that they change nothing when
done again. -/
theorem Built.shape_nnf_expand {f : Formula} (h : Built f) :
    (∀ a, .not a ∈ f.nnf.subformulas → a.operator ∈ atomOperators) ∧
      (∀ g ∈ f.nnf.subformulas ++ f.expand.subformulas,
        g.operator ∉ derivedOperators) ∧
      f.nnf.nnf = f.nnf ∧ f.expand.expand = f.expand := by
  have hnormal : f.nnf.Normal := normal_normalize true f
  have hexpanded : f.expand.hasDerived = false := hasDerived_expand f
  refine ⟨?_, ?_, ?_, ?_⟩
  · intro a ha
    exact operator_mem_of_isAtom (hnormal (.not a) ha)
  · intro g hg hoperator
    obtain ⟨c, a, b, rfl⟩ := exists_eq_derived hoperator
    rcases List.mem_append.mp hg with hg | hg
    · exact hnormal _ hg
    · rw [hasDerived_of_mem_subformulas hg rfl] at hexpanded
      cases hexpanded
  · exact normalize_of_normal h.nnf.semiReduced hnormal
  · exact expand_of_hasDerived_eq_false h.expand.semiReduced hexpanded

open Formula in
/-- In `!((p -> q) U (q ^ false))` the negation stays over the until, whose
right operand collapses to `q`. -/
theorem shape_nnf_expand_until :
    let f := not (binary (.until none) (derived .implies (var "p") (var "q"))
      (derived .xor (var "q") bottom))
    let g := not (binary (.until none)
      (junction .or [not (var "p"), var "q"]) (var "q"))
    Built f ∧ nnf f = g ∧ nnf g = g := by
  intro f g
  have hbuilt : Built f :=
    .neg (.binary _ (.derived _ (.var "p") (.var "q"))
      (.derived _ (.var "q") (.literal false)))
  have hnnf : nnf f = g := by
    simp [f, g, nnf, signed, normalize_derived, expand, define, join, joinAll,
      operandsFor, neg, Junction.identity, Junction.signed]
  have hagain := hbuilt.shape_nnf_expand.2.2.1
  rw [hnnf] at hagain
  exact ⟨hbuilt, hnnf, hagain⟩

end LayeredLogic
