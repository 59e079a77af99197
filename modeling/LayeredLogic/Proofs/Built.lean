import LayeredLogic.Proofs.Assembly
import LayeredLogic.Proofs.Reduced
import LayeredLogic.Assembly.Assemble

/-!
# Formulas that can be built

`Built` closes the constructors, the rewritings, the reader and the assembly of
trees under composition.  Whatever comes out is semi-reduced and its intervals
are in order.
-/

namespace LayeredLogic

/-- The formulas that come out of any composition of the operations on formulas.
A map over the operands of a modal node may keep a state of its own. -/
inductive Built : Formula → Prop
  | literal (value : Bool) : Built (.literal value)
  | var (name : String) : Built (.var name)
  | neg {a : Formula} : Built a → Built a.neg
  | join (k : Junction) {a b : Formula} : Built a → Built b →
      Built (.join k a b)
  | joinAll (k : Junction) {args : List Formula} :
      (∀ a ∈ args, Built a) → Built (.joinAll k args)
  | join? (k : Junction) {args : List Formula} {f : Formula} :
      (∀ a ∈ args, Built a) → Formula.join? k args = .ok f → Built f
  | derived (c : Connective) {a b : Formula} : Built a → Built b →
      Built (.derived c a b)
  | unary (m : UnaryModality) {a : Formula} :
      (∀ direction labels edges, m ≠ .graph direction labels edges) → Built a →
        Built (.unary m a)
  | graph? (direction : Direction) (labels : LabelSet) (edges : Option Interval)
      {a f : Formula} : Built a → Formula.graph? direction labels edges a =
        .ok f → Built f
  | binary (m : BinaryModality) {a b : Formula} : Built a → Built b →
      Built (.binary m a b)
  | mapOperands {σ : Type} (node : Modal) (g : Formula → StateM σ Formula)
      (s : σ) :
      Built node.toFormula → (∀ a ∈ node.operands, ∀ s, Built ((g a).run s).1) →
        Built ((node.mapOperandsM g).run s).1
  | dual {σ : Type} (node : Modal) (g : Formula → StateM σ Formula) (s : σ)
      {f : Formula} :
      Built node.toFormula → (∀ a ∈ node.operands, ∀ s, Built ((g a).run s).1) →
        ((node.dualM? g).run s).1 = some f → Built f
  | child {f a : Formula} : Built f → a ∈ f.children → Built a
  | expand {f : Formula} : Built f → Built f.expand
  | nnf {f : Formula} : Built f → Built f.nnf
  | parse {layer : Layer} {source : String} {f : Formula} :
      Formula.parse layer source = .ok f → Built f
  | assemble {layer : Layer} {t : Tree} {f : Formula} :
      (RuleTable.ofLayer layer).assemble t = .ok f → Built f

namespace Formula

private theorem semiReduced_join? {k : Junction} {args : List Formula}
    {f : Formula} (hargs : ∀ a ∈ args, a.SemiReduced)
    (h : join? k args = .ok f) : f.SemiReduced := by
  unfold join? at h
  split at h
  · cases h
  · obtain rfl := Except.ok.inj h
    exact semiReduced_joinAll hargs

private theorem semiReduced_graph? {direction : Direction} {labels : LabelSet}
    {edges : Option Interval} {a f : Formula} (ha : a.SemiReduced)
    (h : graph? direction labels edges a = .ok f) : f.SemiReduced := by
  unfold graph? at h
  split at h
  · cases h
  · rename_i hlabels
    obtain rfl := Except.ok.inj h
    exact semiReduced_unary.mpr ⟨Bool.eq_false_iff.mpr hlabels, ha⟩

end Formula

def Value.SemiReduced (v : Value) : Prop := ∀ f, v = .formula f → f.SemiReduced

private theorem Rule.labelled_of_unary? {rule : Rule}
    {modality : Option Interval → UnaryModality}
    (h : rule.unary? = some modality) (bounds : Option Interval) :
    (modality bounds).Labelled := by
  cases rule <;> cases h <;> trivial

open Formula in
theorem Rule.Makes.semiReduced {rule : Rule} {values : List Value} {v : Value}
    (h : rule.Makes values v) (hvalues : ∀ w ∈ values, w.SemiReduced) :
    v.SemiReduced := by
  have operand : ∀ {a}, Value.formula a ∈ values → a.SemiReduced :=
    fun ha => hvalues _ ha _ rfl
  rintro f hf
  cases h with
  | negation a =>
      obtain rfl := Value.formula.inj hf
      exact semiReduced_neg (operand (by simp))
  | junction k args hlength =>
      obtain rfl := Value.formula.inj hf
      exact semiReduced_joinAll fun a ha => operand (List.mem_map_of_mem ha)
  | derived c a b =>
      obtain rfl := Value.formula.inj hf
      exact semiReduced_derived.mpr ⟨operand (by simp), operand (by simp)⟩
  | atom name =>
      obtain rfl := Value.formula.inj hf
      exact semiReduced_var name
  | literal spelling =>
      obtain rfl := Value.formula.inj hf
      exact semiReduced_literal _
  | next count steps a hsteps =>
      obtain rfl := Value.formula.inj hf
      exact semiReduced_unary.mpr ⟨trivial, operand (by simp)⟩
  | unary rule modality hknown bounds a =>
      obtain rfl := Value.formula.inj hf
      exact semiReduced_unary.mpr
        ⟨labelled_of_unary? hknown bounds, operand (by simp)⟩
  | binary rule modality hknown bounds a b =>
      obtain rfl := Value.formula.inj hf
      exact semiReduced_binary.mpr ⟨operand (by simp), operand (by simp)⟩
  | graph direction labels edges a hlabels =>
      obtain rfl := Value.formula.inj hf
      exact semiReduced_unary.mpr ⟨hlabels, operand (by simp)⟩
  | interval | graphList => cases hf

theorem RuleTable.semiReduced_of_assemble {layer : Layer} {t : Tree}
    {f : Formula} (h : (ofLayer layer).assemble t = .ok f) : f.SemiReduced := by
  have hvalue : (Value.formula f).SemiReduced := by
    refine value_invariant (motive := Value.SemiReduced) ?_ ?_ ?_
      (assemble_eq_ok_iff.mp h)
    · intro token v hv g hg
      rcases tokenValue_eq_ok hv with ⟨name, rfl⟩ | ⟨n, rfl⟩ <;> cases hg
    · intro g hg
      cases hg
    · intro name values v hvalues hv
      obtain ⟨rule, -, -, hmakes⟩ := ruleValue_ofLayer_iff.mp hv
      exact hmakes.semiReduced hvalues
  exact hvalue f rfl

theorem mapError_eq_ok_iff {ε ε' α : Type} {f : ε → ε'} {r : Except ε α}
    {a : α} : r.mapError f = .ok a ↔ r = .ok a := by
  cases r with
  | error e =>
      constructor
      · intro h
        cases h
      · intro h
        cases h
  | ok b =>
      constructor
      · intro h
        cases h
        rfl
      · intro h
        cases h
        rfl

theorem Formula.parse_eq_ok_iff {layer : Layer} {source : String}
    {f : Formula} :
    parse layer source = .ok f ↔
      ∃ t, Tree.parse layer source = .ok t ∧
      (RuleTable.ofLayer layer).assemble t = .ok f := by
  unfold parse
  cases ht : Tree.parse layer source with
  | error e =>
      constructor
      · intro h
        cases h
      · rintro ⟨t, ht', -⟩
        cases ht'
  | ok t =>
      constructor
      · intro h
        exact ⟨t, rfl, mapError_eq_ok_iff.mp h⟩
      · rintro ⟨u, hu, h⟩
        cases hu
        exact mapError_eq_ok_iff.mpr h

open Formula in
theorem Built.semiReduced {f : Formula} (h : Built f) : f.SemiReduced := by
  induction h with
  | literal value => exact semiReduced_literal value
  | var name => exact semiReduced_var name
  | neg _ ih => exact semiReduced_neg ih
  | join k _ _ iha ihb => exact semiReduced_join iha ihb
  | joinAll k _ ih => exact semiReduced_joinAll ih
  | join? k _ hf ih => exact semiReduced_join? ih hf
  | derived c _ _ iha ihb => exact semiReduced_derived.mpr ⟨iha, ihb⟩
  | unary m hm _ ih =>
      refine semiReduced_unary.mpr ⟨?_, ih⟩
      cases m with
      | graph direction labels edges =>
          exact absurd rfl (hm direction labels edges)
      | next | always | eventually | everywhere | somewhere | escape => trivial
  | graph? direction labels edges _ hf ih => exact semiReduced_graph? ih hf
  | binary m _ _ iha ihb => exact semiReduced_binary.mpr ⟨iha, ihb⟩
  | mapOperands node g s _ _ ih ihg =>
      cases node with
      | unary m a =>
          have ha :=
            ihg a (by simp [Modal.operands, Modal.toFormula, children]) s
          exact semiReduced_unary.mpr ⟨(semiReduced_unary.mp ih).1, ha⟩
      | binary m a b =>
          have ha :=
            ihg a (by simp [Modal.operands, Modal.toFormula, children]) s
          have hb := ihg b (by simp [Modal.operands, Modal.toFormula, children])
          exact semiReduced_binary.mpr ⟨ha, hb _⟩
  | dual node g s _ _ hf ih ihg =>
      cases node with
      | unary m a =>
          cases hdual : m.dual? with
          | none =>
              rw [Modal.dualM?, hdual] at hf
              cases hf
          | some m' =>
              rw [Modal.dualM?, hdual] at hf
              obtain rfl := Option.some.inj hf
              have ha :=
                ihg a (by simp [Modal.operands, Modal.toFormula, children]) s
              exact semiReduced_unary.mpr ⟨labelled_of_dual hdual, ha⟩
      | binary m a b => cases hf
  | child _ ha ih => exact ih.child ha
  | expand _ ih => exact semiReduced_expand ih
  | nnf _ ih => exact semiReduced_nnf ih
  | parse hf =>
      obtain ⟨t, -, ht⟩ := parse_eq_ok_iff.mp hf
      exact RuleTable.semiReduced_of_assemble ht
  | assemble hf => exact RuleTable.semiReduced_of_assemble hf

def UnaryModality.bounds : UnaryModality → Option Interval
  | next _ => none
  | always i | eventually i | everywhere i | somewhere i | escape i
      | graph _ _ i => i

def Formula.interval? : Formula → Option Interval
  | unary m _ => m.bounds
  | binary m _ _ => m.bounds
  | literal _ | var _ | not _ | junction _ _ | derived _ _ _ => none

open Formula in
/-- What holds at every node of a formula that any composition of the operations
can give. -/
theorem Built.reduced_everywhere {f : Formula} (h : Built f) {g : Formula}
    (hg : g ∈ f.subformulas) :
    (∀ a, g = .not a → (∀ value, a ≠ .literal value) ∧ ∀ b, a ≠ .not b) ∧
      (∀ k args, g = .junction k args → 2 ≤ args.length ∧
        ∀ a ∈ args, (∀ value, a ≠ .literal value) ∧
          ∀ others, a ≠ .junction k others) ∧
      (∀ direction labels edges a,
        g = .unary (.graph direction labels edges) a →
        ∃ label, label ∈ labels) ∧
      (∀ i start stop, g.interval? = some i → i.start = some start →
        i.stop = some stop →
        start < stop) := by
  have hnode : g.NodeReduced := h.semiReduced g hg
  refine ⟨?_, ?_, ?_, ?_⟩
  · rintro a rfl
    obtain ⟨hliteral, hnot⟩ := hnode
    exact ⟨fun value ha => hliteral ⟨value, ha⟩, hnot⟩
  · rintro k args rfl
    obtain ⟨hlength, hargs⟩ := hnode
    refine ⟨hlength, ?_⟩
    intro a ha
    obtain ⟨hliteral, hjunction⟩ := hargs a ha
    exact ⟨fun value h => hliteral ⟨value, h⟩,
      fun others h => hjunction ⟨others, h⟩⟩
  · rintro direction labels edges a rfl
    have hlabels : labels.names ≠ [] := List.isEmpty_eq_false_iff.mp hnode
    exact List.exists_mem_of_ne_nil _ hlabels
  · intro i start stop _ hstart hstop
    exact Interval.start_lt_stop hstart hstop

/-- What `a ^ !b` expands to is reduced at its outer node. -/
theorem reduced_everywhere_expand_xor :
    Built (.junction .or [.junction .and [.var "a", .var "b"],
      .junction .and [.not (.var "a"), .not (.var "b")]]) ∧
    ∀ x ∈ [Formula.junction .and [.var "a", .var "b"],
      .junction .and [.not (.var "a"), .not (.var "b")]],
      (∀ value, x ≠ .literal value) ∧ ∀ others, x ≠ .junction .or others := by
  have hbuilt : Built (.expand (.derived .xor (.var "a") (.neg (.var "b")))) :=
    .expand (.derived .xor (.var "a") (.neg (.var "b")))
  have hnodes := hbuilt.reduced_everywhere (g := .junction .or
    [.junction .and [.var "a", .var "b"],
      .junction .and [.not (.var "a"), .not (.var "b")]])
    (by decide)
  exact ⟨hbuilt, (hnodes.2.1 .or _ rfl).2⟩

end LayeredLogic
