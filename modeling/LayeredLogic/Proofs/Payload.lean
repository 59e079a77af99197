import LayeredLogic.Proofs.Built
import LayeredLogic.Proofs.Nodes

/-!
# Operand lists of junctions

The operand list of a junction does not tell of which kind the junction is, so
that it can be put under either kind.  Under its own it gives the junction back.
Under the other there are at least two operands and no literal again, but there
may be junctions of that kind among them, which the operations would have
spliced.
-/

namespace LayeredLogic

open Formula

/-- The operand list of a junction, without its kind. -/
def Formula.payload? : Formula → Option (List Formula)
  | junction _ args => some args
  | literal _ | var _ | not _ | derived _ _ _ | unary _ _ | binary _ _ _ => none

private theorem Formula.payload?_eq_some_iff {g : Formula}
    {args : List Formula} :
    g.payload? = some args ↔ ∃ k, g = junction k args := by
  cases g <;> simp [payload?]

private theorem Formula.joinAll_eq_junction_iff {k : Junction}
    {args : List Formula} (h : ∀ a ∈ args, a.SemiReduced) :
    joinAll k args = junction k args ↔ (junction k args).SemiReduced := by
  constructor
  · intro hjoin
    rw [← hjoin]
    exact semiReduced_joinAll h
  · intro hreduced
    obtain ⟨hlength, hargs⟩ := semiReduced_junction.mp hreduced
    exact joinAll_of_joinable hlength fun a ha => (hargs a ha).1

private theorem Built.of_mem_subformulas {f g : Formula} (h : Built f)
    (hg : g ∈ f.subformulas) : Built g := by
  induction f using childInduct with
  | step f ih =>
      rw [subformulas_eq] at hg
      rcases List.mem_cons.mp hg with rfl | hg
      · exact h
      · obtain ⟨a, ha, hg⟩ := List.mem_flatMap.mp hg
        exact ih a ha (h.child ha) hg

/-- An operand list out of a formula that is built, put under a kind of
junction, has two operands or more and no literal.  It gives a semi-reduced
formula exactly if no operand is a junction of that kind, which is also when
joining the operands changes nothing.  Under the kind that the list was taken
from this is always so. -/
theorem Built.semiReduced_payload_iff {f g : Formula} (h : Built f)
    (hg : g ∈ f.subformulas) {args : List Formula}
    (hargs : g.payload? = some args) (k : Junction) :
    2 ≤ args.length ∧ (∀ a ∈ args, ¬ a.IsLiteral) ∧
      ((junction k args).SemiReduced ↔ ∀ a ∈ args, ¬ a.IsJunction k) ∧
      (Formula.joinAll k args = junction k args ↔
        ∀ a ∈ args, ¬ a.IsJunction k) ∧
      (g = junction k args → ∀ a ∈ args, ¬ a.IsJunction k) := by
  obtain ⟨j, rfl⟩ := payload?_eq_some_iff.mp hargs
  obtain ⟨hlength, hoperands⟩ :=
    semiReduced_junction.mp (h.of_mem_subformulas hg).semiReduced
  have hreduced : ∀ a ∈ args, a.SemiReduced := fun a ha => (hoperands a ha).2
  have hliteral : ∀ a ∈ args, ¬ a.IsLiteral := fun a ha => (hoperands a ha).1.1
  have hiff : (junction k args).SemiReduced ↔ ∀ a ∈ args, ¬ a.IsJunction k := by
    rw [semiReduced_junction]
    constructor
    · exact fun hk a ha => (hk.2 a ha).1.2
    · exact fun hk =>
        ⟨hlength, fun a ha => ⟨⟨hliteral a ha, hk a ha⟩, hreduced a ha⟩⟩
  refine ⟨hlength, hliteral, hiff,
    (joinAll_eq_junction_iff hreduced).trans hiff, ?_⟩
  intro hkind a ha
  cases hkind
  exact (hoperands a ha).1.2

/-- The operands of `p & (a & b | c)` can be put under `|`, but those of
`a & b | c` not under `&`. -/
theorem Formula.semiReduced_payload_nested :
    ¬ (junction .and
      [junction .and [var "a", var "b"], var "c"]).SemiReduced := by
  have hbuilt :
      Built (junction .and
        [var "p", junction .or [junction .and [var "a", var "b"],
      var "c"]]) :=
    .join .and (.var "p")
      (.join .or (.join .and (.var "a") (.var "b")) (.var "c"))
  have hpayload := Built.semiReduced_payload_iff hbuilt
    (show junction .or [junction .and [var "a", var "b"], var "c"] ∈
      _ by decide) rfl .and
  rw [hpayload.2.2.1]
  intro h
  exact h _ List.mem_cons_self ⟨_, rfl⟩

/-- The operand list of `(a | b) & c` put under `|` is not semi-reduced, and
neither is that of `a & b | c` put under `&`. -/
theorem Formula.not_semiReduced_payload :
    (∃ f args, Built f ∧ f.payload? = some args ∧ f = junction .and args ∧
      ¬ (junction .or args).SemiReduced) ∧
    (∃ f args, Built f ∧ f.payload? = some args ∧ f = junction .or args ∧
      ¬ (junction .and args).SemiReduced) := by
  have hsame :
      ∀ k args, ¬ (junction k [junction k args, var "c"]).SemiReduced := by
    intro k args h
    exact ((semiReduced_junction.mp h).2 _ List.mem_cons_self).1.2 ⟨args, rfl⟩
  exact ⟨⟨_, _, .join .and (.join .or (.var "a") (.var "b")) (.var "c"), rfl,
    rfl, hsame _ _⟩,
    ⟨_, _, .join .or (.join .and (.var "a") (.var "b")) (.var "c"), rfl, rfl,
      hsame _ _⟩⟩

end LayeredLogic
