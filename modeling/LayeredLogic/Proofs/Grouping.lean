import LayeredLogic.Proofs.Built
import LayeredLogic.Proofs.Distribution

/-!
# Grouping of junctions

Formulas that are joined two by two give the same junction however they are
grouped, because joining is associative.  Which one it is can be read off the
formulas: each contributes its operands, and the contributions stand side by
side unless a literal absorbs them all.
-/

namespace LayeredLogic

/-- A way to put parentheses around a row of formulas, so that they are joined
two by two. -/
inductive Grouping where
  | single (member : Formula)
  | pair (left right : Grouping)
  deriving Repr

namespace Grouping

def members : Grouping → List Formula
  | single a => [a]
  | pair left right => left.members ++ right.members

def join (k : Junction) : Grouping → Formula
  | single a => a
  | pair left right => .join k (left.join k) (right.join k)

private theorem join_eq_joinAll (k : Junction) (g : Grouping) :
    g.join k = .joinAll k g.members := by
  induction g with
  | single a => rw [join, members, Formula.joinAll_singleton]
  | pair left right ihleft ihright =>
      rw [join, ihleft, ihright, members, Formula.joinAll_append]

end Grouping

namespace Formula

/-- What a formula adds to a junction of the kind that it is joined with:
nothing if it is the identity literal, its operands if it is of the kind,
otherwise itself. -/
def contribution (k : Junction) (a : Formula) : List Formula :=
  if a = literal k.identity then [] else a.operandsFor k

def ofOperands (k : Junction) : List Formula → Formula
  | [] => literal k.identity
  | [a] => a
  | args => junction k args

variable {k : Junction}

private theorem joinAll_of_absorbing_mem {args : List Formula}
    (h : literal (!k.identity) ∈ args) :
    joinAll k args = literal !k.identity := by
  obtain ⟨before, after, rfl⟩ := List.append_of_mem h
  rw [joinAll_append, joinAll_cons, join_absorbing_left, join_absorbing_right]

private theorem joinAll_contribution {a : Formula} (h : a.SemiReduced) :
    joinAll k (a.contribution k) = a := by
  rw [contribution]
  split
  · rename_i ha
    rw [ha, joinAll_nil]
  · cases a with
    | junction j args =>
        obtain ⟨hlength, hargs⟩ := semiReduced_junction.mp h
        rw [operandsFor]
        split
        · rename_i hj
          subst hj
          exact joinAll_of_joinable hlength fun b hb => (hargs b hb).1
        · exact joinAll_singleton k _
    | literal | var | not | derived | unary | binary =>
        exact joinAll_singleton k _

private theorem joinable_of_mem_contribution {a b : Formula} (h : a.SemiReduced)
    (habsorbing : a ≠ literal !k.identity) (hb : b ∈ a.contribution k) :
    b.Joinable k := by
  rw [contribution] at hb
  split at hb
  · cases hb
  · rename_i hidentity
    have hliteral : ¬ a.IsLiteral := by
      rcases literal_cases k a with ha | ha | ha
      · exact absurd ha hidentity
      · rw [Junction.identity_dual] at ha
        exact absurd ha habsorbing
      · exact ha
    exact (joinable_of_mem_operandsFor h hliteral hb).1

private theorem joinAll_flatMap_contribution {args : List Formula}
    (h : ∀ a ∈ args, a.SemiReduced) :
    joinAll k (args.flatMap (contribution k)) = joinAll k args := by
  induction args with
  | nil => rfl
  | cons a rest ih =>
      obtain ⟨ha, hrest⟩ := List.forall_mem_cons.mp h
      rw [List.flatMap_cons, joinAll_append, joinAll_contribution ha, ih hrest,
        joinAll_cons]

private theorem joinAll_eq_ofOperands {args : List Formula}
    (h : ∀ a ∈ args, a.Joinable k) : joinAll k args = ofOperands k args := by
  match args with
  | [] => rfl
  | [a] => exact joinAll_singleton k a
  | a :: b :: rest => exact joinAll_of_joinable (by simp) h

/-- However formulas are grouped, they are joined to one and the same formula:
the absorbing literal if it is among them, and otherwise what their operands
make up side by side. -/
theorem join_grouping (k : Junction) {args : List Formula}
    (h : ∀ a ∈ args, Built a) :
    (∀ g : Grouping, g.members = args → g.join k = joinAll k args) ∧
      joinAll k args =
        if literal (!k.identity) ∈ args then literal !k.identity
        else ofOperands k (args.flatMap (contribution k)) := by
  constructor
  · rintro g rfl
    exact g.join_eq_joinAll k
  · have hreduced : ∀ a ∈ args, a.SemiReduced :=
      fun a ha => (h a ha).semiReduced
    split
    · rename_i habsorbing
      exact joinAll_of_absorbing_mem habsorbing
    · rename_i habsorbing
      rw [← joinAll_flatMap_contribution hreduced]
      apply joinAll_eq_ofOperands
      intro b hb
      obtain ⟨a, ha, hb⟩ := List.mem_flatMap.mp hb
      have hother : a ≠ literal !k.identity := fun heq => habsorbing (heq ▸ ha)
      exact joinable_of_mem_contribution (hreduced a ha) hother hb

/-- `(a & true) & ((b & c) & (d | e))` is one conjunction of four. -/
theorem join_grouping_conjunction :
    let both := junction .and [var "b", var "c"]
    let either := junction .or [var "d", var "e"]
    (∀ a ∈ [var "a", top, both, either], Built a) ∧
      (Grouping.pair (.pair (.single (var "a")) (.single top))
          (.pair (.single both) (.single either))).join .and =
        junction .and [var "a", var "b", var "c", either] := by
  intro both either
  have hbuilt : ∀ a ∈ [var "a", top, both, either], Built a := by
    simp only [List.forall_mem_cons]
    exact ⟨.var "a", .literal true, .join .and (.var "b") (.var "c"),
      .join .or (.var "d") (.var "e"), by simp⟩
  obtain ⟨hgrouping, hjoined⟩ := join_grouping .and hbuilt
  exact ⟨hbuilt, (hgrouping _ rfl).trans (hjoined.trans (by decide))⟩

end Formula

end LayeredLogic
