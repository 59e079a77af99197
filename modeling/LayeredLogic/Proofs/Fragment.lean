import LayeredLogic.Formula.Fragment
import LayeredLogic.Proofs.Built
import LayeredLogic.Proofs.Nodes
import Mathlib.Data.List.Basic

/-!
# Staying in a layer

A formula fits a layer when each of its nodes does, and then its smallest layer
is one that this layer includes.  Rewriting adds operators of the base layer
only and keeps a modality or puts its dual in its place, which is of the same
layer; so what fits a layer does so after it.  The rule table of a layer makes
formulas of that layer only, out of whatever tree.
-/

namespace LayeredLogic

namespace Formula

variable {layer m : Layer} {f : Formula}

theorem fits_iff :
    f.fits layer = true ↔ ∀ g ∈ f.subformulas, g.belongsTo layer = true := by
  induction f using childInduct with
  | step f ih =>
      rw [forall_mem_subformulas_iff, fits_eq, Bool.and_eq_true,
        List.all_eq_true]
      exact and_congr_right fun _ => forall₂_congr ih

theorem invariant_belongsTo (layer : Layer) :
    Invariant fun g => g.belongsTo layer = true where
  literal _ := layer.includes_base
  not _ := layer.includes_base
  junction k _ := by cases k <;> exact layer.includes_base
  unary _ _ _ h := h
  dual m m' a b hdual h := by
    rw [belongsTo, operator] at h ⊢
    rwa [UnaryModality.layer_of_dual? hdual]
  binary _ _ _ _ _ h := h

private theorem fits_neg (h : f.fits layer = true) : f.neg.fits layer = true :=
  fits_iff.mpr ((invariant_belongsTo layer).neg (fits_iff.mp h))

private theorem fits_expand (h : f.fits layer = true) :
    f.expand.fits layer = true :=
  fits_iff.mpr ((invariant_belongsTo layer).expand (fits_iff.mp h))

private theorem fits_normalize (positive : Bool) (h : f.fits layer = true) :
    (normalize positive f).fits layer = true :=
  fits_iff.mpr ((invariant_belongsTo layer).normalize (fits_iff.mp h))

theorem fits_nnf (h : f.fits layer = true) : f.nnf.fits layer = true :=
  fits_normalize true h

private theorem fits_ltl (hspatial : f.fits .strel = true)
    (hgraph : f.fits .stlGo = true) : f.fits .ltl = true := by
  have hboth : ∀ l : Layer, Layer.strel.includes l = true →
      Layer.stlGo.includes l = true →
      Layer.ltl.includes l = true := by
    intro l
    cases l <;> decide
  apply fits_iff.mpr
  intro g hg
  exact hboth _ (fits_iff.mp hspatial g hg) (fits_iff.mp hgraph g hg)

theorem includes_of_layer?_eq_some (hm : f.layer? = some m)
    (h : f.fits layer = true) : layer.includes m = true := by
  simp only [layer?, Layer.all, List.find?_cons_eq_some, List.find?_nil,
    Bool.not_eq_true', reduceCtorEq, and_false, or_false] at hm
  rcases hm with ⟨-, rfl⟩
    | ⟨hbase, ⟨-, rfl⟩ | ⟨hltl, ⟨hspatial, rfl⟩ | ⟨hstrel, -, rfl⟩⟩⟩
  · exact layer.includes_base
  · cases layer with
    | base => simp [h] at hbase
    | ltl | strel | stlGo => rfl
  · cases layer with
    | base => simp [h] at hbase
    | ltl => simp [h] at hltl
    | strel => rfl
    | stlGo => simp [fits_ltl hspatial h] at hltl
  · cases layer with
    | base => simp [h] at hbase
    | ltl => simp [h] at hltl
    | strel => simp [h] at hstrel
    | stlGo => rfl

theorem exists_layer?_eq_some (h : f.fits layer = true) :
    ∃ m, f.layer? = some m ∧ layer.includes m = true := by
  have hsome : (Layer.all.find? fun layer => f.fits layer).isSome = true :=
    List.find?_isSome.mpr ⟨layer, layer.mem_all, h⟩
  obtain ⟨m, hm⟩ := Option.isSome_iff_exists.mp hsome
  exact ⟨m, hm, includes_of_layer?_eq_some hm h⟩

end Formula

def Value.Fits (layer : Layer) (v : Value) : Prop :=
  ∀ f, v = .formula f → f.fits layer = true

open Formula in
theorem Rule.Makes.fits {layer : Layer} {rule : Rule} {values : List Value}
    {v : Value} (h : rule.Makes values v)
    (hlayer : layer.includes rule.layer = true)
    (hvalues : ∀ w ∈ values, w.Fits layer) : v.Fits layer := by
  have hP := invariant_belongsTo layer
  have operand : ∀ {a}, Value.formula a ∈ values →
      ∀ g ∈ a.subformulas, g.belongsTo layer = true :=
    fun ha => fits_iff.mp (hvalues _ ha _ rfl)
  intro f hf
  apply fits_iff.mpr
  cases h with
  | negation a =>
      obtain rfl := Value.formula.inj hf
      exact hP.neg (operand (by simp))
  | junction k args hlength =>
      obtain rfl := Value.formula.inj hf
      exact hP.joinAll k fun a ha => operand (List.mem_map_of_mem ha)
  | derived c a b =>
      obtain rfl := Value.formula.inj hf
      have hnode : (Formula.derived c a b).belongsTo layer = true := by
        cases c <;> exact layer.includes_base
      exact forall_mem_subformulas_iff.mpr
        ⟨hnode, by
            simpa [children] using ⟨operand (by simp), operand (by simp)⟩⟩
  | atom name =>
      obtain rfl := Value.formula.inj hf
      exact forall_mem_subformulas_iff.mpr
        ⟨layer.includes_base, by simp [children]⟩
  | literal spelling =>
      obtain rfl := Value.formula.inj hf
      exact forall_mem_subformulas_iff.mpr ⟨hP.literal _, by simp [children]⟩
  | next count steps a hsteps =>
      obtain rfl := Value.formula.inj hf
      exact forall_mem_subformulas_unary hlayer (operand (by simp))
  | unary rule modality hknown bounds a =>
      obtain rfl := Value.formula.inj hf
      have hnode : (Formula.unary (modality bounds) a).belongsTo layer =
          true := by
        rwa [belongsTo, operator, Rule.layer_of_unary? hknown]
      exact forall_mem_subformulas_unary hnode (operand (by simp))
  | binary rule modality hknown bounds a b =>
      obtain rfl := Value.formula.inj hf
      have hnode : (Formula.binary (modality bounds) a b).belongsTo layer =
          true := by
        rwa [belongsTo, operator, Rule.layer_of_binary? hknown]
      exact forall_mem_subformulas_binary hnode (operand (by simp))
        (operand (by simp))
  | graph direction labels edges a hlabels =>
      obtain rfl := Value.formula.inj hf
      have hnode :
          (Formula.unary (.graph direction labels edges) a).belongsTo layer =
            true := by
        cases direction <;> exact hlayer
      exact forall_mem_subformulas_unary hnode (operand (by simp))
  | interval | graphList => cases hf

private theorem RuleTable.fits_of_assemble {layer : Layer} {t : Tree}
    {f : Formula} (h : (ofLayer layer).assemble t = .ok f) :
    f.fits layer = true := by
  have hvalue : (Value.formula f).Fits layer := by
    refine value_invariant (motive := Value.Fits layer) ?_ ?_ ?_
      (assemble_eq_ok_iff.mp h)
    · intro token v hv g hg
      rcases tokenValue_eq_ok hv with ⟨name, rfl⟩ | ⟨n, rfl⟩ <;> cases hg
    · intro g hg
      cases hg
    · intro name values v hvalues hv
      obtain ⟨rule, -, hlayer, hmakes⟩ := ruleValue_ofLayer_iff.mp hv
      exact hmakes.fits hlayer hvalues
  exact hvalue f rfl

namespace Formula

variable {layer : Layer} {source : String} {f : Formula}

private theorem fits_of_parse (h : parse layer source = .ok f) :
    f.fits layer = true := by
  obtain ⟨t, -, ht⟩ := parse_eq_ok_iff.mp h
  exact RuleTable.fits_of_assemble ht

/-- A formula that was read is of the layer in which it was read, and stays so
when it or its negation is rewritten. -/
theorem fits_rewritten_of_parse (h : parse layer source = .ok f) :
    ∀ g ∈ [f, f.expand, f.nnf, f.neg.nnf],
      g.fits layer = true ∧
      ∃ m, g.layer? = some m ∧ layer.includes m = true := by
  have hf := fits_of_parse h
  have hall : ∀ g ∈ [f, f.expand, f.nnf, f.neg.nnf], g.fits layer = true := by
    simp only [List.forall_mem_cons]
    exact ⟨hf, fits_expand hf, fits_nnf hf, fits_nnf (fits_neg hf), by simp⟩
  exact fun g hg => ⟨hall g hg, exists_layer?_eq_some (hall g hg)⟩

theorem fits_rewritten_of_parse_spatial :
    ∃ f, parse .strel "G somewhere[1,] (p ^ X q)" = .ok f ∧
      ∀ g ∈ [f, f.expand, f.nnf, f.neg.nnf],
        g.fits .strel = true ∧
        ∃ m, g.layer? = some m ∧ Layer.strel.includes m = true := by
  have hparse : parse .strel "G somewhere[1,] (p ^ X q)" =
      .ok (unary (.always none)
      (unary (.somewhere (some ⟨some 1, none, trivial⟩))
        (derived .xor (var "p") (unary (.next none) (var "q"))))) := by
    decide +kernel
  exact ⟨_, hparse, fits_rewritten_of_parse hparse⟩

end Formula

end LayeredLogic
