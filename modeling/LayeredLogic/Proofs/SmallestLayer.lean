import LayeredLogic.Proofs.Fragment
import LayeredLogic.Proofs.Rewriting
import Mathlib.Data.Set.BooleanAlgebra
import Mathlib.Order.CompletePartialOrder

/-!
# The smallest layer

The layer of a formula is the least one that it fits.  There is none exactly if
the formula holds a spatial operator and a graph operator, since any two other
layers are comparable.

The layers that a formula does not fit and the names of its variables are
quantities that connectives pass on from their operands.  So rewriting a formula
without literals changes neither.
-/

namespace LayeredLogic

def Operator.spatial : List Operator := [everywhere, somewhere, reach, escape]

def Operator.graphical : List Operator := [graphIncoming, graphOutgoing]

private theorem Layer.mem_spatial_of_not_includes {op : Operator}
    (h : Layer.stlGo.includes op.layer = false) : op ∈ Operator.spatial := by
  revert h
  cases op <;> decide

private theorem Layer.mem_graphical_of_not_includes {op : Operator}
    (h : Layer.strel.includes op.layer = false) : op ∈ Operator.graphical := by
  revert h
  cases op <;> decide

private theorem Layer.not_includes_both {op op' : Operator}
    (hop : op ∈ Operator.spatial) (hop' : op' ∈ Operator.graphical)
    (layer : Layer) :
    layer.includes op.layer = false ∨ layer.includes op'.layer = false := by
  have hspatial : op.layer = .strel := by
    revert hop
    cases op <;> decide
  have hgraphical : op'.layer = .stlGo := by
    revert hop'
    cases op' <;> decide
  rw [hspatial, hgraphical]
  cases layer <;> decide

namespace Formula

variable {f : Formula} {layer : Layer}

theorem fits_of_layer?_eq_some (h : f.layer? = some layer) :
    f.fits layer = true :=
  List.find?_some (p := fun layer => f.fits layer) h

private theorem layer?_eq_some_iff : f.layer? = some layer ↔
    f.fits layer = true ∧ ∀ m, f.fits m = true → m.includes layer = true := by
  constructor
  · intro h
    exact ⟨fits_of_layer?_eq_some h,
      fun m hm => includes_of_layer?_eq_some h hm⟩
  · rintro ⟨hfits, hleast⟩
    obtain ⟨m, hm, hincludes⟩ := exists_layer?_eq_some hfits
    have hback := hleast m (fits_of_layer?_eq_some hm)
    rw [hm, Layer.includes_antisymm hback hincludes]

theorem fits_eq_false_iff :
    f.fits layer = false ↔
    ∃ g ∈ f.subformulas, layer.includes g.operator.layer = false := by
  rw [← Bool.not_eq_true, fits_iff]
  simp [belongsTo]

private theorem layer?_eq_none_iff :
    f.layer? = none ↔ ∀ layer, f.fits layer = false := by
  simp [layer?, List.find?_eq_none]

private theorem layer?_eq_none_iff_holds : f.layer? = none ↔
    (∃ g ∈ f.subformulas, g.operator ∈ Operator.spatial) ∧
      ∃ g ∈ f.subformulas, g.operator ∈ Operator.graphical := by
  rw [layer?_eq_none_iff]
  constructor
  · intro h
    obtain ⟨g, hg, hspatial⟩ := fits_eq_false_iff.mp (h .stlGo)
    obtain ⟨g', hg', hgraphical⟩ := fits_eq_false_iff.mp (h .strel)
    exact ⟨⟨g, hg, Layer.mem_spatial_of_not_includes hspatial⟩,
      ⟨g', hg', Layer.mem_graphical_of_not_includes hgraphical⟩⟩
  · rintro ⟨⟨g, hg, hspatial⟩, ⟨g', hg', hgraphical⟩⟩ layer
    apply fits_eq_false_iff.mpr
    rcases Layer.not_includes_both hspatial hgraphical layer with h | h
    · exact ⟨g, hg, h⟩
    · exact ⟨g', hg', h⟩

section

variable {ξ : Type} {P : ξ → Formula → Prop} {x : ξ}

def found (P : ξ → Formula → Prop) (f : Formula) : Set ξ :=
  {x | ∃ g ∈ f.subformulas, P x g}

theorem mem_found :
    x ∈ found P f ↔ P x f ∨ ∃ a ∈ f.children, x ∈ found P a := by
  show (∃ g ∈ f.subformulas, P x g) ↔
      P x f ∨ ∃ a ∈ f.children, ∃ g ∈ a.subformulas, P x g
  rw [subformulas_eq]
  constructor
  · rintro ⟨g, hg, hP⟩
    rcases List.mem_cons.mp hg with rfl | hg
    · exact Or.inl hP
    · obtain ⟨a, ha, hg⟩ := List.mem_flatMap.mp hg
      exact Or.inr ⟨a, ha, g, hg, hP⟩
  · rintro (hP | ⟨a, ha, g, hg, hP⟩)
    · exact ⟨f, List.mem_cons_self, hP⟩
    · exact ⟨g, List.mem_cons_of_mem _ (List.mem_flatMap.mpr ⟨a, ha, hg⟩), hP⟩

theorem found_le_iff {s : Set ξ} (h : ∀ x, ¬ P x f) :
    found P f ≤ s ↔ ∀ a ∈ f.children, found P a ≤ s := by
  constructor
  · intro hle a ha x hx
    exact hle (mem_found.mpr (Or.inr ⟨a, ha, hx⟩))
  · intro hle x hx
    rcases mem_found.mp hx with hP | ⟨a, ha, hx⟩
    · exact absurd hP (h x)
    · exact hle a ha hx

theorem found_mono {g : Formula} (hnode : ∀ x, P x f → P x g)
    (hchildren : ∀ a ∈ f.children, ∃ b ∈ g.children, found P a ≤ found P b) :
    found P f ≤ found P g := by
  intro x hx
  rcases mem_found.mp hx with hP | ⟨a, ha, hx⟩
  · exact mem_found.mpr (Or.inl (hnode x hP))
  · obtain ⟨b, hb, hle⟩ := hchildren a ha
    exact mem_found.mpr (Or.inr ⟨b, hb, hle hx⟩)

/-- Connectives pass on what is found in their operands, if no connective has
the property itself and modalities have it together with their duals. -/
theorem propagates_found (hP : ∀ x, Invariant fun g => ¬ P x g)
    (hderived : ∀ x c a b, ¬ P x (derived c a b)) : Propagates (found P) where
  literal value s :=
    (found_le_iff fun x => (hP x).literal value).mpr (by simp [children])
  not a := by
    apply le_antisymm
    · exact (found_le_iff fun x => (hP x).not a).mpr (by simp [children])
    · intro x hx
      exact mem_found.mpr (Or.inr ⟨a, List.mem_cons_self, hx⟩)
  junction k args s := found_le_iff fun x => (hP x).junction k args
  derived c a b s :=
    (found_le_iff fun x => hderived x c a b).trans (by simp [children])
  unary m a b h := by
    apply found_mono
    · exact fun x => not_imp_not.mp ((hP x).unary m b a)
    · simpa [children] using h
  dual m m' a hdual := by
    apply le_antisymm
    · apply found_mono
      · exact fun x => not_imp_not.mp ((hP x).dual m m' a a hdual)
      · simp [children]
    · apply found_mono
      · exact fun x => not_imp_not.mp
          ((hP x).dual m' m a a (UnaryModality.dual?_of_dual? hdual))
      · simp [children]
  binary m a b c d hac hbd := by
    apply found_mono
    · exact fun x => not_imp_not.mp ((hP x).binary m c d a b)
    · simp only [children, List.forall_mem_cons]
      exact ⟨⟨c, by simp, hac⟩, ⟨d, by simp, hbd⟩, by simp⟩

end

private theorem propagates_misfits :
    Propagates (found fun layer g => ¬ g.belongsTo layer = true) := by
  apply propagates_found
  · intro layer
    have h := invariant_belongsTo layer
    simpa only [Classical.not_not] using h
  · intro layer c a b h
    cases c <;> exact h layer.includes_base

private theorem propagates_names :
    Propagates (found fun name g => g = var name) := by
  apply propagates_found
  · intro name
    constructor <;> simp
  · simp

theorem fits_iff_not_mem_found : f.fits layer = true ↔
    layer ∉ found (fun layer g => ¬ g.belongsTo layer = true) f := by
  simp [fits_iff, found]

theorem mem_variableNames_iff {name : String} :
    name ∈ f.variableNames ↔ name ∈ found (fun name g => g = var name) f := by
  have hvar : ∀ g, varName? g = some name ↔ g = var name := by
    intro g
    cases g <;> simp [varName?]
  simp [variableNames, preorder_eq_subformulas, hvar, found]

theorem keeps_rewritten {α : Type} [PartialOrder α] {of : Formula → α}
    (ho : Propagates of) (f : Formula) :
    ∀ g ∈ [f.expand, f.nnf, f.neg.nnf], Keeps of f g := by
  simp only [List.forall_mem_cons, nnf, normalize_neg]
  exact ⟨.expand ho f, .normalize ho true f, .normalize ho false f, by simp⟩

/-- The layer of a formula is the least that it fits, and it has none exactly if
it is both about space and about a graph.  Rewriting a formula without literals
keeps the layer and the variables. -/
theorem layer?_least_and_kept (f : Formula) :
    (∀ layer, f.layer? = some layer ↔
      f.fits layer = true ∧ ∀ m, f.fits m = true → m.includes layer = true) ∧
      (f.layer? = none ↔
        (∃ g ∈ f.subformulas, g.operator ∈ Operator.spatial) ∧
          ∃ g ∈ f.subformulas, g.operator ∈ Operator.graphical) ∧
      (Built f → (∀ g ∈ f.subformulas, ∀ value, g ≠ literal value) →
        ∀ g ∈ [f.expand, f.nnf, f.neg.nnf],
          g.layer? = f.layer? ∧ ∀ name, name ∈ g.variableNames ↔
            name ∈ f.variableNames) := by
  refine ⟨fun layer => layer?_eq_some_iff, layer?_eq_none_iff_holds, ?_⟩
  intro hbuilt hliteral g hg
  have hgrounded := hbuilt.semiReduced.grounded hliteral
  have hmisfits := (keeps_rewritten propagates_misfits f g hg).of_eq hgrounded
  have hnames := (keeps_rewritten propagates_names f g hg).of_eq hgrounded
  constructor
  · have hfits : ∀ layer, g.fits layer = f.fits layer := by
      intro layer
      rw [Bool.eq_iff_iff, fits_iff_not_mem_found, fits_iff_not_mem_found,
        hmisfits]
    simp only [layer?, hfits]
  · intro name
    rw [mem_variableNames_iff, mem_variableNames_iff, hnames]

theorem layer?_least_and_kept_equiv :
    let f := neg (derived .equiv (var "p") (unary (.everywhere none) (var "q")))
    Built f ∧ (∀ g ∈ f.subformulas, ∀ value, g ≠ literal value) ∧
      f.nnf.layer? = some .strel ∧ "q" ∈ f.nnf.variableNames := by
  intro f
  have hbuilt : Built f :=
    .neg (.derived .equiv (.var "p") (.unary _ nofun (.var "q")))
  have hliteral : ∀ g ∈ f.subformulas, ∀ value, g ≠ literal value := by decide
  obtain ⟨-, -, hkept⟩ := layer?_least_and_kept f
  obtain ⟨hlayer, hnames⟩ := hkept hbuilt hliteral f.nnf (by simp)
  refine ⟨hbuilt, hliteral, hlayer.trans (by decide), (hnames "q").mpr ?_⟩
  rw [mem_variableNames_iff]
  exact ⟨var "q", by decide, rfl⟩

end Formula

end LayeredLogic
