import LayeredLogic.Proofs.Nodes
import LayeredLogic.Proofs.Operand

/-!
# Formulas that come from a text

What the nodes of a formula have in common that is put together from a text: its
modalities are of the layer, its bounds are within the signed numbers, and a
name that was not quoted is an identifier.  The operations that put a formula
together keep this at every node.
-/

namespace LayeredLogic

namespace Formula

/-- What a text of the layer makes of one node, with quoted names or without. -/
def NodeWritten (layer : Layer) (quotes : Prop) : Formula → Prop
  | var name =>
      quotes ∨
        (isIdentifier name.toList = true ∧ layer.reserves name.toList = false)
  | unary m _ => layer.includes m.operator.layer = true ∧ m.Readable
  | binary m _ _ => layer.includes m.operator.layer = true ∧ BoundsFit m.bounds
  | literal _ | not _ | junction _ _ | derived _ _ _ => True

def Written (layer : Layer) (quotes : Prop) (f : Formula) : Prop :=
  ∀ g ∈ f.subformulas, g.NodeWritten layer quotes

variable {layer : Layer} {quotes : Prop} {a b : Formula}

theorem written_iff {f : Formula} : f.Written layer quotes ↔
    f.NodeWritten layer quotes ∧ ∀ a ∈ f.children, a.Written layer quotes :=
  forall_mem_subformulas_iff

theorem written_literal (value : Bool) : (literal value).Written layer quotes :=
  written_iff.mpr ⟨trivial, by simp [children]⟩

theorem written_var {name : String} (h : (var name).NodeWritten layer quotes) :
    (var name).Written layer quotes :=
  written_iff.mpr ⟨h, by simp [children]⟩

theorem written_neg (ha : a.Written layer quotes) :
    (neg a).Written layer quotes :=
  forall_mem_subformulas_neg (fun _ => trivial) (fun _ => trivial) ha

theorem written_joinAll {k : Junction} {args : List Formula}
    (h : ∀ a ∈ args, a.Written layer quotes) :
    (joinAll k args).Written layer quotes :=
  forall_mem_subformulas_joinAll (fun _ => trivial) (fun _ => trivial) h

theorem written_derived (c : Connective) (ha : a.Written layer quotes)
    (hb : b.Written layer quotes) : (derived c a b).Written layer quotes :=
  written_iff.mpr ⟨trivial, by simp [children, ha, hb]⟩

theorem written_unary {m : UnaryModality}
    (hlayer : layer.includes m.operator.layer = true) (hm : m.Readable)
    (ha : a.Written layer quotes) : (unary m a).Written layer quotes :=
  written_iff.mpr ⟨⟨hlayer, hm⟩, by simp [children, ha]⟩

theorem written_binary {m : BinaryModality}
    (hlayer : layer.includes m.operator.layer = true) (hm : BoundsFit m.bounds)
    (ha : a.Written layer quotes) (hb : b.Written layer quotes) :
    (binary m a b).Written layer quotes :=
  written_iff.mpr ⟨⟨hlayer, hm⟩, by simp [children, ha, hb]⟩

end Formula

namespace Rule

variable {rule : Rule}

theorem readable_of_unary? {modality : Option Interval → UnaryModality}
    (h : rule.unary? = some modality) {bounds : Option Interval}
    (hbounds : BoundsFit bounds) : (modality bounds).Readable := by
  cases rule <;> cases h <;> exact hbounds

theorem bounds_of_binary? {modality : Option Interval → BinaryModality}
    (h : rule.binary? = some modality) (bounds : Option Interval) :
    (modality bounds).bounds = bounds := by
  cases rule <;> cases h <;> rfl

end Rule

end LayeredLogic
