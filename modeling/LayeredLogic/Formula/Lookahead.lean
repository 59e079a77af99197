import LayeredLogic.Formula

/-!
# The horizon of a formula

Connectives take the greatest horizon of their operands, and a modality adds its
own look-ahead to it.
-/

namespace LayeredLogic

namespace UnaryModality

/-- What the modality itself adds to a horizon.  The bounds of a graph modality
count edges, so it adds nothing. -/
def lookahead : UnaryModality → Horizon
  | next steps => .ofBound? steps
  | always i | eventually i | everywhere i | somewhere i | escape i =>
      Interval.upperOf i
  | graph _ _ _ => .zero

@[simp] theorem lookahead_of_dual? {m m' : UnaryModality}
    (h : m.dual? = some m') : m'.lookahead = m.lookahead := by
  rcases dual?_cases h with ⟨_, rfl, rfl⟩ | ⟨_, rfl, rfl⟩ | ⟨_, rfl, rfl⟩ |
    ⟨_, rfl, rfl⟩ | ⟨_, rfl, rfl⟩ <;> rfl

end UnaryModality

def BinaryModality.lookahead (m : BinaryModality) : Horizon :=
  Interval.upperOf m.bounds

namespace Formula

mutual

def horizon : Formula → Horizon
  | literal _ | var _ => .zero
  | not a => a.horizon
  | junction _ args => horizonAll args
  | derived _ a b => max a.horizon b.horizon
  | unary m a => m.lookahead + a.horizon
  | binary m a b => m.lookahead + max a.horizon b.horizon

def horizonAll : List Formula → Horizon
  | [] => .zero
  | a :: rest => max a.horizon (horizonAll rest)

end

theorem horizonAll_eq_sup (args : List Formula) :
    horizonAll args = Horizon.sup (args.map horizon) := by
  induction args with
  | nil => rfl
  | cons a rest ih => simp [horizonAll, Horizon.sup, ih]

end Formula

end LayeredLogic
