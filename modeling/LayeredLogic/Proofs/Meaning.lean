import LayeredLogic.Formula.NormalForm
import Mathlib.Order.BooleanAlgebra.Basic
import Mathlib.Order.BooleanAlgebra.Set
import Mathlib.Order.SymmDiff

/-!
# The meaning of a formula

A formula denotes an element of a Boolean algebra as soon as its names and
modalities are interpreted there.  Building a formula, expanding it and
normalizing it keep what it denotes, and the normal form of a negation denotes
the complement.  The sets of worlds of a frame are such an algebra, with the
dual modalities read as any and as every reachable world.
-/

namespace LayeredLogic

open scoped symmDiff

universe u

structure Interpretation (α : Type u) where
  name : String → α
  unary : UnaryModality → α → α
  binary : BinaryModality → α → α → α

/-- An interpretation that takes modalities dual to each other to dual
operations.  Every other modality may stand for any operation. -/
structure DualInterpretation (α : Type u) [BooleanAlgebra α] extends
    Interpretation α where
  next_compl : ∀ steps x, unary (.next steps) xᶜ = (unary (.next steps) x)ᶜ
  eventually_eq :
    ∀ bounds x, unary (.eventually bounds) x = (unary (.always bounds) xᶜ)ᶜ
  somewhere_eq :
    ∀ bounds x, unary (.somewhere bounds) x = (unary (.everywhere bounds) xᶜ)ᶜ

section Operations

variable {α : Type u} [BooleanAlgebra α]

def Junction.combine : Junction → α → α → α
  | and, x, y => x ⊓ y
  | or, x, y => x ⊔ y

def Junction.unit : Junction → α
  | and => ⊤
  | or => ⊥

def Junction.gather (k : Junction) (xs : List α) : α :=
  xs.foldr k.combine k.unit

def Connective.combine : Connective → α → α → α
  | implies, x, y => x ⇨ y
  | equiv, x, y => x ⇔ y
  | xor, x, y => x ∆ y

namespace Junction

variable (k : Junction) (x y z : α) (xs ys : List α)

theorem combine_assoc :
    k.combine (k.combine x y) z = k.combine x (k.combine y z) := by
  cases k
  · exact inf_assoc x y z
  · exact sup_assoc x y z

@[simp] theorem combine_unit : k.combine x k.unit = x := by
  cases k
  · exact inf_top_eq x
  · exact sup_bot_eq x

@[simp] theorem unit_combine : k.combine k.unit x = x := by
  cases k
  · exact top_inf_eq x
  · exact bot_sup_eq x

private theorem combine_dual_unit : k.combine x k.dual.unit = k.dual.unit := by
  cases k
  · exact inf_bot_eq x
  · exact sup_top_eq x

private theorem dual_unit_combine : k.combine k.dual.unit x = k.dual.unit := by
  cases k
  · exact bot_inf_eq x
  · exact top_sup_eq x

private theorem compl_unit : (k.unit : α)ᶜ = k.dual.unit := by
  cases k
  · exact compl_top
  · exact compl_bot

private theorem compl_combine : (k.combine x y)ᶜ = k.dual.combine xᶜ yᶜ := by
  cases k
  · exact compl_inf
  · exact compl_sup

@[simp] theorem gather_nil : k.gather ([] : List α) = k.unit := rfl

@[simp] theorem gather_cons : k.gather (x :: xs) = k.combine x (k.gather xs) :=
  rfl

private theorem gather_append :
    k.gather (xs ++ ys) = k.combine (k.gather xs) (k.gather ys) := by
  induction xs with
  | nil => simp
  | cons x xs ih => simp [ih, combine_assoc]

private theorem compl_gather :
    (k.gather xs)ᶜ = k.dual.gather (xs.map compl) := by
  induction xs with
  | nil => exact k.compl_unit
  | cons x xs ih => simp [compl_combine, ih]

end Junction

end Operations

/-! ## Denotations -/

namespace Interpretation

open Formula

variable {α : Type u} [BooleanAlgebra α] (I : Interpretation α)

mutual

def meaning : Formula → α
  | .literal value => if value then ⊤ else ⊥
  | .var name => I.name name
  | .not a => (meaning a)ᶜ
  | .junction k args => k.gather (meanings args)
  | .derived c a b => c.combine (meaning a) (meaning b)
  | .unary m a => I.unary m (meaning a)
  | .binary m a b => I.binary m (meaning a) (meaning b)

def meanings : List Formula → List α
  | [] => []
  | a :: rest => meaning a :: meanings rest

end

@[simp] theorem meanings_eq_map (args : List Formula) :
    I.meanings args = args.map I.meaning := by
  induction args with
  | nil => rfl
  | cons a rest ih => simp [meanings, ih]

theorem meaning_identity (k : Junction) :
    I.meaning (.literal k.identity) = k.unit := by
  cases k <;> rfl

@[simp] theorem meaning_neg (a : Formula) :
    I.meaning (neg a) = (I.meaning a)ᶜ := by
  cases a with
  | literal value => cases value <;> simp [neg, meaning]
  | not a => simp [neg, meaning]
  | var | junction | derived | unary | binary => rfl

theorem gather_operandsFor (k : Junction) (a : Formula) :
    k.gather ((a.operandsFor k).map I.meaning) = I.meaning a := by
  cases a with
  | junction j args =>
      simp only [operandsFor]
      split
      · rename_i h
        subst h
        simp [meaning]
      · simp
  | literal | var | not | derived | unary | binary => simp [operandsFor]

theorem meaning_of_ne_identity {k : Junction} {value : Bool}
    (h : value ≠ k.identity) : I.meaning (.literal value) = k.dual.unit := by
  rw [← I.meaning_identity, Junction.identity_dual]
  cases value <;> cases hk : k.identity <;> simp_all

@[simp] theorem meaning_join (k : Junction) (a b : Formula) :
    I.meaning (join k a b) = k.combine (I.meaning a) (I.meaning b) := by
  unfold join
  split
  · split
    · rename_i h
      rw [h, meaning_identity, Junction.unit_combine]
    · rename_i h
      rw [I.meaning_of_ne_identity h, Junction.dual_unit_combine]
  · split
    · rename_i h
      rw [h, meaning_identity, Junction.combine_unit]
    · rename_i h
      rw [I.meaning_of_ne_identity h, Junction.combine_dual_unit]
  · rw [meaning, meanings_eq_map, List.map_append, Junction.gather_append,
      gather_operandsFor, gather_operandsFor]

@[simp] theorem meaning_joinAll (k : Junction) (args : List Formula) :
    I.meaning (joinAll k args) = k.gather (args.map I.meaning) := by
  suffices ∀ acc, I.meaning (args.foldl (join k) acc) =
      k.combine (I.meaning acc) (k.gather (args.map I.meaning)) by
    rw [joinAll, this, meaning_identity, Junction.unit_combine]
  induction args with
  | nil => simp
  | cons a rest ih => simp [ih, Junction.combine_assoc]

private theorem meaning_define (c : Connective) (a b : Formula) :
    I.meaning (define c a b) = c.combine (I.meaning a) (I.meaning b) := by
  cases c with
  | implies =>
      simp [define, Junction.combine, Connective.combine, himp_eq, sup_comm]
  | equiv =>
      simp [define, Junction.combine, Connective.combine, bihimp_eq, sup_comm]
  | xor =>
      simp [define, Junction.combine, Connective.combine, symmDiff_eq, inf_comm]

@[simp] theorem meaning_expand (f : Formula) :
    I.meaning f.expand = I.meaning f := by
  induction f using induct with
  | literal | var => rfl
  | not a ih => simp [expand, meaning, ih]
  | junction k args ih =>
      rw [expand, meaning_joinAll, meaning, expandAll_eq_map, meanings_eq_map,
        List.map_map]
      congr 1
      exact List.map_congr_left ih
  | derived c a b iha ihb => rw [expand, meaning_define, meaning, iha, ihb]
  | unary m a ih => rw [expand, meaning, meaning, ih]
  | binary m a b iha ihb => rw [expand, meaning, meaning, iha, ihb]

end Interpretation

/-! ## Frames -/

/-- What the dual modalities look at from a world: the world some steps ahead,
and the worlds that bounds in time or in space let it reach. -/
structure ModalFrame (World : Type u) where
  ahead : Option UInt64 → World → World
  later : Option Interval → World → World → Prop
  near : Option Interval → World → World → Prop

namespace ModalFrame

variable {World : Type u}

def every (reaches : World → World → Prop) (x : Set World) : Set World :=
  {w | ∀ v, reaches w v → v ∈ x}

def any (reaches : World → World → Prop) (x : Set World) : Set World :=
  {w | ∃ v, reaches w v ∧ v ∈ x}

theorem any_eq (reaches : World → World → Prop) (x : Set World) :
    any reaches x = (every reaches xᶜ)ᶜ := by
  ext w
  simp [any, every]

/-- The sets of worlds of a frame, with the dual modalities read there.  Names
and the modalities without a dual are taken from an interpretation. -/
def interpretation (F : ModalFrame World) (I : Interpretation (Set World)) :
    DualInterpretation (Set World) where
  name := I.name
  unary
    | .next steps => Set.preimage (F.ahead steps)
    | .always bounds => every (F.later bounds)
    | .eventually bounds => any (F.later bounds)
    | .everywhere bounds => every (F.near bounds)
    | .somewhere bounds => any (F.near bounds)
    | m => I.unary m
  binary := I.binary
  next_compl _ _ := rfl
  eventually_eq bounds := any_eq (F.later bounds)
  somewhere_eq bounds := any_eq (F.near bounds)

end ModalFrame

/-! ## Normal form -/

namespace DualInterpretation

open Formula Interpretation

variable {α : Type u} [BooleanAlgebra α] (I : DualInterpretation α)

private theorem unary_of_dual {m m' : UnaryModality} (h : m.dual? = some m')
    (x : α) : I.unary m' xᶜ = (I.unary m x)ᶜ := by
  rcases UnaryModality.dual?_cases h
    with ⟨steps, rfl, rfl⟩ | ⟨bounds, rfl, rfl⟩ |
    ⟨bounds, rfl, rfl⟩ | ⟨bounds, rfl, rfl⟩ | ⟨bounds, rfl, rfl⟩
  · exact I.next_compl steps x
  · rw [I.eventually_eq, compl_compl]
  · rw [I.eventually_eq, compl_compl]
  · rw [I.somewhere_eq, compl_compl]
  · rw [I.somewhere_eq, compl_compl]

def signed (positive : Bool) (x : α) : α := if positive then x else xᶜ

theorem meaning_signed (positive : Bool) (a : Formula) :
    I.meaning (Formula.signed positive a) = signed positive (I.meaning a) := by
  cases positive with
  | true => rfl
  | false => exact I.meaning_neg a

private theorem signed_gather (positive : Bool) (k : Junction) (xs : List α) :
    signed positive (k.gather xs) =
      (k.signed positive).gather (xs.map (signed positive)) := by
  cases positive with
  | true => exact congrArg k.gather (List.map_id xs).symm
  | false => exact k.compl_gather xs

/-- What the two polarities of normalization denote.  The induction is on the
order in which normalization itself goes down, which passes through the
expansion of a derived connective. -/
theorem meaning_normalize (positive : Bool) (f : Formula) :
    I.meaning (normalize positive f) = signed positive (I.meaning f) := by
  induction positive, f using polarityInduct with
  | literal positive value => rw [normalize_literal, meaning_signed]
  | var positive name => rw [normalize_var, meaning_signed]
  | not positive a ih =>
      rw [normalize_not, ih, meaning]
      cases positive <;> simp [signed]
  | junction positive k args ih =>
      have hargs : (args.map (normalize positive)).map I.meaning =
          (args.map I.meaning).map (signed positive) := by
        rw [List.map_map, List.map_map]
        exact List.map_congr_left ih
      rw [normalize_junction, meaning_joinAll, hargs, ← signed_gather, meaning,
        meanings_eq_map]
  | derived positive c a b ih => rw [normalize_derived, ih, meaning_expand]
  | unary m a ih =>
      rw [normalize_unary_true, meaning, ih, meaning]
      rfl
  | dual m m' a hdual ih =>
      rw [normalize_unary_of_dual hdual, meaning, ih, meaning]
      exact I.unary_of_dual hdual (I.meaning a)
  | atom m a hdual ih =>
      rw [normalize_unary_of_no_dual hdual, meaning, meaning, ih, meaning]
      rfl
  | binary positive m a b iha ihb =>
      rw [normalize_binary, meaning_signed, meaning, meaning, iha, ihb]
      rfl

/-- Expansion and negation normal form keep the meaning of every formula in
every interpretation, and the normal form of a negation means the complement. -/
theorem rewriting_preserves_meaning (f : Formula) :
    I.meaning f.expand = I.meaning f ∧
      I.meaning f.nnf = I.meaning f ∧
      I.meaning (neg f).nnf = (I.meaning f)ᶜ := by
  refine ⟨I.meaning_expand f, I.meaning_normalize true f, ?_⟩
  calc I.meaning (neg f).nnf = I.meaning (neg f) :=
    I.meaning_normalize true (neg f)
    _ = (I.meaning f)ᶜ := I.meaning_neg f

end DualInterpretation

/-- Days, the bounds of a modality counted from the day that it is read on. -/
def timeline : ModalFrame ℕ where
  ahead steps day := day + (steps.getD 1).toNat
  later bounds day day' := day ≤ day' ∧ ∀ i ∈ bounds,
    (∀ n ∈ i.start, day + n.toNat ≤ day') ∧ ∀ n ∈ i.stop, day' ≤ day + n.toNat
  near _ day day' := day = day'

def evenDays : DualInterpretation (Set ℕ) :=
  timeline.interpretation
    { name := fun name => if name = "even" then {day | day % 2 = 0} else ∅
      unary := fun _ x => x
      binary := fun _ x y => x ∪ y }

def alternation : Formula :=
  .unary (.always none)
    (.derived .implies (.var "even") (.unary (.next none) (.not (.var "even"))))

private theorem meaning_alternation :
    evenDays.meaning alternation = Set.univ := by
  refine Set.eq_univ_of_forall fun day day' _ => ?_
  change day' ∈ ({d | d % 2 = 0} : Set ℕ) ⇨ {d | ¬(d + 1) % 2 = 0}
  rw [himp_eq]
  change ¬(day' + 1) % 2 = 0 ∨ ¬day' % 2 = 0
  omega

theorem rewriting_preserves_meaning_alternation :
    evenDays.meaning alternation.expand = Set.univ ∧
      evenDays.meaning alternation.nnf = Set.univ ∧
      evenDays.meaning (Formula.neg alternation).nnf = ∅ := by
  have h := evenDays.rewriting_preserves_meaning alternation
  rw [meaning_alternation, Set.compl_univ] at h
  exact h

end LayeredLogic
