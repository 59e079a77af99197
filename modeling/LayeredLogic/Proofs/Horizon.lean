import LayeredLogic.Formula.Lookahead
import LayeredLogic.Proofs.Nodes
import Mathlib.Data.List.MinMax
import Mathlib.Order.Bounds.Basic

/-!
# The horizon is the longest look-ahead

Horizons are linearly ordered, and counting in them is counting in the natural
numbers with all that leaves the 64-bit range taken for unbounded.  Since this
collapse keeps sums and the order, it may be made once at the end: the horizon
of a formula is the greatest exact sum of bounds on a way from its root to a
leaf.
-/

namespace LayeredLogic

namespace Horizon

instance : LinearOrder Horizon where
  le_refl := le_refl
  le_trans _ _ _ := le_trans
  le_antisymm _ _ := le_antisymm
  le_total := le_total
  toDecidableLE := inferInstance
  min_def _ _ := rfl
  max_def _ _ := rfl

theorem sup_le_iff {bound : Horizon} {hs : List Horizon} :
    sup hs ≤ bound ↔ ∀ h ∈ hs, h ≤ bound := by
  induction hs with
  | nil => simp [sup]
  | cons h hs ih => rw [sup, max_le_iff, ih, List.forall_mem_cons]

theorem le_sup {h : Horizon} {hs : List Horizon} (hmem : h ∈ hs) : h ≤ sup hs :=
  sup_le_iff.mp (le_refl _) h hmem

private theorem sup_eq_of_greatest {h : Horizon} {hs : List Horizon}
    (hmem : h ∈ hs) (hle : ∀ g ∈ hs, g ≤ h) : sup hs = h :=
  le_antisymm (sup_le_iff.mpr hle) (le_sup hmem)

theorem sup_singleton (h : Horizon) : sup [h] = h :=
  max_eq_left (zero_le h)

theorem sup_pair (g h : Horizon) : sup [g, h] = Max.max g h := by
  rw [sup, sup_singleton]

private theorem unbounded_le_iff {h : Horizon} :
    unbounded ≤ h ↔ h = unbounded := by
  cases h <;> simp

/-! ## Counting in the natural numbers -/

def ofNat (n : Nat) : Horizon :=
  if n < UInt64.size then bounded (.ofNat n) else unbounded

theorem ofNat_of_lt {n : Nat} (h : n < UInt64.size) :
    ofNat n = bounded (.ofNat n) := if_pos h

theorem ofNat_of_le {n : Nat} (h : UInt64.size ≤ n) : ofNat n = unbounded :=
  if_neg (Nat.not_lt.mpr h)

theorem ofNat_toNat (value : UInt64) : ofNat value.toNat = bounded value := by
  rw [ofNat_of_lt value.toNat_lt_size, UInt64.ofNat_toNat]

theorem ofNat_add (m n : Nat) : ofNat m + ofNat n = ofNat (m + n) := by
  rcases Nat.lt_or_ge m UInt64.size with hm | hm
  · rcases Nat.lt_or_ge n UInt64.size with hn | hn
    · rw [ofNat_of_lt hm, ofNat_of_lt hn, bounded_add_bounded,
        UInt64.toNat_ofNat_of_lt' hm, UInt64.toNat_ofNat_of_lt' hn, ofNat,
        UInt64.ofNat_add]
    · rw [ofNat_of_le hn, add_unbounded, ofNat_of_le (by omega)]
  · rw [ofNat_of_le hm, unbounded_add, ofNat_of_le (by omega)]

theorem ofNat_zero : ofNat 0 = zero := rfl

theorem zero_add (h : Horizon) : zero + h = h := by
  cases h with
  | unbounded => rfl
  | bounded value => rw [← ofNat_toNat, ← ofNat_zero, ofNat_add, Nat.zero_add]

theorem ofNat_mono : Monotone ofNat := by
  intro m n hmn
  rcases Nat.lt_or_ge n UInt64.size with hn | hn
  · have hm : m < UInt64.size := by omega
    rw [ofNat_of_lt hm, ofNat_of_lt hn, bounded_le_bounded,
      UInt64.toNat_ofNat_of_lt' hm, UInt64.toNat_ofNat_of_lt' hn]
    exact hmn
  · rw [ofNat_of_le hn]
    exact le_unbounded _

theorem add_le_add_left {g h : Horizon} (hle : g ≤ h) (a : Horizon) :
    a + g ≤ a + h := by
  cases h with
  | unbounded =>
      rw [add_unbounded]
      exact le_unbounded _
  | bounded h =>
      cases a with
      | unbounded => simp
      | bounded a =>
          cases g with
          | unbounded => exact absurd hle (not_unbounded_le_bounded h)
          | bounded g =>
              have hsum :=
                Nat.add_le_add_left (bounded_le_bounded.mp hle) a.toNat
              rw [← ofNat_toNat, ← ofNat_toNat, ← ofNat_toNat, ofNat_add,
                ofNat_add]
              exact ofNat_mono hsum

end Horizon

theorem Interval.upperOf_eq (i : Option Interval) :
    upperOf i = .ofBound? (i.bind stop) := by
  cases i <;> rfl

/-- The upper bound that a modality declares.  The interval of a graph modality
counts edges and bounds no distance. -/
def UnaryModality.bound? : UnaryModality → Option UInt64
  | next steps => steps
  | always i | eventually i | everywhere i | somewhere i | escape i =>
      i.bind Interval.stop
  | graph _ _ _ => some 0

theorem UnaryModality.lookahead_eq (m : UnaryModality) :
    m.lookahead = .ofBound? m.bound? := by
  cases m with
  | next | graph => rfl
  | always i | eventually i | everywhere i | somewhere i | escape i =>
      exact Interval.upperOf_eq i

def BinaryModality.bound? (m : BinaryModality) : Option UInt64 :=
  m.bounds.bind Interval.stop

theorem BinaryModality.lookahead_eq (m : BinaryModality) :
    m.lookahead = .ofBound? m.bound? :=
  Interval.upperOf_eq m.bounds

namespace Formula

def bound? : Formula → Option UInt64
  | unary m _ => m.bound?
  | binary m _ _ => m.bound?
  | literal _ | var _ | not _ | junction _ _ | derived _ _ _ => some 0

theorem horizon_eq (f : Formula) :
    f.horizon = .ofBound? f.bound? + Horizon.sup (f.children.map horizon) := by
  have hconnective : ∀ h, h = Horizon.ofBound? (some 0) + h :=
    fun h => (Horizon.zero_add h).symm
  cases f with
  | literal | var => rfl
  | not a =>
      exact (hconnective _).trans (congrArg _ (Horizon.sup_singleton _).symm)
  | junction k args => exact (horizonAll_eq_sup args).trans (hconnective _)
  | derived c a b =>
      exact (hconnective _).trans (congrArg _ (Horizon.sup_pair _ _).symm)
  | unary m a =>
      rw [horizon, m.lookahead_eq, bound?, children, List.map_singleton,
        Horizon.sup_singleton]
  | binary m a b =>
      rw [horizon, m.lookahead_eq, bound?, children, List.map_cons,
        List.map_singleton, Horizon.sup_pair]

/-! ## Ways down to a leaf -/

/-- The exact bound that a node declares. -/
def weight (f : Formula) : Nat := (f.bound?.getD 0).toNat

private theorem ofBound?_eq_ofNat {f : Formula} (h : f.bound? ≠ none) :
    Horizon.ofBound? f.bound? = .ofNat f.weight := by
  obtain ⟨value, hvalue⟩ := Option.ne_none_iff_exists'.mp h
  rw [weight, hvalue, Option.getD_some, Horizon.ofNat_toNat]
  rfl

/-- There is a way from the formula down to a leaf on which the bounds have the
given sum. -/
inductive Way : Formula → Nat → Prop
  | leaf {f : Formula} : f.children = [] → Way f f.weight
  | down {f a : Formula} {n : Nat} : a ∈ f.children → Way a n →
      Way f (f.weight + n)

private theorem isGreatest_leaf {f : Formula} (h : f.children = []) :
    IsGreatest {n | f.Way n} f.weight := by
  refine ⟨.leaf h, ?_⟩
  intro n hn
  cases hn with
  | leaf => exact Nat.le_refl _
  | down ha =>
      rw [h] at ha
      cases ha

private theorem isGreatest_down {f a : Formula} {far : Formula → Nat}
    (hfar : ∀ b ∈ f.children, IsGreatest {n | b.Way n} (far b))
    (ha : a ∈ f.children) (hmax : ∀ b ∈ f.children, far b ≤ far a) :
    IsGreatest {n | f.Way n} (f.weight + far a) := by
  refine ⟨.down ha (hfar a ha).1, ?_⟩
  intro n hn
  cases hn with
  | leaf h =>
      rw [h] at ha
      cases ha
  | down hb hway =>
      have hle := ((hfar _ hb).2 hway).trans (hmax _ hb)
      exact Nat.add_le_add_left hle _

private theorem horizon_eq_unbounded {f : Formula}
    (h : ∃ g ∈ f.subformulas, g.bound? = none) : f.horizon = .unbounded := by
  induction f using childInduct with
  | step f ih =>
      obtain ⟨g, hg, hnone⟩ := h
      rw [subformulas_eq, List.mem_cons, List.mem_flatMap] at hg
      rw [horizon_eq]
      rcases hg with rfl | ⟨a, ha, hg⟩
      · rw [hnone]
        exact Horizon.unbounded_add _
      · have hmem := List.mem_map_of_mem (f := horizon) ha
        rw [ih a ha ⟨g, hg, hnone⟩] at hmem
        rw [Horizon.unbounded_le_iff.mp (Horizon.le_sup hmem),
          Horizon.add_unbounded]

private theorem exists_isGreatest {f : Formula}
    (h : ∀ g ∈ f.subformulas, g.bound? ≠ none) :
    ∃ m, IsGreatest {n | f.Way n} m ∧ f.horizon = .ofNat m := by
  induction f using childInduct with
  | step f ih =>
      obtain ⟨hnode, hbelow⟩ := forall_mem_subformulas_iff.mp h
      have hweight := ofBound?_eq_ofNat hnode
      choose! far hfar hhorizon using fun a ha => ih a ha (hbelow a ha)
      by_cases hleaf : f.children = []
      · refine ⟨f.weight, isGreatest_leaf hleaf, ?_⟩
        rw [horizon_eq, hweight, hleaf, List.map_nil, Horizon.sup,
          ← Horizon.ofNat_zero, Horizon.ofNat_add, Nat.add_zero]
      · obtain ⟨a, ha, hmax⟩ :
            ∃ a ∈ f.children, ∀ b ∈ f.children, far b ≤ far a := by
          have hsome : f.children.argmax far ≠ none :=
            mt List.argmax_eq_none.mp hleaf
          obtain ⟨a, ha⟩ := Option.ne_none_iff_exists'.mp hsome
          exact ⟨a, List.argmax_mem ha, fun b hb => List.le_of_mem_argmax hb ha⟩
        refine ⟨f.weight + far a, isGreatest_down hfar ha hmax, ?_⟩
        have hsup : Horizon.sup (f.children.map horizon) = .ofNat (far a) := by
          apply Horizon.sup_eq_of_greatest
          · exact List.mem_map.mpr ⟨a, ha, hhorizon a ha⟩
          · rintro _ hmem
            obtain ⟨b, hb, rfl⟩ := List.mem_map.mp hmem
            rw [hhorizon b hb]
            exact Horizon.ofNat_mono (hmax b hb)
        rw [horizon_eq, hweight, hsup, Horizon.ofNat_add]

/-- A modality without an upper bound makes the horizon unbounded.  Otherwise
the horizon is the greatest exact sum of bounds on a way from the root to a
leaf, if that is a 64-bit number. -/
theorem horizon_isGreatest (f : Formula) :
    ((∃ g ∈ f.subformulas, g.bound? = none) → f.horizon = .unbounded) ∧
      ((∀ g ∈ f.subformulas, g.bound? ≠ none) →
        ∃ m, IsGreatest {n | f.Way n} m ∧
          (m < UInt64.size → f.horizon = .bounded (.ofNat m)) ∧
          (UInt64.size ≤ m → f.horizon = .unbounded)) := by
  refine ⟨horizon_eq_unbounded, ?_⟩
  intro h
  obtain ⟨m, hgreatest, hhorizon⟩ := exists_isGreatest h
  exact ⟨m, hgreatest, fun hm => hhorizon.trans (Horizon.ofNat_of_lt hm),
    fun hm => hhorizon.trans (Horizon.ofNat_of_le hm)⟩

/-- Both bounds of `G[0,18446744073709551615] X[1] p` are 64-bit numbers, their
sum is not. -/
theorem horizon_isGreatest_overflow :
    let f :=
      unary (.always (some ⟨some 0, some 18446744073709551615, by decide⟩))
        (unary (.next (some 1)) (var "p"))
    (∀ g ∈ f.subformulas, g.bound? ≠ none) ∧
      ∃ m, IsGreatest {n | f.Way n} m ∧ UInt64.size ≤ m ∧
        f.horizon = .unbounded := by
  intro f
  have hbounds : ∀ g ∈ f.subformulas, g.bound? ≠ none := by decide
  obtain ⟨m, hgreatest, -, hlarge⟩ := (horizon_isGreatest f).2 hbounds
  have hway := Way.down (f := f) (List.mem_singleton_self _)
    (.down (List.mem_singleton_self _) (.leaf rfl))
  have hm : UInt64.size ≤ m := Nat.le_trans (by decide) (hgreatest.2 hway)
  exact ⟨hbounds, m, hgreatest, hm, hlarge hm⟩

end Formula

end LayeredLogic
