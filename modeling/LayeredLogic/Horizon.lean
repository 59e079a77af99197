/-!
# Horizons

How far a formula looks ahead: a 64-bit natural number, or unbounded.  A sum
that leaves the 64-bit range is unbounded, and unbounded is the greatest
horizon.
-/

namespace LayeredLogic

inductive Horizon where
  | bounded (value : UInt64)
  | unbounded
  deriving DecidableEq, Repr

namespace Horizon

def zero : Horizon := bounded 0

def ofBound? : Option UInt64 → Horizon
  | some value => bounded value
  | none => unbounded

def value? : Horizon → Option UInt64
  | bounded value => some value
  | unbounded => none

def isBounded (h : Horizon) : Bool := h.value?.isSome

/-- Addition, unbounded as soon as the exact sum has no 64-bit value. -/
def add : Horizon → Horizon → Horizon
  | bounded a, bounded b =>
      if a.toNat + b.toNat < UInt64.size then bounded (a + b) else unbounded
  | _, _ => unbounded

def ble : Horizon → Horizon → Bool
  | _, unbounded => true
  | unbounded, bounded _ => false
  | bounded a, bounded b => decide (a ≤ b)

def max (a b : Horizon) : Horizon := if a.ble b then b else a

def min (a b : Horizon) : Horizon := if a.ble b then a else b

instance : Inhabited Horizon := ⟨zero⟩
instance : Add Horizon := ⟨add⟩
instance : LE Horizon := ⟨fun a b => a.ble b = true⟩
instance : LT Horizon := ⟨fun a b => a ≤ b ∧ ¬ b ≤ a⟩
instance : Max Horizon := ⟨max⟩
instance : Min Horizon := ⟨min⟩

instance (a b : Horizon) : Decidable (a ≤ b) :=
  inferInstanceAs (Decidable (a.ble b = true))
instance (a b : Horizon) : Decidable (a < b) :=
  inferInstanceAs (Decidable (_ ∧ ¬ _))

def sup : List Horizon → Horizon
  | [] => zero
  | h :: hs => Max.max h (sup hs)

def sort (hs : List Horizon) : List Horizon := hs.mergeSort ble

def sumsFrom (total : Horizon) : List Horizon → List Horizon
  | [] => []
  | h :: hs => (total + h) :: sumsFrom (total + h) hs

def runningSums (hs : List Horizon) : List Horizon := sumsFrom zero hs

def text : Horizon → String
  | bounded value => toString value.toNat
  | unbounded => "inf"

@[simp] theorem bounded_le_bounded {a b : UInt64} :
    bounded a ≤ bounded b ↔ a.toNat ≤ b.toNat :=
  decide_eq_true_iff.trans UInt64.le_iff_toNat_le

@[simp] theorem le_unbounded (h : Horizon) : h ≤ unbounded := by
  cases h <;> rfl

@[simp] theorem not_unbounded_le_bounded (a : UInt64) :
    ¬ unbounded ≤ bounded a :=
  Bool.false_ne_true

theorem le_refl (a : Horizon) : a ≤ a := by
  cases a <;> simp

theorem le_trans {a b c : Horizon} (hab : a ≤ b) (hbc : b ≤ c) : a ≤ c := by
  cases a <;> cases b <;> cases c <;> simp_all
  omega

theorem le_antisymm {a b : Horizon} (hab : a ≤ b) (hba : b ≤ a) : a = b := by
  cases a <;> cases b <;> simp_all
  exact UInt64.toNat_inj.mp (Nat.le_antisymm hab hba)

theorem le_total (a b : Horizon) : a ≤ b ∨ b ≤ a := by
  cases a <;> cases b <;> simp
  omega

@[simp] theorem zero_le (h : Horizon) : zero ≤ h := by
  cases h <;> simp [zero]

@[simp] theorem add_unbounded (h : Horizon) : h + unbounded = unbounded := by
  cases h <;> rfl

@[simp] theorem unbounded_add (h : Horizon) : unbounded + h = unbounded := by
  cases h <;> rfl

theorem bounded_add_bounded (a b : UInt64) :
    bounded a + bounded b =
      if a.toNat + b.toNat < UInt64.size then bounded (a + b)
        else unbounded := rfl

end Horizon

end LayeredLogic
