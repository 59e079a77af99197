import LayeredLogic.Horizon

/-!
# Intervals

Optional bounds of a modal operator.  A missing bound is open; when both bounds
are present the start lies strictly before the stop.  Every way of building an
interval checks this, and the type carries the proof.
-/

namespace LayeredLogic

inductive IntervalError where
  | negativeBound (bound : Int64)
  | point (bound : UInt64)
  | reversed (start stop : UInt64)
  deriving DecidableEq, Repr

def IntervalError.message : IntervalError → String
  | negativeBound bound =>
      "bound " ++ toString bound.toInt ++
        " is negative, bounds must be non-negative"
  | point bound =>
      let digits := toString bound.toNat
      "interval [" ++ digits ++ "," ++ digits ++
        "] is a point, expected start < end"
  | reversed start stop =>
      "interval [" ++ toString start.toNat ++ "," ++ toString stop.toNat ++
        "] is reversed, expected start < end"

/-- Two bounds that are both present lie in order. -/
def Ordered : Option UInt64 → Option UInt64 → Prop
  | some start, some stop => start < stop
  | _, _ => True

instance (start stop : Option UInt64) : Decidable (Ordered start stop) :=
  match start, stop with
  | some start, some stop => inferInstanceAs (Decidable (start < stop))
  | none, none | none, some _ | some _, none => isTrue trivial

structure Interval where
  start : Option UInt64
  stop : Option UInt64
  ordered : Ordered start stop
  deriving DecidableEq, Repr

def readBound (bound : Int64) : Except IntervalError UInt64 :=
  if bound < 0 then .error (.negativeBound bound) else .ok bound.toUInt64

def readBound? : Option Int64 → Except IntervalError (Option UInt64)
  | none => .ok none
  | some bound => some <$> readBound bound

namespace Interval

def unbounded : Interval := ⟨none, none, trivial⟩

instance : Inhabited Interval := ⟨unbounded⟩

def bounded (start stop : UInt64) : Except IntervalError Interval :=
  if h : start < stop then .ok ⟨some start, some stop, h⟩
  else if start = stop then .error (.point start)
  else .error (.reversed start stop)

def ofBounds : Option UInt64 → Option UInt64 → Except IntervalError Interval
  | some start, some stop => bounded start stop
  | some start, none => .ok ⟨some start, none, trivial⟩
  | none, stop => .ok ⟨none, stop, trivial⟩

/-- The interval between two signed bounds.  A negative start is reported before
a negative stop, and either before the order of the two. -/
def ofSigned (start stop : Option Int64) : Except IntervalError Interval := do
  let start ← readBound? start
  let stop ← readBound? stop
  ofBounds start stop

def isUnbounded (i : Interval) : Bool := i.start.isNone && i.stop.isNone

def upper (i : Interval) : Horizon := .ofBound? i.stop

def upperOf : Option Interval → Horizon
  | some i => i.upper
  | none => .unbounded

def boundText : Option UInt64 → List Char
  | some bound => Nat.toDigits 10 bound.toNat
  | none => []

def chars (i : Interval) : List Char :=
  '[' :: boundText i.start ++ ',' :: boundText i.stop ++ [']']

def charsOf : Option Interval → List Char
  | some i => i.chars
  | none => []

def text (i : Interval) : String := String.ofList i.chars

theorem start_lt_stop {i : Interval} {start stop : UInt64}
    (hs : i.start = some start) (ht : i.stop = some stop) : start < stop := by
  have h := i.ordered
  rw [hs, ht] at h
  exact h

theorem eq_iff {i j : Interval} :
    i = j ↔ i.start = j.start ∧ i.stop = j.stop := by
  cases i
  cases j
  simp

theorem bounded_eq_ok_iff {start stop : UInt64} {i : Interval} :
    bounded start stop = .ok i ↔ i.start = some start ∧ i.stop = some stop := by
  unfold bounded
  split
  · simp [eq_iff, eq_comm]
  · rename_i h
    constructor
    · split <;> simp
    · rintro ⟨hs, ht⟩
      exact absurd (start_lt_stop hs ht) h

theorem ofBounds_eq_ok_iff {start stop : Option UInt64} {i : Interval} :
    ofBounds start stop = .ok i ↔ i.start = start ∧ i.stop = stop := by
  cases start <;> cases stop
  case some.some => exact bounded_eq_ok_iff
  all_goals simp [ofBounds, eq_iff, eq_comm]

end Interval

end LayeredLogic
