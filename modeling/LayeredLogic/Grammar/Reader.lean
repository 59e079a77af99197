import LayeredLogic.Text.CodePoint
import LayeredLogic.Text.Position

/-!
# Readers

A reader takes a value off the front of a text or fails.  Choice is ordered: a
later alternative is tried from the same place when an earlier one has failed.
Every reply also tells how far the text was understood, which is the furthest
offset at which any character was refused, also on the way to a success or in an
alternative that was given up.
-/

namespace LayeredLogic

structure Cursor where
  offset : Nat
  rest : List Char
  deriving DecidableEq, Repr

structure Reply (α : Type) where
  result? : Option (α × Cursor)
  reached : Nat

def Reader (α : Type) : Type := Cursor → Reply α

def bytes : List Char → Nat
  | [] => 0
  | c :: cs => c.utf8Size + bytes cs

namespace Cursor

def ofText (cs : List Char) : Cursor := ⟨0, cs⟩

def advance (c : Cursor) (taken rest : List Char) : Cursor :=
  ⟨c.offset + bytes taken, rest⟩

end Cursor

namespace Reader

variable {α β : Type}

instance : Monad Reader where
  pure a := fun c => ⟨some (a, c), 0⟩
  bind p f := fun c =>
    let reply := p c
    match reply.result? with
    | none => ⟨none, reply.reached⟩
    | some (a, c') =>
        let next := f a c'
        ⟨next.result?, max reply.reached next.reached⟩

def fail : Reader α := fun c => ⟨none, c.offset⟩

def offset : Reader Nat := fun c => ⟨some (c.offset, c), 0⟩

def satisfy (ok : Char → Bool) : Reader Char := fun c =>
  match c.rest with
  | [] => ⟨none, c.offset⟩
  | x :: rest =>
      if ok x then ⟨some (x, c.advance [x] rest), 0⟩ else ⟨none, c.offset⟩

def exactly : List Char → Reader Unit
  | [] => pure ()
  | x :: xs => do
      let _ ← satisfy (· == x)
      exactly xs

def run (ok : Char → Bool) : Reader (List Char) := fun c =>
  ⟨some (c.rest.takeWhile ok,
    c.advance (c.rest.takeWhile ok) (c.rest.dropWhile ok)), 0⟩

def orElse (p q : Reader α) : Reader α := fun c =>
  let reply := p c
  match reply.result? with
  | some _ => reply
  | none =>
      let other := q c
      ⟨other.result?, max reply.reached other.reached⟩

def firstOf : List (Reader α) → Reader α
  | [] => fail
  | p :: ps => orElse p (firstOf ps)

def optional (p : Reader α) : Reader (Option α) :=
  orElse (do return some (← p)) (pure none)

/-- A value that passes a test.  One that does not is refused where it starts,
and whatever was refused inside it is forgotten. -/
def check (p : Reader α) (ok : α → Bool) : Reader α := fun c =>
  let reply := p c
  match reply.result? with
  | none => reply
  | some (a, _) => if ok a then reply else ⟨none, c.offset⟩

def upTo (p : Reader α) : Nat → Reader (List α)
  | 0 => pure []
  | n + 1 => do
      match ← optional p with
      | none => return []
      | some a => return a :: (← upTo p n)

/-- As many values as there are to read.  A value takes up at least one
character, so there are no more of them than characters. -/
def many (p : Reader α) : Reader (List α) := fun c => upTo p c.rest.length c

/-- One value or more with separators between them.  A separator without a value
after it is not taken. -/
def sepBy (p : Reader α) (separator : Reader Unit) : Reader (α × List α) := do
  let first ← p
  let others ← many do
    separator
    p
  return (first, others)

def located (p : Reader α) : Reader (α × Span) := do
  let start ← offset
  let a ← p
  let stop ← offset
  return (a, ⟨start, stop⟩)

def padded (p : Reader α) : Reader α := do
  let _ ← run isBlank
  let a ← p
  let _ ← run isBlank
  return a

def finish : Reader Unit := fun c =>
  match c.rest with
  | [] => ⟨some ((), c), 0⟩
  | _ :: _ => ⟨none, c.offset⟩

/-! ## What a reader reads -/

def result? (p : Reader α) (c : Cursor) : Option (α × Cursor) := (p c).result?

@[simp] theorem result?_pure (a : α) (c : Cursor) :
    result? (pure a) c = some (a, c) := rfl

@[simp] theorem result?_bind (p : Reader α) (f : α → Reader β) (c : Cursor) :
    result? (p >>= f) c = (result? p c).bind fun (a, c') =>
      result? (f a) c' := by
  show (bind p f c).result? = (p c).result?.bind _
  simp only [bind]
  cases (p c).result? <;> rfl

@[simp] theorem result?_fail (c : Cursor) :
    result? (fail : Reader α) c = none := rfl

@[simp] theorem result?_offset (c : Cursor) :
    result? offset c = some (c.offset, c) := rfl

@[simp] theorem result?_run (ok : Char → Bool) (c : Cursor) :
    result? (run ok) c = some (c.rest.takeWhile ok,
      c.advance (c.rest.takeWhile ok) (c.rest.dropWhile ok)) := rfl

@[simp] theorem result?_orElse (p q : Reader α) (c : Cursor) :
    result? (orElse p q) c = (result? p c).or (result? q c) := by
  show (orElse p q c).result? = (p c).result?.or (q c).result?
  unfold orElse
  cases h : (p c).result? <;> simp [h]

@[simp] theorem result?_check (p : Reader α) (ok : α → Bool) (c : Cursor) :
    result? (check p ok) c = (result? p c).filter fun (a, _) => ok a := by
  show (check p ok c).result? = (p c).result?.filter _
  unfold check
  cases h : (p c).result? with
  | none => simp [h]
  | some r => cases hr : ok r.1 <;> simp [h, hr, Option.filter]

@[simp] theorem result?_satisfy_nil (ok : Char → Bool) (offset : Nat) :
    result? (satisfy ok) ⟨offset, []⟩ = none := rfl

@[simp] theorem result?_satisfy_cons (ok : Char → Bool) (offset : Nat)
    (x : Char) (rest : List Char) :
    result? (satisfy ok) ⟨offset, x :: rest⟩ =
      if ok x then some (x, ⟨offset + x.utf8Size, rest⟩) else none := by
  show (if ok x then (_ : Reply Char) else _).result? = _
  split
  · simp [Cursor.advance, bytes]
  · rfl

@[simp] theorem result?_firstOf_nil (c : Cursor) :
    result? (firstOf ([] : List (Reader α))) c = none := rfl

@[simp] theorem result?_firstOf_cons (p : Reader α) (ps : List (Reader α))
    (c : Cursor) :
    result? (firstOf (p :: ps)) c =
      (result? p c).or (result? (firstOf ps) c) := by
  simp [firstOf]

@[simp] theorem result?_optional (p : Reader α) (c : Cursor) :
    result? (optional p) c = some
      (match result? p c with
      | some (a, c') => (some a, c')
      | none => (none, c)) := by
  simp only [optional, result?_orElse, result?_bind, result?_pure]
  cases result? p c <;> rfl

@[simp] theorem result?_upTo_zero (p : Reader α) (c : Cursor) :
    result? (upTo p 0) c = some ([], c) := rfl

@[simp] theorem result?_upTo_succ (p : Reader α) (n : Nat) (c : Cursor) :
    result? (upTo p (n + 1)) c =
      match result? p c with
      | some (a, c') =>
        (result? (upTo p n) c').map fun (as, c'') => (a :: as, c'')
      | none => some ([], c) := by
  simp only [upTo, result?_bind, result?_optional, Option.bind_some]
  cases result? p c with
  | none => rfl
  | some r =>
      simp only [result?_bind, result?_pure]
      cases result? (upTo p n) r.2 <;> rfl

theorem result?_many (p : Reader α) (c : Cursor) :
    result? (many p) c = result? (upTo p c.rest.length) c := rfl

@[simp] theorem result?_located (p : Reader α) (c : Cursor) :
    result? (located p) c =
      (result? p c).map fun (a, c') => ((a, ⟨c.offset, c'.offset⟩), c') := by
  simp only [located, result?_bind, result?_offset, Option.bind_some,
    result?_pure]
  cases result? p c <;> rfl

@[simp] theorem result?_finish (c : Cursor) :
    result? finish c = if c.rest = [] then some ((), c) else none := by
  obtain ⟨offset, rest⟩ := c
  cases rest <;> rfl

end Reader

end LayeredLogic
