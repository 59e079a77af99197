import LayeredLogic.Assembly.Value

/-!
# Arguments of a rule

A rule takes the values of its parts one after the other.  A part that is
missing or of another kind is an error that names its index; a value once taken
is gone, whether it was of the kind expected or not.
-/

namespace LayeredLogic

structure Args where
  rule : String
  values : List Value
  taken : Nat
  deriving DecidableEq, Repr

/-- A computation that takes arguments; those already taken stay so after an
error. -/
abbrev Take (α : Type) : Type := ExceptT AssemblyError (StateM Args) α

namespace Args

variable {α : Type}

def ofValues (rule : String) (values : List Value) : Args := ⟨rule, values, 0⟩

def next (expected : ValueKind) : Take Value := fun args =>
  match args.values with
  | [] =>
      (.error (.missingPart args.rule args.taken expected),
        { args with taken := args.taken + 1 })
  | value :: values =>
      (.ok value, { args with values := values, taken := args.taken + 1 })

def nextAs (expected : ValueKind) (read? : Value → Option α) : Take α := do
  let args ← get
  let value ← next expected
  match read? value with
  | some a => return a
  | none => throw (.unexpectedPart args.rule args.taken expected value.kind)

def formula : Take Formula := nextAs .formula Value.formula?

def interval : Take (Option Interval) := nextAs .interval Value.interval?

def integer : Take (Option Int64) := nextAs .integer Value.integer?

def name : Take String := nextAs .name Value.name?

def labels : Take LabelSet := nextAs .labels Value.labels?

def times (take : Take α) : Nat → Take (List α)
  | 0 => return []
  | n + 1 => do
      let a ← take
      return a :: (← times take n)

def rest (take : Take α) : Take (List α) := do
  times take (← get).values.length

def finish (args : Args) : Except AssemblyError Unit :=
  if args.values.isEmpty then .ok ()
  else .error (.trailingParts args.rule (args.taken + args.values.length))

def consume {ε : Type} [Reports ε] (take : ExceptT ε (StateM Args) α)
    (rule : String) (values : List Value) : Except ε α :=
  match take (ofValues rule values) with
  | (.error e, _) => .error e
  | (.ok a, args) => do
      args.finish.mapError Reports.ofAssembly
      return a

end Args

end LayeredLogic
