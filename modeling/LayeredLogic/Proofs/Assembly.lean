import LayeredLogic.Assembly.Assemble

/-!
# What a rule makes of its parts

Each built-in rule accepts the values of one shape and says what it makes of
them.  `Makes` lists the shapes; a rule table gives a value exactly when one of
them fits a rule of its layer.
-/

namespace LayeredLogic

namespace Value

def ofInterval? : Option Interval → Value
  | some i => interval i
  | none => absent

def ofInteger? : Option Int64 → Value
  | some n => integer n
  | none => absent

theorem formula?_eq_some_iff {v : Value} {f : Formula} :
    v.formula? = some f ↔ v = formula f := by
  cases v <;> simp [formula?]

private theorem interval?_eq_some_iff {v : Value} {i : Option Interval} :
    v.interval? = some i ↔ v = ofInterval? i := by
  cases v <;> cases i <;> simp [interval?, ofInterval?]

theorem integer?_eq_some_iff {v : Value} {n : Option Int64} :
    v.integer? = some n ↔ v = ofInteger? n := by
  constructor
  · intro h
    cases v with
    | integer m =>
        have hm : some m = n := Option.some.inj h
        rw [← hm, ofInteger?]
    | absent =>
        have hnone : none = n := Option.some.inj h
        rw [← hnone, ofInteger?]
    | formula | interval | name | labels => cases h
  · rintro rfl
    cases n <;> rfl

theorem name?_eq_some_iff {v : Value} {s : String} :
    v.name? = some s ↔ v = name s := by
  cases v <;> simp [name?]

theorem labels?_eq_some_iff {v : Value} {ls : LabelSet} :
    v.labels? = some ls ↔ v = labels ls := by
  cases v <;> simp [labels?]

end Value

/-! ## What taking gives -/

namespace Args

variable {α β : Type}

def run (take : Take α) (args : Args) : Except AssemblyError α × Args :=
  take args

theorem run_bind (take : Take α) (next : α → Take β) (args : Args) :
    run (take >>= next) args = match run take args with
      | (.ok a, middle) => run (next a) middle
      | (.error e, middle) => (.error e, middle) := by
  show ExceptT.bind take next args = _
  unfold ExceptT.bind ExceptT.mk run
  simp only [bind, StateT.bind]
  rcases take args with ⟨_ | _, _⟩ <;> rfl

/-- Taking succeeds with a value and leaves the other arguments. -/
def Gives (take : Take α) (args : Args) (a : α) (rest : Args) : Prop :=
  run take args = (.ok a, rest)

theorem gives_pure_iff {a b : α} {args rest : Args} :
    Gives (pure a) args b rest ↔ b = a ∧ rest = args := by
  have hrun : run (pure a) args = (.ok a, args) := rfl
  simp [Gives, hrun, eq_comm]

theorem gives_throw_iff {e : AssemblyError} {args rest : Args} {a : α} :
    Gives (throw e) args a rest ↔ False := by
  have hrun : run (throw e : Take α) args = (.error e, args) := rfl
  simp [Gives, hrun]

theorem gives_get_iff {args args' rest : Args} :
    Gives get args args' rest ↔ args' = args ∧ rest = args := by
  have hrun : run get args = (.ok args, args) := rfl
  simp [Gives, hrun, eq_comm]

theorem gives_bind_iff {take : Take α} {next : α → Take β} {args rest : Args}
    {b : β} :
    Gives (take >>= next) args b rest ↔
      ∃ a middle, Gives take args a middle ∧ Gives (next a) middle b rest := by
  unfold Gives
  rw [run_bind]
  rcases run take args with ⟨e | a, middle⟩
  · simp
  · simp only [Prod.mk.injEq, Except.ok.injEq]
    constructor
    · exact fun h => ⟨a, middle, ⟨rfl, rfl⟩, h⟩
    · rintro ⟨_, _, ⟨rfl, rfl⟩, h⟩
      exact h

theorem gives_nextAs_iff {expected : ValueKind} {read? : Value → Option α}
    {args rest : Args} {a : α} :
    Gives (nextAs expected read?) args a rest ↔
      ∃ value values, args.values = value :: values ∧ read? value = some a ∧
        rest = ⟨args.rule, values, args.taken + 1⟩ := by
  obtain ⟨rule, _ | ⟨value, values⟩, taken⟩ := args
  · have hrun : run (nextAs expected read?) ⟨rule, [], taken⟩ =
        (.error (.missingPart rule taken expected), ⟨rule, [], taken + 1⟩) :=
          rfl
    simp [Gives, hrun]
  · have hnext : Gives (next expected) ⟨rule, value :: values, taken⟩ value
        ⟨rule, values, taken + 1⟩ := rfl
    simp only [nextAs, gives_bind_iff, gives_get_iff]
    constructor
    · rintro ⟨_, _, ⟨rfl, rfl⟩, value', middle, hmiddle, hread⟩
      obtain ⟨hvalue, rfl⟩ := Prod.mk.inj (hnext.symm.trans hmiddle)
      obtain rfl := Except.ok.inj hvalue
      cases hread? : read? value with
      | none => simp [hread?, gives_throw_iff] at hread
      | some b =>
          simp only [hread?, gives_pure_iff] at hread
          exact ⟨value, values, rfl, hread.1 ▸ hread?, hread.2⟩
    · rintro ⟨value', values', heq, hread, rfl⟩
      obtain ⟨rfl, rfl⟩ := List.cons.inj heq
      exact ⟨_, _, ⟨rfl, rfl⟩, value, _, hnext, by simp [hread, gives_pure_iff]⟩

theorem gives_times_iff {expected : ValueKind} {read? : Value → Option α}
    {args rest : Args} {as : List α} :
    Gives (times (nextAs expected read?) args.values.length) args as rest ↔
      args.values.mapM read? = some as ∧
        rest = ⟨args.rule, [], args.taken + args.values.length⟩ := by
  obtain ⟨rule, values, taken⟩ := args
  induction values generalizing taken as with
  | nil => simp [times, gives_pure_iff, eq_comm]
  | cons value values ih =>
      simp only [List.length_cons, times, gives_bind_iff, gives_nextAs_iff,
        gives_pure_iff]
      constructor
      · rintro ⟨a, _, ⟨_, _, heq, hread, rfl⟩, bs, _, hbs, rfl, rfl⟩
        obtain ⟨rfl, rfl⟩ := List.cons.inj heq
        obtain ⟨hvalues, rfl⟩ := (ih (taken + 1)).mp hbs
        simp [List.mapM_cons, hread, hvalues, Nat.add_assoc, Nat.add_comm 1]
      · rw [List.mapM_cons]
        rintro ⟨hmap, rfl⟩
        obtain ⟨a, hread, hmap⟩ := Option.bind_eq_some_iff.mp hmap
        obtain ⟨bs, hvalues, hpure⟩ := Option.bind_eq_some_iff.mp hmap
        refine ⟨a, _, ⟨value, values, rfl, hread, rfl⟩, bs, _,
          (ih (taken + 1)).mpr ⟨hvalues, ?_⟩, (Option.some.inj hpure).symm, rfl⟩
        simp [Nat.add_assoc, Nat.add_comm 1]

private theorem gives_rest_iff {expected : ValueKind} {read? : Value → Option α}
    {args rest : Args} {as : List α} :
    Gives (Args.rest (nextAs expected read?)) args as rest ↔
      args.values.mapM read? = some as ∧
        rest = ⟨args.rule, [], args.taken + args.values.length⟩ := by
  simp only [Args.rest, gives_bind_iff, gives_get_iff]
  constructor
  · rintro ⟨_, _, ⟨rfl, rfl⟩, htimes⟩
    exact gives_times_iff.mp htimes
  · exact fun h => ⟨_, _, ⟨rfl, rfl⟩, gives_times_iff.mpr h⟩

theorem consume_eq (take : Take α) (rule : String) (values : List Value) :
    consume take rule values = match run take ⟨rule, values, 0⟩ with
      | (.ok a, rest) => rest.finish.map fun _ => a
      | (.error e, _) => .error e := by
  unfold consume run ofValues
  rcases take ⟨rule, values, 0⟩ with ⟨e | a, rest⟩
  · rfl
  · show (do rest.finish.mapError Reports.ofAssembly; return a) = _
    dsimp only
    cases rest.finish <;> rfl

private theorem finish_eq_ok_iff {args : Args} :
    args.finish = .ok () ↔ args.values = [] := by
  unfold finish
  cases args.values <;> simp

def Reads (take : Take α) (args : Args) (a : α) : Prop :=
  ∃ rest, Gives take args a rest ∧ rest.values = []

theorem consume_eq_ok_iff {take : Take α} {rule : String} {values : List Value}
    {a : α} :
    consume take rule values = .ok a ↔ Reads take ⟨rule, values, 0⟩ a := by
  rw [consume_eq]
  unfold Reads Gives
  rcases run take ⟨rule, values, 0⟩ with ⟨e | b, rest⟩
  · simp
  · simp only [Prod.mk.injEq, Except.ok.injEq, ← finish_eq_ok_iff]
    constructor
    · intro h
      cases hfinish : rest.finish with
      | error e => simp [hfinish, Except.map] at h
      | ok u =>
          simp only [hfinish, Except.map, Except.ok.injEq] at h
          exact ⟨rest, ⟨h, rfl⟩, hfinish⟩
    · rintro ⟨_, ⟨rfl, rfl⟩, hfinish⟩
      rw [hfinish]
      rfl

private theorem mapM_eq_some_iff {read? : Value → Option α} {write : α → Value}
    (h : ∀ v a, read? v = some a ↔ v = write a) {values : List Value}
    {as : List α} : values.mapM read? = some as ↔ values = as.map write := by
  induction values generalizing as with
  | nil => cases as <;> simp
  | cons value values ih =>
      rw [List.mapM_cons]
      cases hv : read? value with
      | none =>
          have hne : ∀ a, value ≠ write a :=
            fun a ha => by simp [(h value a).mpr ha] at hv
          cases as <;> simp [hne]
      | some a =>
          obtain rfl := (h value a).mp hv
          cases hvs : values.mapM read? with
          | none =>
              cases as with
              | nil => simp
              | cons b bs =>
                  have hne : values ≠ bs.map write :=
                    fun hbs => by simp [ih.mpr hbs] at hvs
                  simp [hne]
          | some bs =>
              obtain rfl := ih.mp hvs
              cases as with
              | nil => simp
              | cons c cs => simp [← h, hv, ← ih, hvs]

section

variable {take : Take α} {f : α → Take β} {args : Args} {b : β}
  {expected : ValueKind} {read? : Value → Option α} {write : α → Value}

theorem reads_pure_iff {c : β} :
    Reads (pure c) args b ↔ args.values = [] ∧ b = c := by
  simp only [Reads, gives_pure_iff]
  constructor
  · rintro ⟨_, ⟨rfl, rfl⟩, hvalues⟩
    exact ⟨hvalues, rfl⟩
  · rintro ⟨hvalues, rfl⟩
    exact ⟨args, ⟨rfl, rfl⟩, hvalues⟩

theorem reads_bind_iff :
    Reads (take >>= f) args b ↔
    ∃ a rest, Gives take args a rest ∧ Reads (f a) rest b := by
  simp only [Reads, gives_bind_iff]
  constructor
  · rintro ⟨rest, ⟨a, middle, ha, hb⟩, hrest⟩
    exact ⟨a, middle, ha, rest, hb, hrest⟩
  · rintro ⟨a, middle, ha, rest, hb, hrest⟩
    exact ⟨rest, ⟨a, middle, ha, hb⟩, hrest⟩

theorem reads_nextAs_iff (h : ∀ v a, read? v = some a ↔ v = write a) :
    Reads (nextAs expected read? >>= f) args b ↔
      ∃ a values, args.values = write a :: values ∧
        Reads (f a) ⟨args.rule, values, args.taken + 1⟩ b := by
  simp only [reads_bind_iff, gives_nextAs_iff, h]
  constructor
  · rintro ⟨a, _, ⟨_, values, hvalues, rfl, rfl⟩, hb⟩
    exact ⟨a, values, hvalues, hb⟩
  · rintro ⟨a, values, hvalues, hb⟩
    exact ⟨a, _, ⟨_, values, hvalues, rfl, rfl⟩, hb⟩

theorem reads_rest_iff {f : List α → Take β}
    (h : ∀ v a, read? v = some a ↔ v = write a) :
    Reads (Args.rest (nextAs expected read?) >>= f) args b ↔
      ∃ as, args.values = as.map write ∧
        Reads (f as) ⟨args.rule, [], args.taken + args.values.length⟩ b := by
  simp only [reads_bind_iff, gives_rest_iff, mapM_eq_some_iff h]
  constructor
  · rintro ⟨as, _, ⟨hvalues, rfl⟩, hb⟩
    exact ⟨as, hvalues, hb⟩
  · rintro ⟨as, hvalues, hb⟩
    exact ⟨as, _, ⟨hvalues, rfl⟩, hb⟩

theorem reads_formula_iff {f : Formula → Take β} :
    Reads (Args.formula >>= f) args b ↔
      ∃ a values, args.values = .formula a :: values ∧
        Reads (f a) ⟨args.rule, values, args.taken + 1⟩ b :=
  reads_nextAs_iff fun _ _ => Value.formula?_eq_some_iff

theorem reads_interval_iff {f : Option Interval → Take β} :
    Reads (Args.interval >>= f) args b ↔
      ∃ i values, args.values = .ofInterval? i :: values ∧
        Reads (f i) ⟨args.rule, values, args.taken + 1⟩ b :=
  reads_nextAs_iff fun _ _ => Value.interval?_eq_some_iff

theorem reads_integer_iff {f : Option Int64 → Take β} :
    Reads (Args.integer >>= f) args b ↔
      ∃ n values, args.values = .ofInteger? n :: values ∧
        Reads (f n) ⟨args.rule, values, args.taken + 1⟩ b :=
  reads_nextAs_iff fun _ _ => Value.integer?_eq_some_iff

theorem reads_name_iff {f : String → Take β} :
    Reads (Args.name >>= f) args b ↔
      ∃ s values, args.values = .name s :: values ∧
        Reads (f s) ⟨args.rule, values, args.taken + 1⟩ b :=
  reads_nextAs_iff fun _ _ => Value.name?_eq_some_iff

private theorem reads_labels_iff {f : LabelSet → Take β} :
    Reads (Args.labels >>= f) args b ↔
      ∃ ls values, args.values = .labels ls :: values ∧
        Reads (f ls) ⟨args.rule, values, args.taken + 1⟩ b :=
  reads_nextAs_iff fun _ _ => Value.labels?_eq_some_iff

end

end Args

/-! ## Handlers -/

namespace Handler

open Args

variable {α β : Type} {rule : String} {values : List Value} {v : Value}
  {args : Args}

theorem reads_liftFormula_iff {result : Except FormulaError α} {f : α → Take β}
    {b : β} :
    Reads (liftFormula result >>= f) args b ↔
    ∃ a, result = .ok a ∧ Reads (f a) args b := by
  cases result with
  | error e => simp [liftFormula, Reads, gives_throw_iff]
  | ok a => simp [liftFormula]

theorem reads_liftInterval_iff {result : Except IntervalError α}
    {f : α → Take β} {b : β} :
    Reads (liftInterval result >>= f) args b ↔
    ∃ a, result = .ok a ∧ Reads (f a) args b := by
  cases result with
  | error e => simp [liftInterval, Reads, gives_throw_iff]
  | ok a => simp [liftInterval]

theorem consume_negation :
    consume negation rule values = .ok v ↔
      ∃ a, values = [.formula a] ∧ v = .formula a.neg := by
  simp only [consume_eq_ok_iff, negation, reads_formula_iff, reads_pure_iff]
  constructor
  · rintro ⟨a, _, rfl, rfl, rfl⟩
    exact ⟨a, rfl, rfl⟩
  · rintro ⟨a, rfl, rfl⟩
    exact ⟨a, _, rfl, rfl, rfl⟩

theorem consume_derived {c : Connective} :
    consume (derived c) rule values = .ok v ↔
      ∃ a b, values = [.formula a, .formula b] ∧
      v = .formula (.derived c a b) := by
  simp only [consume_eq_ok_iff, derived, reads_formula_iff, reads_pure_iff]
  constructor
  · rintro ⟨a, _, rfl, b, _, rfl, rfl, rfl⟩
    exact ⟨a, b, rfl, rfl⟩
  · rintro ⟨a, b, rfl, rfl⟩
    exact ⟨a, _, rfl, b, _, rfl, rfl, rfl⟩

theorem consume_atom :
    consume atom rule values = .ok v ↔
    ∃ s, values = [.name s] ∧ v = .formula (.var s) := by
  simp only [consume_eq_ok_iff, atom, reads_name_iff, reads_pure_iff]
  constructor
  · rintro ⟨s, _, rfl, rfl, rfl⟩
    exact ⟨s, rfl, rfl⟩
  · rintro ⟨s, rfl, rfl⟩
    exact ⟨s, _, rfl, rfl, rfl⟩

theorem consume_literal :
    consume literal rule values = .ok v ↔
      ∃ s, values = [.name s] ∧
      v = .formula (.literal (trueSpellings.contains s)) := by
  simp only [consume_eq_ok_iff, literal, reads_name_iff, reads_pure_iff]
  constructor
  · rintro ⟨s, _, rfl, rfl, rfl⟩
    exact ⟨s, rfl, rfl⟩
  · rintro ⟨s, rfl, rfl⟩
    exact ⟨s, _, rfl, rfl, rfl⟩

theorem consume_junction {k : Junction} :
    consume (junction k) rule values = .ok v ↔
      ∃ args, values = args.map .formula ∧ 2 ≤ args.length ∧
        v = .formula (Formula.joinAll k args) := by
  have hread : ∀ v a, Value.formula? v = some a ↔ v = .formula a :=
    fun v a => Value.formula?_eq_some_iff
  simp only [consume_eq_ok_iff, junction, Args.formula, reads_rest_iff hread,
    reads_liftFormula_iff, reads_pure_iff, Formula.join?]
  constructor
  · rintro ⟨args, rfl, f, hjoin, -, rfl⟩
    split at hjoin
    · cases hjoin
    · rename_i hlength
      exact ⟨args, rfl, by omega, by rw [Except.ok.inj hjoin]⟩
  · rintro ⟨args, rfl, hlength, rfl⟩
    exact ⟨args, rfl, _, if_neg (by omega), trivial, rfl⟩

theorem consume_interval :
    consume interval rule values = .ok v ↔
      ∃ start stop i, values = [.ofInteger? start, .ofInteger? stop] ∧
        Interval.ofSigned start stop = .ok i ∧ v = .interval i := by
  simp only [consume_eq_ok_iff, interval, reads_integer_iff,
    reads_liftInterval_iff, reads_pure_iff]
  constructor
  · rintro ⟨start, _, rfl, stop, _, rfl, i, hi, rfl, rfl⟩
    exact ⟨start, stop, i, rfl, hi, rfl⟩
  · rintro ⟨start, stop, i, rfl, hi, rfl⟩
    exact ⟨start, _, rfl, stop, _, rfl, i, hi, rfl, rfl⟩

theorem consume_next :
    consume next rule values = .ok v ↔
      ∃ count steps a, values = [.ofInteger? count, .formula a] ∧
      readBound? count = .ok steps ∧
        v = .formula (.unary (.next steps) a) := by
  simp only [consume_eq_ok_iff, next, reads_integer_iff, reads_liftInterval_iff,
    reads_formula_iff, reads_pure_iff]
  constructor
  · rintro ⟨count, _, rfl, steps, hsteps, a, _, rfl, rfl, rfl⟩
    exact ⟨count, steps, a, rfl, hsteps, rfl⟩
  · rintro ⟨count, steps, a, rfl, hsteps, rfl⟩
    exact ⟨count, _, rfl, steps, hsteps, a, _, rfl, rfl, rfl⟩

theorem consume_unary {modality : Option Interval → UnaryModality} :
    consume (unary modality) rule values = .ok v ↔
      ∃ bounds a, values = [.ofInterval? bounds, .formula a] ∧
        v = .formula (.unary (modality bounds) a) := by
  simp only [consume_eq_ok_iff, unary, reads_interval_iff, reads_formula_iff,
    reads_pure_iff]
  constructor
  · rintro ⟨i, _, rfl, a, _, rfl, rfl, rfl⟩
    exact ⟨i, a, rfl, rfl⟩
  · rintro ⟨i, a, rfl, rfl⟩
    exact ⟨i, _, rfl, a, _, rfl, rfl, rfl⟩

theorem consume_binary {modality : Option Interval → BinaryModality} :
    consume (binary modality) rule values = .ok v ↔
      ∃ a bounds b, values = [.formula a, .ofInterval? bounds, .formula b] ∧
        v = .formula (.binary (modality bounds) a b) := by
  simp only [consume_eq_ok_iff, binary, reads_interval_iff, reads_formula_iff,
    reads_pure_iff]
  constructor
  · rintro ⟨a, _, rfl, i, _, rfl, b, _, rfl, rfl, rfl⟩
    exact ⟨a, i, b, rfl, rfl⟩
  · rintro ⟨a, i, b, rfl, rfl⟩
    exact ⟨a, _, rfl, i, _, rfl, b, _, rfl, rfl, rfl⟩

theorem consume_graphList :
    consume graphList rule values = .ok v ↔
      ∃ names, values = names.map .name ∧ v = .labels (.ofList names) := by
  have hread : ∀ v s, Value.name? v = some s ↔ v = .name s :=
    fun v s => Value.name?_eq_some_iff
  simp only [consume_eq_ok_iff, graphList, Args.name, reads_rest_iff hread,
    reads_pure_iff]
  constructor
  · rintro ⟨names, rfl, -, rfl⟩
    exact ⟨names, rfl, rfl⟩
  · rintro ⟨names, rfl, rfl⟩
    exact ⟨names, rfl, trivial, rfl⟩

theorem consume_graph {direction : Direction} :
    consume (graph direction) rule values = .ok v ↔
      ∃ labels edges a,
        values = [.labels labels, .ofInterval? edges, .formula a] ∧
        labels.isEmpty = false ∧
        v = .formula (.unary (.graph direction labels edges) a) := by
  simp only [consume_eq_ok_iff, graph, reads_labels_iff, reads_interval_iff,
    reads_formula_iff, reads_liftFormula_iff, reads_pure_iff, Formula.graph?]
  constructor
  · rintro ⟨ls, _, rfl, i, _, rfl, a, _, rfl, f, hgraph, rfl, rfl⟩
    split at hgraph
    · cases hgraph
    · rename_i hlabels
      exact ⟨ls, i, a,
        rfl, by simpa using hlabels, by rw [Except.ok.inj hgraph]⟩
  · rintro ⟨ls, i, a, rfl, hlabels, rfl⟩
    exact ⟨ls, _, rfl, i, _, rfl, a, _, rfl, _, if_neg (by simp [hlabels]),
      rfl, rfl⟩

end Handler

/-! ## Rules of a layer -/

def Junction.rule : Junction → Rule
  | and => .conjunction
  | or => .disjunction

def Connective.rule : Connective → Rule
  | implies => .implies
  | equiv => .equiv
  | xor => .xor

def Direction.rule : Direction → Rule
  | incoming => .graphIncoming
  | outgoing => .graphOutgoing

namespace Rule

def all : List Rule :=
  [equiv, implies, xor, disjunction, conjunction, negation, .variable, literal,
    interval, next,
    always, eventually, .until, everywhere, somewhere, escape, reach,
      graphIncoming,
    graphOutgoing, graphList]

def layer : Rule → Layer
  | equiv | implies | xor | disjunction | conjunction | negation | .variable
      | literal
  | interval => .base
  | next | always | eventually | .until => .ltl
  | everywhere | somewhere | escape | reach => .strel
  | graphIncoming | graphOutgoing | graphList => .stlGo

def unary? : Rule → Option (Option Interval → UnaryModality)
  | always => some .always
  | eventually => some .eventually
  | everywhere => some .everywhere
  | somewhere => some .somewhere
  | escape => some .escape
  | _ => none

def binary? : Rule → Option (Option Interval → BinaryModality)
  | .until => some .until
  | reach => some .reach
  | _ => none

def handler : Rule → Handler
  | negation => .negation
  | conjunction => .junction .and
  | disjunction => .junction .or
  | implies => .derived .implies
  | equiv => .derived .equiv
  | xor => .derived .xor
  | .variable => .atom
  | literal => .literal
  | interval => .interval
  | next => .next
  | always => .unary .always
  | eventually => .unary .eventually
  | .until => .binary .until
  | everywhere => .unary .everywhere
  | somewhere => .unary .somewhere
  | escape => .unary .escape
  | reach => .binary .reach
  | graphList => .graphList
  | graphIncoming => .graph .incoming
  | graphOutgoing => .graph .outgoing

/-- The shapes of the values that a rule accepts, each with what it makes of
them. -/
inductive Makes : Rule → List Value → Value → Prop
  | negation (a : Formula) : Makes .negation [.formula a] (.formula a.neg)
  | junction (k : Junction) (args : List Formula) (length : 2 ≤ args.length) :
      Makes k.rule (args.map .formula) (.formula (.joinAll k args))
  | derived (c : Connective) (a b : Formula) :
      Makes c.rule [.formula a, .formula b] (.formula (.derived c a b))
  | atom (name : String) : Makes .variable [.name name] (.formula (.var name))
  | literal (spelling : String) :
      Makes .literal [.name spelling]
        (.formula (.literal (Handler.trueSpellings.contains spelling)))
  | interval (start stop : Option Int64) (i : Interval)
      (valid : Interval.ofSigned start stop = .ok i) :
      Makes .interval [.ofInteger? start, .ofInteger? stop] (.interval i)
  | next (count : Option Int64) (steps : Option UInt64) (a : Formula)
      (valid : readBound? count = .ok steps) :
      Makes .next [.ofInteger? count, .formula a]
        (.formula (.unary (.next steps) a))
  | unary (rule : Rule) (modality : Option Interval → UnaryModality)
      (known : rule.unary? = some modality) (bounds : Option Interval)
      (a : Formula) :
      Makes rule [.ofInterval? bounds, .formula a]
        (.formula (.unary (modality bounds) a))
  | binary (rule : Rule) (modality : Option Interval → BinaryModality)
      (known : rule.binary? = some modality) (bounds : Option Interval)
      (a b : Formula) :
      Makes rule [.formula a, .ofInterval? bounds, .formula b]
        (.formula (.binary (modality bounds) a b))
  | graphList (names : List String) :
      Makes .graphList (names.map .name) (.labels (.ofList names))
  | graph (direction : Direction) (labels : LabelSet) (edges : Option Interval)
      (a : Formula)
      (nonempty : labels.isEmpty = false) :
      Makes direction.rule [.labels labels, .ofInterval? edges, .formula a]
        (.formula (.unary (.graph direction labels edges) a))

variable {rule : Rule}

private theorem handler_of_unary? {modality : Option Interval → UnaryModality}
    (h : rule.unary? = some modality) : rule.handler = .unary modality := by
  cases rule <;> cases h <;> rfl

private theorem handler_of_binary? {modality : Option Interval → BinaryModality}
    (h : rule.binary? = some modality) : rule.handler = .binary modality := by
  cases rule <;> cases h <;> rfl

theorem layer_of_unary? {modality : Option Interval → UnaryModality}
    (h : rule.unary? = some modality) (bounds : Option Interval) :
    (modality bounds).operator.layer = rule.layer := by
  cases rule <;> cases h <;> rfl

theorem layer_of_binary? {modality : Option Interval → BinaryModality}
    (h : rule.binary? = some modality) (bounds : Option Interval) :
    (modality bounds).operator.layer = rule.layer := by
  cases rule <;> cases h <;> rfl

private theorem makes_of_consume {name : String} {values : List Value}
    {v : Value} (h : Args.consume rule.handler name values = .ok v) :
    Makes rule values v := by
  cases rule with
  | negation =>
      obtain ⟨a, rfl, rfl⟩ := Handler.consume_negation.mp h
      exact .negation a
  | conjunction =>
      obtain ⟨args, rfl, hlength, rfl⟩ := Handler.consume_junction.mp h
      exact .junction .and args hlength
  | disjunction =>
      obtain ⟨args, rfl, hlength, rfl⟩ := Handler.consume_junction.mp h
      exact .junction .or args hlength
  | implies =>
      obtain ⟨a, b, rfl, rfl⟩ := Handler.consume_derived.mp h
      exact .derived .implies a b
  | equiv =>
      obtain ⟨a, b, rfl, rfl⟩ := Handler.consume_derived.mp h
      exact .derived .equiv a b
  | xor =>
      obtain ⟨a, b, rfl, rfl⟩ := Handler.consume_derived.mp h
      exact .derived .xor a b
  | «variable» =>
      obtain ⟨s, rfl, rfl⟩ := Handler.consume_atom.mp h
      exact .atom s
  | literal =>
      obtain ⟨s, rfl, rfl⟩ := Handler.consume_literal.mp h
      exact .literal s
  | interval =>
      obtain ⟨start, stop, i, rfl, hi, rfl⟩ := Handler.consume_interval.mp h
      exact .interval start stop i hi
  | next =>
      obtain ⟨count, steps, a, rfl, hsteps, rfl⟩ := Handler.consume_next.mp h
      exact .next count steps a hsteps
  | always | eventually | everywhere | somewhere | escape =>
      obtain ⟨bounds, a, rfl, rfl⟩ := Handler.consume_unary.mp h
      exact .unary _ _ rfl bounds a
  | «until» | reach =>
      obtain ⟨a, bounds, b, rfl, rfl⟩ := Handler.consume_binary.mp h
      exact .binary _ _ rfl bounds a b
  | graphList =>
      obtain ⟨names, rfl, rfl⟩ := Handler.consume_graphList.mp h
      exact .graphList names
  | graphIncoming =>
      obtain ⟨labels, edges, a, rfl, hlabels, rfl⟩ := Handler.consume_graph.mp h
      exact .graph .incoming labels edges a hlabels
  | graphOutgoing =>
      obtain ⟨labels, edges, a, rfl, hlabels, rfl⟩ := Handler.consume_graph.mp h
      exact .graph .outgoing labels edges a hlabels

theorem consume_of_makes {name : String} {values : List Value} {v : Value}
    (h : Makes rule values v) :
    Args.consume rule.handler name values = .ok v := by
  cases h with
  | negation a => exact Handler.consume_negation.mpr ⟨a, rfl, rfl⟩
  | junction k args hlength =>
      have hhandler : k.rule.handler = .junction k := by cases k <;> rfl
      rw [hhandler]
      exact Handler.consume_junction.mpr ⟨args, rfl, hlength, rfl⟩
  | derived c a b =>
      have hhandler : c.rule.handler = .derived c := by cases c <;> rfl
      rw [hhandler]
      exact Handler.consume_derived.mpr ⟨a, b, rfl, rfl⟩
  | atom s => exact Handler.consume_atom.mpr ⟨s, rfl, rfl⟩
  | literal s => exact Handler.consume_literal.mpr ⟨s, rfl, rfl⟩
  | interval start stop i hi =>
      exact Handler.consume_interval.mpr ⟨start, stop, i, rfl, hi, rfl⟩
  | next count steps a hsteps =>
      exact Handler.consume_next.mpr ⟨count, steps, a, rfl, hsteps, rfl⟩
  | unary rule modality hknown bounds a =>
      rw [handler_of_unary? hknown]
      exact Handler.consume_unary.mpr ⟨bounds, a, rfl, rfl⟩
  | binary rule modality hknown bounds a b =>
      rw [handler_of_binary? hknown]
      exact Handler.consume_binary.mpr ⟨a, bounds, b, rfl, rfl⟩
  | graphList names => exact Handler.consume_graphList.mpr ⟨names, rfl, rfl⟩
  | graph direction labels edges a hlabels =>
      have hhandler : direction.rule.handler = .graph direction := by
        cases direction <;> rfl
      rw [hhandler]
      exact Handler.consume_graph.mpr ⟨labels, edges, a, rfl, hlabels, rfl⟩

end Rule

namespace RuleTable

theorem resolve_rule (layer : Layer) (rule : Rule) :
    (ofLayer layer).resolve rule.name =
      if layer.includes rule.layer then some (rule.layer, rule.handler)
        else none := by
  cases layer <;> cases rule <;> rfl

def ruleNames (table : RuleTable) : List String :=
  table.chain.flatMap fun registry => registry.rules.map Prod.fst

theorem mem_ruleNames_of_resolve {table : RuleTable} {name : String}
    {found : Layer × Handler} (h : table.resolve name = some found) :
    name ∈ table.ruleNames := by
  obtain ⟨registry, hregistry, hlookup⟩ := List.exists_of_findSome?_eq_some h
  obtain ⟨handler, hhandler, -⟩ := Option.map_eq_some_iff.mp hlookup
  obtain ⟨before, after, hrules, -⟩ := List.lookup_eq_some_iff.mp hhandler
  refine List.mem_flatMap.mpr
    ⟨registry, hregistry, List.mem_map.mpr ⟨(name, handler), ?_, rfl⟩⟩
  rw [hrules]
  exact List.mem_append_right _ List.mem_cons_self

theorem exists_rule_of_mem_ruleNames {layer : Layer} {name : String}
    (h : name ∈ (ofLayer layer).ruleNames) :
    ∃ rule : Rule, rule.name = name := by
  have hknown : ∀ name ∈ (ofLayer layer).ruleNames,
      ∃ rule ∈ Rule.all, rule.name = name := by
    cases layer <;> decide
  obtain ⟨rule, -, hrule⟩ := hknown name h
  exact ⟨rule, hrule⟩

/-- A layer's table gives a value exactly to the shapes that the rules of the
layer accept. -/
theorem ruleValue_ofLayer_iff {layer : Layer} {name : String}
    {values : List Value} {v : Value} :
    (ofLayer layer).ruleValue name values = .ok v ↔
      ∃ rule : Rule, rule.name = name ∧ layer.includes rule.layer ∧
      rule.Makes values v := by
  constructor
  · intro h
    unfold ruleValue at h
    cases hresolve : (ofLayer layer).resolve name with
    | none => simp [hresolve] at h
    | some found =>
        obtain ⟨rule, rfl⟩ :=
          exists_rule_of_mem_ruleNames (mem_ruleNames_of_resolve hresolve)
        rw [resolve_rule] at hresolve
        split at hresolve
        · rename_i hlayer
          rw [resolve_rule, if_pos hlayer] at h
          exact ⟨rule, rfl, hlayer, Rule.makes_of_consume h⟩
        · cases hresolve
  · rintro ⟨rule, rfl, hlayer, hmakes⟩
    unfold ruleValue
    rw [resolve_rule, if_pos hlayer]
    exact Rule.consume_of_makes hmakes

/-! ## Tokens and trees -/

theorem tokenValue_ofLayer (layer : Layer) (t : Token) :
    (ofLayer layer).tokenValue t =
      if t.kind = TokenKind.integer.tag then TokenHandler.integer t.text
      else if t.kind = TokenKind.quoted.tag then TokenHandler.quoted t.text
      else TokenHandler.plain t.text := by
  have hbase : (ofLayer layer).resolveToken t.kind =
      base.resolveToken t.kind := by
    cases layer <;> rfl
  unfold tokenValue
  rw [hbase]
  by_cases hinteger : t.kind = TokenKind.integer.tag
  · rw [hinteger, if_pos rfl]
    rfl
  · by_cases hquoted : t.kind = TokenKind.quoted.tag
    · rw [hquoted]
      rfl
    · rw [if_neg hinteger, if_neg hquoted]
      by_cases hliteral : t.kind = TokenKind.literal.tag
      · rw [hliteral]
        rfl
      · by_cases hname : t.kind = TokenKind.name.tag
        · rw [hname]
          rfl
        · have hlookup : base.own.tokens.lookup t.kind = none := by
            rw [List.lookup_eq_none_iff]
            simp [base, new, RuleTable.rule, RuleTable.token, hinteger, hquoted,
              hliteral, hname]
          have hnone : base.resolveToken t.kind = none := by
            show ([base.own].findSome? _) = none
            simp [hlookup]
          rw [hnone]
          rfl

theorem tokenValue_eq_ok {layer : Layer} {t : Token} {v : Value}
    (h : (ofLayer layer).tokenValue t = .ok v) :
    (∃ name, v = .name name) ∨ ∃ n, v = .integer n := by
  rw [tokenValue_ofLayer] at h
  split at h
  · unfold TokenHandler.integer at h
    split at h
    · exact Or.inr ⟨_, (Except.ok.inj h).symm⟩
    · cases h
  · split at h
    · exact Or.inl ⟨_, (Except.ok.inj h).symm⟩
    · exact Or.inl ⟨_, (Except.ok.inj h).symm⟩

variable {ε : Type} [Reports ε]

def partValue (table : RuleTable ε) : Part → Except ε Value
  | .tree t => table.value t
  | .token t => table.tokenValue t
  | .absent => .ok .absent

variable {table : RuleTable ε}

theorem value_node_iff {rule : String} {parts : List Part} {span : Span}
    {v : Value} :
    table.value (.node rule parts span) = .ok v ↔
      ∃ vs, table.values parts = .ok vs ∧ table.ruleValue rule vs = .ok v := by
  rw [value]
  cases table.values parts with
  | error e => simp [bind, Except.bind]
  | ok vs => simp [bind, Except.bind]

theorem values_nil : table.values [] = .ok [] := by
  rw [values]

theorem values_cons (part : Part) (parts : List Part) :
    table.values (part :: parts) = do
      let v ← table.partValue part
      return v :: (← table.values parts) := by
  cases part <;> rw [values] <;> rfl

theorem values_cons_iff {part : Part} {parts : List Part} {vs : List Value} :
    table.values (part :: parts) = .ok vs ↔
      ∃ v rest, table.partValue part = .ok v ∧ table.values parts = .ok rest ∧
        vs = v :: rest := by
  rw [values_cons]
  cases table.partValue part with
  | error e => simp [bind, Except.bind]
  | ok v =>
      cases table.values parts with
      | error e => simp [bind, Except.bind]
      | ok rest => simp [bind, Except.bind, pure, Except.pure, eq_comm]

theorem assemble_eq_ok_iff {t : Tree} {f : Formula} :
    table.assemble t = .ok f ↔ table.value t = .ok (.formula f) := by
  unfold assemble
  cases table.value t with
  | error e => simp [bind, Except.bind]
  | ok v =>
      cases v <;> simp [bind, Except.bind, pure, Except.pure, throw, throwThe,
      MonadExceptOf.throw]

/-- A property of values that tokens have and every rule passes on holds of the
value of every tree. -/
theorem value_invariant {motive : Value → Prop}
    (token : ∀ t v, table.tokenValue t = .ok v → motive v)
    (absent : motive .absent)
    (rule : ∀ name vs v, (∀ w ∈ vs, motive w) → table.ruleValue name vs =
      .ok v → motive v) {t : Tree} {v : Value} (h : table.value t = .ok v) :
    motive v := by
  induction t using Tree.induct generalizing v with
  | node name parts span ih =>
      obtain ⟨vs, hvs, hv⟩ := value_node_iff.mp h
      refine rule name vs v ?_ hv
      clear hv h v
      -- The tree's hypothesis covers its parts, but their values come as a list
      -- of their own.
      induction parts generalizing vs with
      | nil =>
          rw [values_nil] at hvs
          obtain rfl := Except.ok.inj hvs
          simp
      | cons part parts ihparts =>
          obtain ⟨v, rest, hpart, hrest, rfl⟩ := values_cons_iff.mp hvs
          intro w hw
          rcases List.mem_cons.mp hw with rfl | hw
          · cases part with
            | tree t => exact ih t List.mem_cons_self hpart
            | token t => exact token t w hpart
            | absent => exact Except.ok.inj hpart ▸ absent
          · exact ihparts (fun t ht => ih t (List.mem_cons_of_mem _ ht)) rest
              hrest w hw

end RuleTable

end LayeredLogic
