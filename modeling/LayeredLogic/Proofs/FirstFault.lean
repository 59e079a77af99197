import LayeredLogic.Proofs.FirstFailure
import LayeredLogic.Proofs.Sorts

/-!
# What is wrong with a tree

The checks of a rule are listed in the order in which it makes them: a part of
the wrong kind, a negative step count, bounds that make no interval, too few
operands, no labels, and last of all parts that nothing takes.  A tree of any
shape fails with the first check of the first item in post-order, and with no
such check only because its root is no formula.
-/

namespace LayeredLogic

def Rule.kind : Rule → ValueKind
  | interval => .interval
  | graphList => .labels
  | _ => .formula

def Tree.kind (t : Tree) : ValueKind :=
  ((Rule.ofName? t.rule).map Rule.kind).getD .formula

def Part.kind : Part → ValueKind
  | tree t => t.kind
  | token t => if t.kind = TokenKind.integer.tag then .integer else .name
  | absent => .absent

/-! ## Checks of a rule -/

def errorOf? {ε α : Type} : Except ε α → Option ε
  | .ok _ => none
  | .error e => some e

inductive Check where
  | part (index : Nat) (expected : ValueKind)
  | steps
  | bounds
  | operands (k : Junction)
  | labels (direction : Direction)
  | count (n : Nat)

def Check.failure? (rule : String) (parts : List Part) :
    Check → Option AssemblyError
  | part index expected =>
      match parts[index]? with
      | none => some (.missingPart rule index expected)
      | some found =>
          if expected.accepts found.kind then none
          else some (.unexpectedPart rule index expected found.kind)
  | steps =>
      match (parts.getD 0 .absent).signed? with
      | none => none
      | some n => if n < 0 then some (.interval (.negativeBound n)) else none
  | bounds =>
      (errorOf? (Interval.ofSigned (parts.getD 0 .absent).signed?
        (parts.getD 1 .absent).signed?)).map .interval
  | operands k =>
      if parts.length < 2 then some (.formula (.tooFewOperands k parts.length))
        else none
  | labels direction =>
      if (parts.getD 0 .absent).parts.isEmpty then
        some (.formula (.emptyLabelSet direction))
      else none
  | count n =>
      if parts.length ≤ n then none else some (.trailingParts rule parts.length)

namespace Rule

def checks (rule : Rule) (count : Nat) : List Check :=
  match rule with
  | .variable | literal => [.part 0 .name, .count 1]
  | negation => [.part 0 .formula, .count 1]
  | conjunction => (List.range count).map (.part · .formula) ++ [.operands .and]
  | disjunction => (List.range count).map (.part · .formula) ++ [.operands .or]
  | implies | equiv | xor => [.part 0 .formula, .part 1 .formula, .count 2]
  | interval => [.part 0 .integer, .part 1 .integer, .bounds, .count 2]
  | next => [.part 0 .integer, .steps, .part 1 .formula, .count 2]
  | always | eventually | everywhere | somewhere | escape =>
      [.part 0 .interval, .part 1 .formula, .count 2]
  | .until | reach =>
      [.part 0 .formula, .part 1 .interval, .part 2 .formula, .count 3]
  | graphList => (List.range count).map (.part · .name)
  | graphIncoming =>
      [.part 0 .labels, .part 1 .interval, .part 2 .formula, .labels .incoming,
        .count 3]
  | graphOutgoing =>
      [.part 0 .labels, .part 1 .interval, .part 2 .formula, .labels .outgoing,
        .count 3]

def fault? (rule : Rule) (parts : List Part) : Option AssemblyError :=
  (rule.checks parts.length).findSome? (Check.failure? rule.name parts)

end Rule

/-- What is wrong with a token or a node, given that nothing is wrong with what
stands under it. -/
def Item.fault? (layer : Layer) : Item → Option AssemblyError
  | token t =>
      if t.kind = TokenKind.integer.tag then
        match Numeral.read t.text.toList with
        | .ok _ => none
        | .error reason => some (.invalidNumber t.text reason)
      else none
  | node name parts =>
      match Rule.ofName? name with
      | some rule =>
          if layer.includes rule.layer then rule.fault? parts
            else some (.unknownRule name layer)
      | none => some (.unknownRule name layer)

theorem Settles.eq_ok {ε α : Type} {result : Except ε α} {failure? : Option ε}
    {P : α → Prop} (h : Settles result failure? P) :
    Settles result failure? fun a => result = .ok a := by
  cases failure? with
  | some e => exact h
  | none =>
      obtain ⟨a, ha, -⟩ := h
      exact ⟨a, ha, ha⟩

section

variable {layer : Layer}

theorem Rule.Makes.kind_eq {rule : Rule} {vs : List Value} {v : Value}
    (h : rule.Makes vs v) : v.kind = rule.kind := by
  cases h with
  | junction k => cases k <;> rfl
  | derived c => cases c <;> rfl
  | unary rule modality hknown => cases rule <;> cases hknown <;> rfl
  | binary rule modality hknown => cases rule <;> cases hknown <;> rfl
  | graph direction => cases direction <;> rfl
  | _ => rfl

theorem Tree.Means.kind_eq {t : Tree} {v : Value} (h : t.Means layer v) :
    v.kind = t.kind := by
  obtain ⟨name, parts, span⟩ := t
  obtain ⟨rule, vs, rfl, -, hmakes, -⟩ := Tree.means_node_iff.mp h
  rw [Tree.kind, Tree.rule, Rule.ofName?_name]
  exact hmakes.kind_eq

theorem Part.Means.kind_eq {part : Part} {v : Value}
    (h : Part.Means layer v part) : v.kind = part.kind := by
  cases part with
  | tree t => exact Tree.Means.kind_eq h
  | token t =>
      rcases Part.means_token_iff.mp h with ⟨ht, rfl⟩ | ⟨n, hn, rfl⟩
      · exact (if_neg ht).symm
      · exact (if_pos hn.1).symm
  | absent =>
      obtain rfl := Except.ok.inj h
      rfl

end

/-! ## Taking arguments -/

namespace Args

variable {α β : Type}

def outcome (take : Take α) (args : Args) : Except AssemblyError (α × Args) :=
  match run take args with
  | (.ok a, rest) => .ok (a, rest)
  | (.error e, _) => .error e

private theorem outcome_bind (take : Take α) (next : α → Take β) (args : Args) :
    outcome (take >>= next) args = outcome take args >>= fun r =>
      outcome (next r.1) r.2 := by
  unfold outcome
  rw [run_bind]
  rcases run take args with ⟨_ | _, _⟩ <;> rfl

private theorem outcome_nextAs_cons (expected : ValueKind)
    (read? : Value → Option α) (rule : String) (value : Value)
    (values : List Value) (n : Nat) :
    outcome (nextAs expected read?) ⟨rule, value :: values, n⟩ =
      match read? value with
      | some a => .ok (a, ⟨rule, values, n + 1⟩)
      | none => .error (.unexpectedPart rule n expected value.kind) := by
  have hrun : run (nextAs expected read?) ⟨rule, value :: values, n⟩ =
      run (match read? value with
        | some a => pure a
        | none => throw (.unexpectedPart rule n expected value.kind)) ⟨rule,
            values, n + 1⟩ := rfl
  unfold outcome
  rw [hrun]
  cases read? value <;> rfl

private theorem consume_eq_outcome (take : Take α) (rule : String)
    (values : List Value) :
    consume take rule values =
      outcome take ⟨rule, values, 0⟩ >>= fun r =>
        r.2.finish.map fun _ => r.1 := by
  rw [consume_eq]
  unfold outcome
  rcases run take ⟨rule, values, 0⟩ with ⟨_ | _, _⟩ <;> rfl

end Args

structure ValuedRow (layer : Layer) where
  rule : String
  parts : List Part
  values : List Value
  means : List.Forall₂ (Part.Means layer) values parts

namespace ValuedRow

open Args

variable {layer : Layer} {row : ValuedRow layer} {α β : Type} {take : Take α}
  {n m l : Nat} {checks checks' : List Check} {P : α → Prop} {R : β → Prop}

def args (row : ValuedRow layer) (n : Nat) : Args :=
  ⟨row.rule, row.values.drop n, n⟩

/-- Taking from one index to another fails with the first of the checks that
fails, and otherwise it gives a value with the property. -/
def Passes (row : ValuedRow layer) (take : Take α) (n : Nat)
    (checks : List Check) (m : Nat) (P : α → Prop) : Prop :=
  Settles (outcome take (row.args n))
    (checks.findSome? (Check.failure? row.rule row.parts))
    fun r => r.2 = row.args m ∧ P r.1

theorem passes_pure {a : α} (ha : P a) : row.Passes (pure a) n [] n P :=
  ⟨(a, row.args n), rfl, rfl, ha⟩

theorem Passes.bind {next : α → Take β} (h : row.Passes take n checks m P)
    (hnext : ∀ a, P a → row.Passes (next a) m checks' l R) :
    row.Passes (take >>= next) n (checks ++ checks') l R := by
  unfold Passes
  rw [outcome_bind, List.findSome?_append]
  refine Settles.bind h ?_
  rintro ⟨a, _⟩ ⟨rfl, ha⟩
  exact hnext a ha

theorem length_values (row : ValuedRow layer) :
    row.values.length = row.parts.length :=
  row.means.length_eq

private theorem passes_nextAs {expected : ValueKind} {read? : Value → Option α}
    (hread : ∀ v, (read? v).isSome = expected.accepts v.kind) (n : Nat) :
    row.Passes (nextAs expected read?) n [.part n expected] (n + 1) fun a =>
      ∃ v, Part.Means layer v (row.parts.getD n .absent) ∧
      read? v = some a := by
  unfold Passes
  rw [List.findSome?_singleton]
  cases hv : row.values[n]? with
  | none =>
      have hlength : row.values.length ≤ n := List.getElem?_eq_none_iff.mp hv
      have hpart : row.parts[n]? = none :=
        List.getElem?_eq_none_iff.mpr (row.length_values ▸ hlength)
      have hargs : row.args n = ⟨row.rule, [], n⟩ := by
        rw [args, List.drop_eq_nil_of_le hlength]
      simp only [Check.failure?, hpart, hargs]
      rfl
  | some v =>
      obtain ⟨hn, hget⟩ := List.getElem?_eq_some_iff.mp hv
      have hargs :
          row.args n = ⟨row.rule, v :: row.values.drop (n + 1), n⟩ := by
        rw [args, List.drop_eq_getElem_cons hn, hget]
      have hn' : n < row.parts.length := row.length_values ▸ hn
      have hmeans : Part.Means layer v row.parts[n] :=
        hget ▸ row.means.get hn hn'
      have hpart : row.parts[n]? = some row.parts[n] :=
        List.getElem?_eq_getElem hn'
      have hdefault : row.parts.getD n .absent = row.parts[n] := by
        rw [List.getD_eq_getElem?_getD, hpart]
        rfl
      have hkind := hread v
      rw [hargs, outcome_nextAs_cons, hdefault]
      simp only [Check.failure?, hpart, ← Part.Means.kind_eq hmeans, ← hkind]
      cases ha : read? v with
      | none => rfl
      | some a => exact ⟨_, rfl, rfl, v, hmeans, ha⟩

theorem passes_nextAs_bind {expected : ValueKind} {read? : Value → Option α}
    (hread : ∀ v, (read? v).isSome = expected.accepts v.kind)
    {next : α → Take β}
    (hnext : ∀ a v, Part.Means layer v (row.parts.getD n .absent) →
      read? v = some a → row.Passes (next a) (n + 1) checks m R) :
    row.Passes (nextAs expected read? >>= next) n (.part n expected :: checks)
      m R :=
  (passes_nextAs hread n).bind fun a ⟨v, hv, ha⟩ => hnext a v hv ha

private theorem passes_times {expected : ValueKind} {read? : Value → Option α}
    (hread : ∀ v, (read? v).isSome = expected.accepts v.kind) (k n : Nat) :
    row.Passes (times (nextAs expected read?) k) n
      ((List.range' n k).map (.part · expected))
      (n + k) fun as => as.length = k := by
  induction k generalizing n with
  | zero => exact passes_pure rfl
  | succ k ih =>
      have hend : n + (k + 1) = n + 1 + k := by omega
      rw [List.range'_succ, List.map_cons, hend]
      refine passes_nextAs_bind hread fun a v _ _ => ?_
      rw [← List.append_nil (List.map _ _)]
      refine (ih (n + 1)).bind fun as has => ?_
      exact passes_pure (by rw [List.length_cons, has])

theorem passes_rest {expected : ValueKind} {read? : Value → Option α}
    (hread : ∀ v, (read? v).isSome = expected.accepts v.kind) :
    row.Passes (rest (nextAs expected read?)) 0
      ((List.range row.parts.length).map (.part · expected)) row.parts.length
      fun as => as.length = row.parts.length := by
  have hget : row.Passes get 0 [] 0 (· = row.args 0) :=
    ⟨(row.args 0, row.args 0), rfl, rfl, rfl⟩
  have hlength : (row.args 0).values.length = row.parts.length :=
    row.length_values
  refine hget.bind fun args hargs => ?_
  rw [hargs, hlength, List.range_eq_range']
  have htimes : row.Passes _ 0 _ _ _ := passes_times hread row.parts.length 0
  rwa [Nat.zero_add] at htimes

theorem passes_of_result {ε : Type} (inject : ε → AssemblyError)
    {result : Except ε α} {c : Check}
    (hc : c.failure? row.rule row.parts = (errorOf? result).map inject)
    (htake :
      ∀ args, outcome take args = (result.map (·, args)).mapError inject) :
    row.Passes take n [c] n fun _ => True := by
  unfold Passes
  rw [List.findSome?_singleton, hc, htake]
  cases result with
  | error e => rfl
  | ok a => exact ⟨(a, row.args n), rfl, rfl, trivial⟩

theorem passes_liftInterval {c : Check} {result : Except IntervalError α}
    (hc : c.failure? row.rule row.parts = (errorOf? result).map .interval) :
    row.Passes (Handler.liftInterval result) n [c] n fun _ => True :=
  passes_of_result .interval hc fun args => by cases result <;> rfl

theorem passes_liftFormula {c : Check} {result : Except FormulaError α}
    (hc : c.failure? row.rule row.parts = (errorOf? result).map .formula) :
    row.Passes (Handler.liftFormula result) n [c] n fun _ => True :=
  passes_of_result .formula hc fun args => by cases result <;> rfl

private theorem settles_finish (row : ValuedRow layer) (n : Nat) :
    Settles (row.args n).finish ((Check.count n).failure? row.rule row.parts)
      fun _ => True := by
  by_cases hlength : row.parts.length ≤ n
  · have hempty : row.values.drop n = [] :=
      List.drop_eq_nil_of_le (row.length_values ▸ hlength)
    rw [Check.failure?, if_pos hlength, args, finish, hempty]
    exact ⟨(), rfl, trivial⟩
  · have hleft : (row.values.drop n).isEmpty = false := by
      rw [List.isEmpty_eq_false_iff, ne_eq, List.drop_eq_nil_iff,
        row.length_values]
      exact hlength
    have hcount : n + (row.values.drop n).length = row.parts.length := by
      rw [List.length_drop, row.length_values]
      omega
    rw [Check.failure?, if_neg hlength, args, finish, hleft, hcount]
    rfl

theorem settles_consume (h : row.Passes take 0 checks n P) :
    Settles (consume take row.rule row.values)
      ((checks ++ [Check.count n]).findSome?
        (Check.failure? row.rule row.parts))
      fun _ => True := by
  rw [consume_eq_outcome, List.findSome?_append, List.findSome?_singleton]
  refine Settles.bind h ?_
  rintro ⟨a, _⟩ ⟨rfl, -⟩
  exact (row.settles_finish n).map (R := fun _ => True) fun _ _ => trivial

theorem settles_consume_rest (h : row.Passes take 0 checks row.parts.length P) :
    Settles (consume take row.rule row.values)
      (checks.findSome? (Check.failure? row.rule row.parts)) fun _ => True := by
  have hcount : (Check.count row.parts.length).failure? row.rule row.parts =
      none :=
    if_pos (Nat.le_refl _)
  have hconsume := settles_consume h
  rwa [List.findSome?_append, List.findSome?_singleton, hcount, Option.or_none]
    at hconsume

/-! ## Handlers -/

theorem isSome_formula? (v : Value) :
    v.formula?.isSome = ValueKind.formula.accepts v.kind := by
  cases v <;> rfl

private theorem isSome_interval? (v : Value) :
    v.interval?.isSome = ValueKind.interval.accepts v.kind := by
  cases v <;> rfl

private theorem isSome_integer? (v : Value) :
    v.integer?.isSome = ValueKind.integer.accepts v.kind := by
  cases v <;> rfl

theorem isSome_name? (v : Value) :
    v.name?.isSome = ValueKind.name.accepts v.kind := by
  cases v <;> rfl

private theorem isSome_labels? (v : Value) :
    v.labels?.isSome = ValueKind.labels.accepts v.kind := by
  cases v <;> rfl

section

variable {f : Formula → Take β} {g : Option Interval → Take β}

theorem passes_formula (h : ∀ a, row.Passes (f a) (n + 1) checks m R) :
    row.Passes (Args.formula >>= f) n (.part n .formula :: checks) m R :=
  passes_nextAs_bind isSome_formula? fun a _ _ _ => h a

theorem passes_interval (h : ∀ i, row.Passes (g i) (n + 1) checks m R) :
    row.Passes (Args.interval >>= g) n (.part n .interval :: checks) m R :=
  passes_nextAs_bind isSome_interval? fun i _ _ _ => h i

theorem passes_name {f : String → Take β}
    (h : ∀ s, row.Passes (f s) (n + 1) checks m R) :
    row.Passes (Args.name >>= f) n (.part n .name :: checks) m R :=
  passes_nextAs_bind isSome_name? fun s _ _ _ => h s

theorem passes_integer {f : Option Int64 → Take β}
    (h : row.Passes (f (row.parts.getD n .absent).signed?) (n + 1) checks m R) :
    row.Passes (Args.integer >>= f) n (.part n .integer :: checks) m R := by
  refine passes_nextAs_bind isSome_integer? fun i v hv hi => ?_
  obtain rfl := Value.integer?_eq_some_iff.mp hi
  rwa [(Part.means_bound_iff.mp hv).signed?_eq] at h

private theorem passes_labels {f : LabelSet → Take β}
    (h : ∀ ls, ls.isEmpty = (row.parts.getD n .absent).parts.isEmpty →
      row.Passes (f ls) (n + 1) checks m R) :
    row.Passes (Args.labels >>= f) n (.part n .labels :: checks) m R := by
  refine passes_nextAs_bind isSome_labels? fun ls v hv hls => h ls ?_
  obtain rfl := Value.labels?_eq_some_iff.mp hls
  obtain ⟨t, ht, hmeans⟩ := (Part.means_iff_of_isMade (.inr (.inr rfl))).mp hv
  rw [ht]
  exact (Tree.means_labels_iff.mp hmeans).2.isEmpty_eq

end

theorem passes_value (v : Value) : row.Passes (pure v) n [] n fun _ => True :=
  passes_pure trivial

private theorem passes_negation :
    row.Passes Handler.negation 0 [.part 0 .formula] 1 fun _ => True :=
  passes_formula fun a => passes_value (.formula a.neg)

theorem passes_derived (c : Connective) :
    row.Passes (Handler.derived c) 0 [.part 0 .formula, .part 1 .formula] 2
      fun _ => True :=
  passes_formula fun a =>
    passes_formula fun b => passes_value (.formula (.derived c a b))

private theorem passes_atom :
    row.Passes Handler.atom 0 [.part 0 .name] 1 fun _ => True :=
  passes_name fun s => passes_value (.formula (.var s))

private theorem passes_literal :
    row.Passes Handler.literal 0 [.part 0 .name] 1 fun _ => True :=
  passes_name fun s =>
    passes_value (.formula (.literal (Handler.trueSpellings.contains s)))

theorem passes_unary (modality : Option Interval → UnaryModality) :
    row.Passes (Handler.unary modality) 0
      [.part 0 .interval, .part 1 .formula] 2
      fun _ => True :=
  passes_interval fun i =>
    passes_formula fun a => passes_value (.formula (.unary (modality i) a))

theorem passes_binary (modality : Option Interval → BinaryModality) :
    row.Passes (Handler.binary modality) 0
      [.part 0 .formula, .part 1 .interval, .part 2 .formula] 3 fun _ => True :=
  passes_formula fun a => passes_interval fun i => passes_formula fun b =>
    passes_value (.formula (.binary (modality i) a b))

theorem passes_junction (k : Junction) :
    row.Passes (Handler.junction k) 0
      ((List.range row.parts.length).map (.part · .formula) ++ [.operands k])
        row.parts.length
      fun _ => True := by
  refine (passes_rest isSome_formula?).bind fun args hargs => ?_
  refine (passes_liftFormula ?_).bind fun f _ => passes_value (.formula f)
  rw [Formula.join?, hargs, Check.failure?]
  split <;> rfl

private theorem passes_intervalRule :
    row.Passes Handler.interval 0
      [.part 0 .integer, .part 1 .integer, .bounds] 2
      fun _ => True := by
  refine passes_integer (passes_integer ?_)
  exact (passes_liftInterval rfl).bind fun i _ => passes_value (.interval i)

private theorem passes_next :
    row.Passes Handler.next 0 [.part 0 .integer, .steps, .part 1 .formula] 2
      fun _ => True := by
  refine passes_integer ?_
  refine (passes_liftInterval ?_).bind fun steps _ => ?_
  · rw [Check.failure?]
    cases (row.parts.getD 0 .absent).signed? with
    | none => rfl
    | some n =>
        have hread : readBound? (some n) = some <$> readBound n := rfl
        rw [hread, readBound]
        by_cases hn : n < 0 <;> simp [hn, Functor.map, Except.map, errorOf?]
  · exact passes_formula fun a =>
      passes_value (.formula (.unary (.next steps) a))

private theorem passes_graphList :
    row.Passes Handler.graphList 0
      ((List.range row.parts.length).map (.part · .name))
      row.parts.length fun _ => True := by
  rw [← List.append_nil (List.map _ _)]
  exact (passes_rest isSome_name?).bind fun names _ =>
    passes_value (.labels (.ofList names))

theorem passes_graph (direction : Direction) :
    row.Passes (Handler.graph direction) 0
      [.part 0 .labels, .part 1 .interval, .part 2 .formula,
        .labels direction] 3
      fun _ => True := by
  refine passes_labels fun ls hls =>
    passes_interval fun i => passes_formula fun a => ?_
  refine (passes_liftFormula ?_).bind fun f _ => passes_value (.formula f)
  rw [Formula.graph?, hls, Check.failure?]
  split <;> rfl

end ValuedRow

/-- A rule fails with the first of its checks that fails, and it fails with
nothing else. -/
theorem Rule.settles_consume {layer : Layer} (rule : Rule) {parts : List Part}
    {vs : List Value} (h : List.Forall₂ (Part.Means layer) vs parts) :
    Settles (Args.consume rule.handler rule.name vs) (rule.fault? parts)
      fun _ => True := by
  let row : ValuedRow layer := ⟨rule.name, parts, vs, h⟩
  cases rule with
  | negation => exact row.settles_consume ValuedRow.passes_negation
  | conjunction =>
      exact row.settles_consume_rest (ValuedRow.passes_junction .and)
  | disjunction =>
      exact row.settles_consume_rest (ValuedRow.passes_junction .or)
  | implies => exact row.settles_consume (ValuedRow.passes_derived .implies)
  | equiv => exact row.settles_consume (ValuedRow.passes_derived .equiv)
  | xor => exact row.settles_consume (ValuedRow.passes_derived .xor)
  | «variable» => exact row.settles_consume ValuedRow.passes_atom
  | literal => exact row.settles_consume ValuedRow.passes_literal
  | interval => exact row.settles_consume ValuedRow.passes_intervalRule
  | next => exact row.settles_consume ValuedRow.passes_next
  | always => exact row.settles_consume (ValuedRow.passes_unary .always)
  | eventually => exact row.settles_consume (ValuedRow.passes_unary .eventually)
  | «until» => exact row.settles_consume (ValuedRow.passes_binary .until)
  | everywhere => exact row.settles_consume (ValuedRow.passes_unary .everywhere)
  | somewhere => exact row.settles_consume (ValuedRow.passes_unary .somewhere)
  | escape => exact row.settles_consume (ValuedRow.passes_unary .escape)
  | reach => exact row.settles_consume (ValuedRow.passes_binary .reach)
  | graphList => exact row.settles_consume_rest ValuedRow.passes_graphList
  | graphIncoming =>
      exact row.settles_consume (ValuedRow.passes_graph .incoming)
  | graphOutgoing =>
      exact row.settles_consume (ValuedRow.passes_graph .outgoing)

/-! ## Trees -/

namespace RuleTable

variable {layer : Layer}

private theorem settles_token (t : Token) :
    Settles ((ofLayer layer).tokenValue t) ((Item.token t).fault? layer)
      fun _ => True := by
  rw [tokenValue_ofLayer, Item.fault?]
  by_cases hkind : t.kind = TokenKind.integer.tag
  · rw [if_pos hkind, if_pos hkind, TokenHandler.integer]
    cases Numeral.read t.text.toList with
    | error reason => rfl
    | ok n => exact ⟨_, rfl, trivial⟩
  · rw [if_neg hkind, if_neg hkind]
    split <;> exact ⟨_, rfl, trivial⟩

private theorem resolve_eq_none {name : String} (h : Rule.ofName? name = none) :
    (ofLayer layer).resolve name = none := by
  rw [Option.eq_none_iff_forall_ne_some]
  intro found hfound
  obtain ⟨rule, rfl⟩ :=
    exists_rule_of_mem_ruleNames (mem_ruleNames_of_resolve hfound)
  rw [Rule.ofName?_name] at h
  cases h

private theorem settles_ruleValue (name : String) {parts : List Part}
    {vs : List Value} (h : List.Forall₂ (Part.Means layer) vs parts) :
    Settles ((ofLayer layer).ruleValue name vs)
      ((Item.node name parts).fault? layer)
      fun _ => True := by
  have hlayer : (ofLayer layer).layer = layer := by cases layer <;> rfl
  rw [Item.fault?]
  cases hrule : Rule.ofName? name with
  | none =>
      rw [ruleValue, resolve_eq_none hrule, hlayer]
      rfl
  | some rule =>
      obtain rfl := Rule.name_of_ofName? hrule
      rw [ruleValue, resolve_rule, hlayer]
      dsimp only
      by_cases hincluded : layer.includes rule.layer = true
      · rw [if_pos hincluded, if_pos hincluded]
        exact rule.settles_consume h
      · rw [if_neg hincluded, if_neg hincluded]
        rfl

private theorem settles_values_of_trees {parts : List Part}
    (h : ∀ t, .tree t ∈ parts →
      Settles ((ofLayer layer).value t)
        (t.postorder.findSome? (Item.fault? layer)) fun _ => True) :
    Settles ((ofLayer layer).values parts)
      ((Tree.postorderOfParts parts).findSome? (Item.fault? layer)) fun _ =>
        True := by
  induction parts with
  | nil => exact ⟨[], values_nil, trivial⟩
  | cons part parts ih =>
      have hparts := ih fun t ht => h t (List.mem_cons_of_mem _ ht)
      rw [values_cons]
      cases part with
      | tree t =>
          rw [Tree.postorderOfParts, List.findSome?_append]
          exact (h t List.mem_cons_self).bind fun v _ =>
            hparts.map fun _ _ => trivial
      | token t =>
          rw [Tree.postorderOfParts, ← List.singleton_append,
            List.findSome?_append, List.findSome?_singleton]
          exact (settles_token t).bind fun v _ => hparts.map fun _ _ => trivial
      | absent =>
          rw [Tree.postorderOfParts]
          exact hparts.map fun _ _ => trivial

private theorem settles_value (t : Tree) :
    Settles ((ofLayer layer).value t)
      (t.postorder.findSome? (Item.fault? layer))
      fun _ => True := by
  induction t using Tree.induct with
  | node name parts span ih =>
      rw [value, Tree.postorder, List.findSome?_append,
        List.findSome?_singleton]
      refine (settles_values_of_trees ih).eq_ok.bind fun vs hvs => ?_
      exact settles_ruleValue name (values_ofLayer_iff.mp hvs)

def notAFormula? (t : Tree) : Option AssemblyError :=
  if t.kind = .formula then none else some (.notAFormula t.rule t.kind)

private theorem settles_assemble_tree (t : Tree) :
    Settles ((ofLayer layer).assemble t)
      ((t.postorder.findSome? (Item.fault? layer)).or (notAFormula? t)) fun _ =>
        True := by
  refine (settles_value t).eq_ok.bind fun v hv => ?_
  have hkind : v.kind = t.kind := Tree.Means.kind_eq hv
  rw [notAFormula?, ← hkind]
  cases v with
  | formula f => exact ⟨f, rfl, trivial⟩
  | _ => rfl

/-- A layer's table assembles exactly the trees of the sort of formulas.  Any
other tree fails with what is wrong with the first token or node in post-order
that something is wrong with, and if that is none of them, because what its root
gives is no formula. -/
theorem assemble_eq_of_sort (layer : Layer) (t : Tree) :
    ((∃ f, (ofLayer layer).assemble t = .ok f) ↔ t.HasSort layer .formula) ∧
      ∀ e, (ofLayer layer).assemble t = .error e ↔
        (∃ before item after, t.postorder = before ++ item :: after ∧
          (∀ i ∈ before, i.fault? layer = none) ∧ item.fault? layer = some e) ∨
        ((∀ i ∈ t.postorder, i.fault? layer = none) ∧ t.kind ≠ .formula ∧
          e = .notAFormula t.rule t.kind) := by
  refine ⟨exists_assemble_iff_hasSort, fun e => ?_⟩
  have hroot : notAFormula? t = some e ↔
      t.kind ≠ .formula ∧ e = .notAFormula t.rule t.kind := by
    simp [notAFormula?, eq_comm]
  rw [(settles_assemble_tree t).error_iff, Option.or_eq_some_iff,
    List.findSome?_eq_some_iff, List.findSome?_eq_none_iff, hroot]
  constructor
  · rintro (⟨before, item, after, hitems, hitem, hbefore⟩ | h)
    · exact .inl ⟨before, item, after, hitems, hbefore, hitem⟩
    · exact .inr h
  · rintro (⟨before, item, after, hitems, hbefore, hitem⟩ | h)
    · exact .inl ⟨before, item, after, hitems, hitem, hbefore⟩
    · exact .inr h

/-- The chain has no operands, and that is found before the negative step count
of its parent. -/
example : (ofLayer .ltl).assemble (.node "next" [.token ⟨"INT", "-1", ⟨0, 2⟩⟩,
    .tree (.node "mul" [] ⟨2, 2⟩)] ⟨0, 2⟩) =
      .error (.formula (.tooFewOperands .and 0)) := by
  decide +kernel

end RuleTable

end LayeredLogic
