import LayeredLogic.Proofs.Assembled
import LayeredLogic.Proofs.Built
import LayeredLogic.Proofs.Grammatical
import LayeredLogic.Proofs.Written

/-!
# What the assembly of a tree fails with

The nodes and tokens of a tree are visited in post-order, and each of them is
given a failure of its own, if it has one, in terms of the numbers that stand in
the text.  A tree that is read from a text is assembled to a formula unless it
has such a failure, and then it fails with the first of them.
-/

namespace LayeredLogic

/-! ## Numbers of a text -/

namespace Numeral

def value : List Char → Int
  | '-' :: ds => -(Nat.ofDigitChars 10 ds 0 : Int)
  | ds => Nat.ofDigitChars 10 ds 0

variable {limit : Nat} {overflow : NumeralError} {ds : List Char}

private theorem le_ofDigitChars (ds : List Char) (n : Nat) :
    n ≤ Nat.ofDigitChars 10 ds n := by
  induction ds generalizing n with
  | nil => exact Nat.le_refl n
  | cons d ds ih =>
      have hstep := ih (10 * n + (d.toNat - '0'.toNat))
      rw [Nat.ofDigitChars_cons]
      omega

/-- Reading goes on as long as the value stays in range, and it never comes back
into range. -/
private theorem readDigits_eq (hdigits : ∀ d ∈ ds, d.isDigit = true) {n : Nat}
    (hn : n ≤ limit) :
    readDigits limit overflow n ds =
      if Nat.ofDigitChars 10 ds n ≤ limit then .ok (Nat.ofDigitChars 10 ds n)
      else .error overflow := by
  induction ds generalizing n with
  | nil =>
      rw [Nat.ofDigitChars_nil, if_pos hn]
      rfl
  | cons d ds ih =>
      obtain ⟨hd, hds⟩ := List.forall_mem_cons.mp hdigits
      have hdigit : digit? d = some (d.toNat - '0'.toNat) := if_pos hd
      simp only [readDigits, hdigit, Nat.ofDigitChars_cons, Nat.mul_comm n]
      split
      · rename_i hlimit
        exact ih hds hlimit
      · rename_i hlimit
        have hle := le_ofDigitChars ds (10 * n + (d.toNat - '0'.toNat))
        rw [if_neg (by omega)]

private theorem readMagnitude_eq (hne : ds ≠ [])
    (hdigits : ∀ d ∈ ds, d.isDigit = true) :
    readMagnitude limit overflow ds =
      if Nat.ofDigitChars 10 ds 0 ≤ limit then .ok (Nat.ofDigitChars 10 ds 0)
      else .error overflow := by
  cases ds with
  | nil => exact absurd rfl hne
  | cons d ds => exact readDigits_eq hdigits (Nat.zero_le limit)

end Numeral

def FitsInt64 (n : Int) : Prop :=
  -0x8000000000000000 ≤ n ∧ n < 0x8000000000000000

instance (n : Int) : Decidable (FitsInt64 n) :=
  inferInstanceAs (Decidable (-0x8000000000000000 ≤ n ∧ n < 0x8000000000000000))

namespace Numeral

theorem value_of_digits (hdigits : ∀ d ∈ ds, d.isDigit = true) :
    value ds = Nat.ofDigitChars 10 ds 0 := by
  unfold value
  split
  · have hsign := hdigits '-' List.mem_cons_self
    cases hsign
  · rfl

private theorem read_of_digits (hne : ds ≠ [])
    (hdigits : ∀ d ∈ ds, d.isDigit = true) :
    read ds = do
      let n ← readMagnitude (signedLimit - 1) .tooLarge ds
      return Int64.ofInt n := by
  unfold read
  split
  · exact absurd rfl hne
  · have hsign := hdigits '-' List.mem_cons_self
    cases hsign
  · have hsign := hdigits '+' List.mem_cons_self
    cases hsign
  · rfl

private theorem read_eq {cs : List Char} (h : IsNumeral cs) :
    read cs = if FitsInt64 (value cs) then .ok (Int64.ofInt (value cs))
      else .error (if value cs < 0 then .tooSmall else .tooLarge) := by
  obtain ⟨ds, hcs, hne, hdigits⟩ := h
  have hmagnitude : ∀ limit overflow, readMagnitude limit overflow ds = _ :=
    fun _ _ => readMagnitude_eq hne hdigits
  rcases hcs with rfl | rfl
  · rw [value_of_digits hdigits, read_of_digits hne hdigits, hmagnitude]
    by_cases hlimit : Nat.ofDigitChars 10 cs 0 ≤ signedLimit - 1
    · have hfits : FitsInt64 (Nat.ofDigitChars 10 cs 0) := by
        unfold FitsInt64 signedLimit at *
        omega
      rw [if_pos hlimit, if_pos hfits]
      rfl
    · have hfits : ¬ FitsInt64 (Nat.ofDigitChars 10 cs 0) := by
        unfold FitsInt64 signedLimit at *
        omega
      rw [if_neg hlimit, if_neg hfits, if_neg (by omega)]
      rfl
  · have hread : read ('-' :: ds) = do
        let n ← readMagnitude signedLimit .tooSmall ds
        return Int64.ofInt (-n) := rfl
    have hvalue : value ('-' :: ds) = -(Nat.ofDigitChars 10 ds 0 : Int) := rfl
    rw [hread, hvalue, hmagnitude]
    by_cases hlimit : Nat.ofDigitChars 10 ds 0 ≤ signedLimit
    · have hfits : FitsInt64 (-(Nat.ofDigitChars 10 ds 0 : Int)) := by
        unfold FitsInt64 signedLimit at *
        omega
      rw [if_pos hlimit, if_pos hfits]
      rfl
    · have hfits : ¬ FitsInt64 (-(Nat.ofDigitChars 10 ds 0 : Int)) := by
        unfold FitsInt64 signedLimit at *
        omega
      rw [if_neg hlimit, if_neg hfits,
        if_pos (by unfold signedLimit at hlimit; omega)]
      rfl

end Numeral

/-! ## Failures of nodes and tokens -/

namespace Interval

def negative? (bound : Option Int) : Option IntervalError :=
  (bound.filter (· < 0)).map fun n => .negativeBound (Int64.ofInt n)

def boundOf (n : Int) : UInt64 := UInt64.ofNat n.toNat

def disorder? : Option Int → Option Int → Option IntervalError
  | some start, some stop =>
      if start < stop then none
      else if start = stop then some (.point (boundOf start))
      else some (.reversed (boundOf start) (boundOf stop))
  | _, _ => none

def failure? (start stop : Option Int) : Option IntervalError :=
  (negative? start).or ((negative? stop).or (disorder? start stop))

end Interval

namespace Token

def number (t : Token) : Int := Numeral.value t.text.toList

def failure? (t : Token) : Option AssemblyError :=
  if t.kind = TokenKind.integer.tag ∧ ¬ FitsInt64 t.number then
    some (.invalidNumber t.text (if t.number < 0 then .tooSmall else .tooLarge))
  else none

end Token

def Part.number? : Part → Option Int
  | token t => some t.number
  | tree _ | absent => none

inductive Item where
  | token (token : Token)
  | node (rule : String) (parts : List Part)

namespace Item

/-- What is wrong with an item, as long as nothing is wrong with the items below
it.  A step count is checked like a bound. -/
def failure? : Item → Option AssemblyError
  | token t => t.failure?
  | node rule [start, stop] =>
      if rule = Rule.interval.name then
        (Interval.failure? start.number? stop.number?).map .interval
      else if rule = Rule.next.name then
        (Interval.negative? start.number?).map .interval
      else none
  | node _ _ => none

theorem failure?_of_ne {rule : Rule} (hinterval : rule ≠ .interval)
    (hnext : rule ≠ .next) (parts : List Part) :
    (node rule.name parts).failure? = none := by
  have hnames : rule.name ≠ Rule.interval.name ∧ rule.name ≠ Rule.next.name :=
    ⟨Rule.name_ne hinterval, Rule.name_ne hnext⟩
  unfold failure?
  split
  · contradiction
  · rename_i heq
    cases heq
    rw [if_neg hnames.1, if_neg hnames.2]
  · rfl

end Item

namespace Tree

mutual

/-- The items of a tree, the parts from left to right and the node itself after
them. -/
def postorder : Tree → List Item
  | node rule parts _ => postorderOfParts parts ++ [.node rule parts]

def postorderOfParts : List Part → List Item
  | [] => []
  | .tree t :: rest => t.postorder ++ postorderOfParts rest
  | .token t :: rest => .token t :: postorderOfParts rest
  | .absent :: rest => postorderOfParts rest

end

def firstFailure? (t : Tree) : Option AssemblyError :=
  t.postorder.findSome? Item.failure?

end Tree

namespace Part

def firstFailure? : Part → Option AssemblyError
  | tree t => t.firstFailure?
  | token t => t.failure?
  | absent => none

def firstFailureOf? (parts : List Part) : Option AssemblyError :=
  (Tree.postorderOfParts parts).findSome? Item.failure?

theorem firstFailureOf?_cons (part : Part) (parts : List Part) :
    firstFailureOf? (part :: parts) =
      part.firstFailure?.or (firstFailureOf? parts) := by
  cases part with
  | tree t =>
      rw [firstFailureOf?, Tree.postorderOfParts, List.findSome?_append]
      rfl
  | token t =>
      rw [firstFailureOf?, Tree.postorderOfParts, List.findSome?_cons]
      cases h : t.failure? <;>
        simp [Item.failure?, firstFailure?, firstFailureOf?, h]
  | absent => rfl

end Part

theorem Tree.firstFailure?_node (rule : String) (parts : List Part)
    (span : Span) :
    (node rule parts span).firstFailure? =
      (Part.firstFailureOf? parts).or (Item.node rule parts).failure? := by
  rw [firstFailure?, postorder, List.findSome?_append, List.findSome?_singleton]
  rfl

/-! ## Settling -/

/-- The result is the failure if there is one and a value with the property
otherwise. -/
def Settles {ε α : Type} (result : Except ε α) (failure? : Option ε)
    (P : α → Prop) : Prop :=
  match failure? with
  | some e => result = .error e
  | none => ∃ a, result = .ok a ∧ P a

namespace Settles

variable {ε ε' α β : Type} {result : Except ε α} {failure? after? : Option ε}
  {P Q : α → Prop} {R : β → Prop}

theorem bind {next : α → Except ε β} (h : Settles result failure? P)
    (hnext : ∀ a, P a → Settles (next a) after? R) :
    Settles (result >>= next) (failure?.or after?) R := by
  cases failure? with
  | some e =>
      obtain rfl : result = .error e := h
      rfl
  | none =>
      obtain ⟨a, rfl, ha⟩ := h
      exact hnext a ha

theorem mono (h : Settles result failure? P) (hPQ : ∀ a, P a → Q a) :
    Settles result failure? Q := by
  cases failure? with
  | some e => exact h
  | none =>
      obtain ⟨a, hresult, ha⟩ := h
      exact ⟨a, hresult, hPQ a ha⟩

theorem map {f : α → β} (h : Settles result failure? P)
    (hf : ∀ a, P a → R (f a)) : Settles (result.map f) failure? R := by
  cases failure? with
  | some e =>
      obtain rfl : result = .error e := h
      rfl
  | none =>
      obtain ⟨a, rfl, ha⟩ := h
      exact ⟨f a, rfl, hf a ha⟩

theorem mapError {f : ε → ε'} (h : Settles result failure? P) :
    Settles (result.mapError f) (failure?.map f) P := by
  cases failure? with
  | some e =>
      obtain rfl : result = .error e := h
      rfl
  | none =>
      obtain ⟨a, rfl, ha⟩ := h
      exact ⟨a, rfl, ha⟩

theorem error_iff (h : Settles result failure? P) (e : ε) :
    result = .error e ↔ failure? = some e := by
  cases failure? with
  | some d =>
      obtain rfl : result = .error d := h
      simp
  | none =>
      obtain ⟨a, rfl, -⟩ := h
      simp

theorem of_eq_ok (h : Settles result failure? P) {a : α} (ha : result = .ok a) :
    P a := by
  cases failure? with
  | some e =>
      obtain rfl : result = .error e := h
      cases ha
  | none =>
      obtain ⟨b, rfl, hb⟩ := h
      cases ha
      exact hb

end Settles

section

variable {n : Int} {bound start stop : Option Int}

open LayeredLogic.Interval

theorem toNat_boundOf (h : FitsInt64 n) : (boundOf n).toNat = n.toNat := by
  have hsize : n.toNat < UInt64.size := by
    unfold FitsInt64 at h
    show n.toNat < 2 ^ 64
    omega
  exact UInt64.toNat_ofNat_of_lt' hsize

private theorem readBound_ofInt (h : FitsInt64 n) :
    readBound (Int64.ofInt n) =
      if n < 0 then .error (.negativeBound (Int64.ofInt n))
        else .ok (boundOf n) := by
  have hvalue : (Int64.ofInt n).toInt = n := Int64.toInt_ofInt_of_le h.1 h.2
  have hsign : Int64.ofInt n < 0 ↔ n < 0 := by
    rw [Int64.lt_iff_toInt_lt, hvalue]
    simp
  by_cases hn : n < 0
  · rw [readBound, if_pos (hsign.mpr hn), if_pos hn]
  · rw [readBound, if_neg (mt hsign.mp hn), if_neg hn]
    obtain ⟨m, rfl⟩ := Int.eq_ofNat_of_zero_le (Int.not_lt.mp hn)
    rfl

theorem settles_readBound? (h : ∀ n ∈ bound, FitsInt64 n) :
    Settles (readBound? (bound.map Int64.ofInt)) (negative? bound) fun b =>
      b = bound.map boundOf ∧ FitsSigned b ∧ ∀ n ∈ bound, 0 ≤ n := by
  cases bound with
  | none => exact ⟨none, rfl, rfl, by simp [FitsSigned], by simp⟩
  | some n =>
      have hfits := h n rfl
      have hnegative : negative? (some n) =
          if n < 0 then some (.negativeBound (Int64.ofInt n)) else none := by
        by_cases hn : n < 0 <;> simp [negative?, Option.filter, hn]
      rw [hnegative, Option.map_some, readBound?, readBound_ofInt hfits]
      by_cases hn : n < 0
      · rw [if_pos hn, if_pos hn]
        rfl
      · rw [if_neg hn, if_neg hn]
        refine ⟨some (boundOf n), rfl, rfl, ?_, ?_⟩
        · rintro _ ⟨⟩
          unfold FitsInt64 at hfits
          rw [toNat_boundOf hfits, Numeral.signedLimit]
          omega
        · rintro _ ⟨⟩
          exact Int.not_lt.mp hn

private theorem settles_ofBounds (hstart : ∀ n ∈ start, FitsInt64 n ∧ 0 ≤ n)
    (hstop : ∀ n ∈ stop, FitsInt64 n ∧ 0 ≤ n) :
    Settles (ofBounds (start.map boundOf) (stop.map boundOf))
      (disorder? start stop) fun i =>
      i.start = start.map boundOf ∧ i.stop = stop.map boundOf := by
  cases start with
  | none => cases stop <;> exact ⟨_, rfl, rfl, rfl⟩
  | some start =>
      cases stop with
      | none => exact ⟨_, rfl, rfl, rfl⟩
      | some stop =>
          obtain ⟨hstart, hpos⟩ := hstart start rfl
          obtain ⟨hstop, hpos'⟩ := hstop stop rfl
          have hlt : boundOf start < boundOf stop ↔ start < stop := by
            rw [UInt64.lt_iff_toNat_lt, toNat_boundOf hstart,
              toNat_boundOf hstop]
            omega
          have heq : boundOf start = boundOf stop ↔ start = stop := by
            rw [← UInt64.toNat_inj, toNat_boundOf hstart, toNat_boundOf hstop]
            omega
          simp only [Option.map_some, ofBounds, bounded, disorder?, hlt, heq]
          split
          · exact ⟨_, rfl, rfl, rfl⟩
          · split <;> rfl

theorem settles_ofSigned (hstart : ∀ n ∈ start, FitsInt64 n)
    (hstop : ∀ n ∈ stop, FitsInt64 n) :
    Settles (ofSigned (start.map Int64.ofInt) (stop.map Int64.ofInt))
      (failure? start stop)
      fun i => FitsSigned i.start ∧ FitsSigned i.stop := by
  refine (settles_readBound? hstart).bind ?_
  rintro _ ⟨rfl, hfits, hpos⟩
  refine (settles_readBound? hstop).bind ?_
  rintro _ ⟨rfl, hfits', hpos'⟩
  have hbounds := settles_ofBounds (fun n hn => ⟨hstart n hn, hpos n hn⟩)
    (fun n hn => ⟨hstop n hn, hpos' n hn⟩)
  apply hbounds.mono
  rintro i ⟨hi, hi'⟩
  rw [hi, hi']
  exact ⟨hfits, hfits'⟩

end

/-! ## Parts -/

namespace RuleTable

section

variable {layer : Layer} {table : RuleTable} {P : Value → Prop}
  {S : List Value → Prop}

theorem settles_values_nil :
    Settles (table.values []) (Part.firstFailureOf? []) (· = []) :=
  ⟨[], values_nil, rfl⟩

theorem settles_values_cons {part : Part} {parts : List Part}
    (hpart : Settles (table.partValue part) part.firstFailure? P)
    (hparts : Settles (table.values parts) (Part.firstFailureOf? parts) S) :
    Settles (table.values (part :: parts))
      (Part.firstFailureOf? (part :: parts)) fun vs =>
      ∃ v rest, vs = v :: rest ∧ P v ∧ S rest := by
  rw [values_cons, Part.firstFailureOf?_cons]
  refine hpart.bind fun v hv => ?_
  exact hparts.map fun rest hrest => ⟨v, rest, rfl, hv, hrest⟩

theorem settles_values_token {t : Token} {parts : List Part}
    (ht : Settles (table.tokenValue t) t.failure? P)
    (hparts : Settles (table.values parts) (Part.firstFailureOf? parts) S) :
    Settles (table.values (.token t :: parts))
      (Part.firstFailureOf? (.token t :: parts))
      fun vs => ∃ v rest, vs = v :: rest ∧ P v ∧ S rest :=
  settles_values_cons ht hparts

theorem settles_values_tree {t : Tree} {parts : List Part}
    (ht : Settles (table.value t) t.firstFailure? P)
    (hparts : Settles (table.values parts) (Part.firstFailureOf? parts) S) :
    Settles (table.values (.tree t :: parts))
      (Part.firstFailureOf? (.tree t :: parts))
      fun vs => ∃ v rest, vs = v :: rest ∧ P v ∧ S rest :=
  settles_values_cons ht hparts

private theorem settles_integer {t : Token} (h : t.IsInteger) :
    Settles ((ofLayer layer).tokenValue t) t.failure? fun v =>
      v = .integer (Int64.ofInt t.number) ∧ FitsInt64 t.number := by
  obtain ⟨hkind, hnumeral⟩ := h
  have hread : Numeral.read t.text.toList = if FitsInt64 t.number then _
      else _ :=
    Numeral.read_eq hnumeral
  rw [tokenValue_ofLayer, if_pos hkind, TokenHandler.integer, hread]
  by_cases hfits : FitsInt64 t.number
  · have hnone : t.failure? = none := if_neg fun h => h.2 hfits
    rw [hnone, if_pos hfits]
    exact ⟨_, rfl, rfl, hfits⟩
  · have hfailure : t.failure? = some _ := if_pos ⟨hkind, hfits⟩
    rw [hfailure, if_neg hfits]
    rfl

theorem settles_integer? {bound : Option Token} (h : ∀ t ∈ bound, t.IsInteger) :
    Settles ((ofLayer layer).partValue (.ofToken? bound))
      (Part.ofToken? bound).firstFailure?
      fun v => v = .ofInteger? ((Part.ofToken? bound).number?.map Int64.ofInt) ∧
        ∀ n ∈ (Part.ofToken? bound).number?, FitsInt64 n := by
  cases bound with
  | none => exact ⟨.absent, rfl, rfl, by simp [Part.ofToken?, Part.number?]⟩
  | some t =>
      apply (settles_integer (h t rfl)).mono
      rintro _ ⟨rfl, hfits⟩
      refine ⟨rfl, ?_⟩
      rintro _ ⟨⟩
      exact hfits

theorem settles_name {t : Token} (h : t.kind ≠ TokenKind.integer.tag) :
    Settles ((ofLayer layer).tokenValue t) t.failure? fun v =>
      ∃ name, v = .name name ∧
      (t.kind ≠ TokenKind.quoted.tag → name = t.text) := by
  have hnone : t.failure? = none := if_neg fun hinteger => h hinteger.1
  rw [tokenValue_ofLayer, if_neg h, hnone]
  split
  · rename_i hquoted
    exact ⟨_, rfl, _, rfl, fun hkind => absurd hquoted hkind⟩
  · exact ⟨_, rfl, _, rfl, fun _ => rfl⟩

theorem settles_node {rule : Rule} {parts : List Part} {span : Span}
    (hlayer : layer.includes rule.layer = true)
    (hparts :
      Settles ((ofLayer layer).values parts) (Part.firstFailureOf? parts) S)
    (hrule :
      ∀ vs, S vs → Settles (Args.consume rule.handler rule.name vs)
        (Item.node rule.name parts).failure? P) :
    Settles ((ofLayer layer).value (.node rule.name parts span))
      (Tree.node rule.name parts span).firstFailure? P := by
  rw [value, Tree.firstFailure?_node]
  refine hparts.bind fun vs hvs => ?_
  rw [ruleValue, resolve_rule, if_pos hlayer]
  exact hrule vs hvs

/-- A rule that accepts the values of its parts whatever they are. -/
theorem settles_node_of_makes {rule : Rule} {parts : List Part} {span : Span}
    (hlayer : layer.includes rule.layer = true)
    (hparts :
      Settles ((ofLayer layer).values parts) (Part.firstFailureOf? parts) S)
    (hnone : (Item.node rule.name parts).failure? = none)
    (hmakes : ∀ vs, S vs → ∃ v, rule.Makes vs v ∧ P v) :
    Settles ((ofLayer layer).value (.node rule.name parts span))
      (Tree.node rule.name parts span).firstFailure? P := by
  refine settles_node hlayer hparts fun vs hvs => ?_
  obtain ⟨v, hv, hP⟩ := hmakes vs hvs
  rw [hnone]
  exact ⟨v, Rule.consume_of_makes hv, hP⟩

private theorem consume_interval_ofInteger? (name : String)
    (start stop : Option Int64) :
    Args.consume Handler.interval name [.ofInteger? start, .ofInteger? stop] =
      ((Interval.ofSigned start stop).mapError .interval).map .interval := by
  have hrun :
      Args.run Handler.interval
        ⟨name, [.ofInteger? start, .ofInteger? stop], 0⟩ =
      Args.run (do return .interval (← Handler.liftInterval
        (Interval.ofSigned start stop)))
        ⟨name, [], 2⟩ := by
    cases start <;> cases stop <;> rfl
  rw [Args.consume_eq, hrun]
  cases Interval.ofSigned start stop <;> rfl

private theorem consume_next_ofInteger? (name : String) (count : Option Int64)
    (a : Formula) :
    Args.consume Handler.next name [.ofInteger? count, .formula a] =
      ((readBound? count).mapError .interval).map fun steps =>
        .formula (.unary (.next steps) a) := by
  have hrun : Args.run Handler.next ⟨name, [.ofInteger? count, .formula a], 0⟩ =
      Args.run (do
        let steps ← Handler.liftInterval (readBound? count)
        return .formula (.unary (.next steps) (← Args.formula)))
          ⟨name, [.formula a], 1⟩ := by
    cases count <;> rfl
  rw [Args.consume_eq, hrun]
  cases readBound? count <;> rfl

private theorem settles_interval {t : Tree} (h : t.IsInterval) :
    Settles ((ofLayer layer).value t) t.firstFailure? fun v =>
      ∃ i, v = .interval i ∧ FitsSigned i.start ∧ FitsSigned i.stop := by
  cases h with
  | @bounds start stop span hstart hstop =>
      have hlayer : layer.includes .base = true := layer.includes_base
      refine settles_node hlayer (settles_values_cons (settles_integer? hstart)
        (settles_values_cons (settles_integer? hstop) settles_values_nil)) ?_
      rintro _ ⟨_, _, rfl, ⟨rfl, hfits⟩, _, _, rfl, ⟨rfl, hfits'⟩, rfl⟩
      have hbounds :=
        (settles_ofSigned hfits hfits').mapError (f := AssemblyError.interval)
      have hrule := consume_interval_ofInteger? Rule.interval.name
        ((Part.ofToken? start).number?.map Int64.ofInt)
        ((Part.ofToken? stop).number?.map Int64.ofInt)
      rw [Rule.handler, hrule]
      exact hbounds.map fun i hi => ⟨i, rfl, hi⟩

theorem settles_bounds {bounds : Option Tree} (h : ∀ i ∈ bounds, i.IsInterval) :
    Settles ((ofLayer layer).partValue (.ofTree? bounds))
      (Part.ofTree? bounds).firstFailure?
      fun v => ∃ i, v = .ofInterval? i ∧ BoundsFit i := by
  cases bounds with
  | none => exact ⟨.absent, rfl, none, rfl, by simp [BoundsFit]⟩
  | some t =>
      apply (settles_interval (h t rfl)).mono
      rintro _ ⟨i, rfl, hi⟩
      refine ⟨some i, rfl, ?_⟩
      rintro _ ⟨⟩
      exact hi

private theorem settles_labels {ts : List Token}
    (h : ∀ t ∈ ts, t.IsIdentifier) :
    Settles ((ofLayer layer).values (ts.map .token))
      (Part.firstFailureOf? (ts.map .token))
      (· = (ts.map Token.text).map .name) := by
  induction ts with
  | nil => exact settles_values_nil
  | cons t ts ih =>
      obtain ⟨⟨hkind, -⟩, hts⟩ := List.forall_mem_cons.mp h
      have hname : Settles ((ofLayer layer).tokenValue t) t.failure? _ :=
        settles_name (by rw [hkind]; decide)
      apply (settles_values_token hname (ih hts)).mono
      rintro _ ⟨_, _, rfl, ⟨name, rfl, htext⟩, rfl⟩
      rw [htext (by rw [hkind]; decide)]
      rfl

private theorem settles_graphList {t : Tree}
    (hgraph : layer.includes .stlGo = true) (h : t.IsGraphList) :
    Settles ((ofLayer layer).value t) t.firstFailure? fun v =>
      ∃ labels, v = .labels labels ∧
      labels.isEmpty = false ∧
      ∀ label ∈ labels, isIdentifier label.toList = true := by
  cases h with
  | labels span h =>
      refine settles_node_of_makes hgraph (settles_labels h) ?_ ?_
      · exact Item.failure?_of_ne (by decide) (by decide) _
      · rintro _ rfl
        refine ⟨_, .graphList _, _, rfl, ?_, ?_⟩
        · rw [LabelSet.isEmpty_ofList]
          rfl
        · intro label hlabel
          obtain ⟨t, ht, rfl⟩ := List.mem_map.mp (LabelSet.mem_ofList.mp hlabel)
          exact (h t ht).2

/-! ## Formulas -/

private theorem settles_trees {quotes : Prop} {ts : List Tree}
    (h : ∀ t ∈ ts, Settles ((ofLayer layer).value t) t.firstFailure? fun v =>
      ∃ f, v = .formula f ∧ f.Written layer quotes) :
    Settles ((ofLayer layer).values (ts.map .tree))
      (Part.firstFailureOf? (ts.map .tree))
      fun vs => ∃ args : List Formula, vs = args.map .formula ∧
      args.length = ts.length ∧
        ∀ a ∈ args, a.Written layer quotes := by
  induction ts with
  | nil => exact ⟨_, values_nil, [], rfl, rfl, by simp⟩
  | cons t ts ih =>
      obtain ⟨ht, hts⟩ := List.forall_mem_cons.mp h
      apply (settles_values_tree ht (ih hts)).mono
      rintro _ ⟨_, _, rfl, ⟨f, rfl, hf⟩, args, rfl, hlength, hargs⟩
      exact ⟨f :: args, rfl, by simp [hlength],
        List.forall_mem_cons.mpr ⟨hf, hargs⟩⟩

theorem settles_atom {quotes : Prop} {t : Token} {span : Span}
    (hkind : t.kind ≠ TokenKind.integer.tag)
    (hname : ∀ name, (t.kind ≠ TokenKind.quoted.tag → name = t.text) →
      (Formula.var name).NodeWritten layer quotes) :
    Settles ((ofLayer layer).value (.node Rule.variable.name [.token t] span))
      (Tree.node Rule.variable.name [.token t] span).firstFailure? fun v =>
      ∃ f, v = .formula f ∧ f.Written layer quotes := by
  have hbase : layer.includes .base = true := layer.includes_base
  refine settles_node_of_makes hbase
    (settles_values_token (settles_name hkind) settles_values_nil)
    (Item.failure?_of_ne (by decide) (by decide) _) ?_
  rintro _ ⟨_, _, rfl, ⟨name, rfl, htext⟩, rfl⟩
  exact ⟨_, .atom name, _, rfl, Formula.written_var (hname name htext)⟩

private theorem settles_grammatical {quotes : Prop} {t : Tree}
    (h : t.Grammatical layer quotes) :
    Settles ((ofLayer layer).value t) t.firstFailure? fun v =>
      ∃ f, v = .formula f ∧ f.Written layer quotes := by
  have hbase : layer.includes .base = true := layer.includes_base
  induction h with
  | @literal t span hkind =>
      refine settles_node_of_makes hbase
        (settles_values_token (settles_name (by rw [hkind]; decide))
          settles_values_nil)
        (Item.failure?_of_ne (by decide) (by decide) _) ?_
      rintro _ ⟨_, _, rfl, ⟨name, rfl, -⟩, rfl⟩
      exact ⟨_, .literal name, _, rfl, Formula.written_literal _⟩
  | @name t span hname hfree =>
      obtain ⟨hkind, hword⟩ := hname
      apply settles_atom (by rw [hkind]; decide)
      intro name htext
      rw [htext (by rw [hkind]; decide)]
      exact Or.inr ⟨hword, hfree⟩
  | quoted span hquotes hkind =>
      apply settles_atom (by rw [hkind]; decide)
      exact fun _ _ => Or.inl hquotes
  | negation span _ ih =>
      refine settles_node_of_makes hbase
        (settles_values_tree ih settles_values_nil)
        (Item.failure?_of_ne (by decide) (by decide) _) ?_
      rintro _ ⟨_, _, rfl, ⟨a, rfl, ha⟩, rfl⟩
      exact ⟨_, .negation a, _, rfl, Formula.written_neg ha⟩
  | junction k span hlength _ ih =>
      refine settles_node_of_makes (by cases k <;> exact hbase)
        (settles_trees ih)
        (Item.failure?_of_ne (by cases k <;> decide) (by cases k <;> decide) _)
        ?_
      rintro _ ⟨args, rfl, hargs, hwritten⟩
      exact ⟨_, .junction k args (by omega), _, rfl,
        Formula.written_joinAll hwritten⟩
  | derived c span _ _ iht ihu =>
      refine settles_node_of_makes (by cases c <;> exact hbase)
        (settles_values_tree iht (settles_values_tree ihu settles_values_nil))
        (Item.failure?_of_ne (by cases c <;> decide) (by cases c <;> decide) _)
        ?_
      rintro _ ⟨_, _, rfl, ⟨a, rfl, ha⟩, _, _, rfl, ⟨b, rfl, hb⟩, rfl⟩
      exact ⟨_, .derived c a b, _, rfl, Formula.written_derived c ha hb⟩
  | @next count t span hltl hcount _ ih =>
      refine settles_node hltl (settles_values_cons (settles_integer? hcount)
        (settles_values_tree ih settles_values_nil)) ?_
      rintro _ ⟨_, _, rfl, ⟨rfl, hfits⟩, _, _, rfl, ⟨a, rfl, ha⟩, rfl⟩
      have hsteps :=
        (settles_readBound? hfits).mapError (f := AssemblyError.interval)
      have hrule := consume_next_ofInteger? Rule.next.name
        ((Part.ofToken? count).number?.map Int64.ofInt) a
      rw [Rule.handler, hrule]
      apply hsteps.map
      rintro steps ⟨-, hsmall, -⟩
      exact ⟨_, rfl, Formula.written_unary hltl hsmall ha⟩
  | @unary rule modality bounds t span hknown hlayer hbounds _ ih =>
      refine settles_node_of_makes hlayer
        (settles_values_cons (settles_bounds hbounds)
        (settles_values_tree ih settles_values_nil)) ?_ ?_
      · refine Item.failure?_of_ne ?_ ?_ _ <;> (rintro rfl; cases hknown)
      · rintro _ ⟨_, _, rfl, ⟨i, rfl, hi⟩, _, _, rfl, ⟨a, rfl, ha⟩, rfl⟩
        have hreadable := Rule.readable_of_unary? hknown hi
        exact ⟨_, .unary rule modality hknown i a, _, rfl,
          Formula.written_unary (by rwa [Rule.layer_of_unary? hknown])
            hreadable ha⟩
  | @binary rule modality bounds t u span hknown hlayer hbounds _ _ iht ihu =>
      refine settles_node_of_makes hlayer (settles_values_tree iht
        (settles_values_cons (settles_bounds hbounds)
          (settles_values_tree ihu settles_values_nil))) ?_ ?_
      · refine Item.failure?_of_ne ?_ ?_ _ <;> (rintro rfl; cases hknown)
      · rintro _ ⟨_, _, rfl, ⟨a, rfl, ha⟩, _, _, rfl, ⟨i, rfl, hi⟩, _, _, rfl,
          ⟨b, rfl, hb⟩, rfl⟩
        have hkept := Rule.bounds_of_binary? hknown i
        exact ⟨_, .binary rule modality hknown i a b, _, rfl,
          Formula.written_binary (by rwa [Rule.layer_of_binary? hknown])
            (by rwa [hkept]) ha hb⟩
  | graph direction span hgraph hlabels hedges _ ih =>
      have hlayer : layer.includes direction.rule.layer = true := by
        cases direction <;> exact hgraph
      refine settles_node_of_makes hlayer
        (settles_values_tree (settles_graphList hgraph hlabels)
          (settles_values_cons (settles_bounds hedges)
            (settles_values_tree ih settles_values_nil)))
        (Item.failure?_of_ne (by cases direction <;> decide)
          (by cases direction <;> decide) _) ?_
      rintro _ ⟨_, _, rfl, ⟨labels, rfl, hne, hnames⟩, _, _, rfl, ⟨i, rfl, hi⟩,
        _, _, rfl, ⟨a, rfl, ha⟩, rfl⟩
      have hoperator : layer.includes direction.operator.layer = true := by
        cases direction <;> exact hgraph
      exact ⟨_, .graph direction labels i a hne, _, rfl,
        Formula.written_unary hoperator ⟨hnames, hi⟩ ha⟩

theorem settles_assemble {quotes : Prop} {t : Tree}
    (h : t.Grammatical layer quotes) :
    Settles ((ofLayer layer).assemble t) t.firstFailure? fun f =>
      f.Written layer quotes := by
  have hvalue := settles_grammatical h
  rw [← Option.or_none (o := t.firstFailure?)]
  refine hvalue.bind ?_
  rintro _ ⟨f, rfl, hf⟩
  exact ⟨f, rfl, hf⟩

end

end RuleTable

theorem Item.failure?_eq_some {i : Item} {e : AssemblyError}
    (h : i.failure? = some e) :
    (∃ reason, e = .interval reason) ∨
      ∃ t reason, i = .token t ∧ t.kind = TokenKind.integer.tag ∧
      ¬ FitsInt64 t.number ∧
        e = .invalidNumber t.text reason := by
  unfold failure? at h
  split at h
  · rename_i t
    unfold Token.failure? at h
    split at h
    · rename_i hrange
      obtain rfl := Option.some.inj h
      exact Or.inr ⟨t, _, rfl, hrange.1, hrange.2, rfl⟩
    · cases h
  · left
    split at h
    · obtain ⟨reason, -, rfl⟩ := Option.map_eq_some_iff.mp h
      exact ⟨reason, rfl⟩
    · split at h
      · obtain ⟨reason, -, rfl⟩ := Option.map_eq_some_iff.mp h
        exact ⟨reason, rfl⟩
      · cases h
  · cases h

namespace Tree

variable {layer : Layer} {source : String} {t : Tree}

/-- The rules of a layer fit its grammar: nothing but a number that is out of
range, a negative bound or an interval that is not in order can keep the tree of
a text from being assembled. -/
theorem assemble_of_parse (h : Tree.parse layer source = .ok t) :
    ((∃ f, (RuleTable.ofLayer layer).assemble t = .ok f) ∨
      (∃ e, (RuleTable.ofLayer layer).assemble t = .error (.interval e)) ∨
      ∃ text reason, (RuleTable.ofLayer layer).assemble t =
        .error (.invalidNumber text reason)) ∧
    (∀ e, (RuleTable.ofLayer layer).assemble t = .error e ↔
      t.firstFailure? = some e) ∧
    ((∃ text reason, (RuleTable.ofLayer layer).assemble t =
        .error (.invalidNumber text reason)) ↔
      ∃ before n after, t.postorder = before ++ .token n :: after ∧
        (∀ i ∈ before, i.failure? = none) ∧
        n.kind = TokenKind.integer.tag ∧ ¬ FitsInt64 n.number) := by
  have hsettles := RuleTable.settles_assemble (grammatical_of_parse h)
  have herror := hsettles.error_iff
  refine ⟨?_, herror, ?_⟩
  · cases hresult : (RuleTable.ofLayer layer).assemble t with
    | ok f => exact Or.inl ⟨f, rfl⟩
    | error e =>
        obtain ⟨_, i, _, -, hi, -⟩ :=
          List.findSome?_eq_some_iff.mp ((herror e).mp hresult)
        rcases Item.failure?_eq_some hi
          with ⟨reason, rfl⟩ | ⟨n, reason, -, -, -, rfl⟩
        · exact Or.inr (Or.inl ⟨reason, rfl⟩)
        · exact Or.inr (Or.inr ⟨n.text, reason, rfl⟩)
  · constructor
    · rintro ⟨text, reason, hresult⟩
      obtain ⟨before, i, after, hitems, hi, hbefore⟩ :=
        List.findSome?_eq_some_iff.mp ((herror _).mp hresult)
      rcases Item.failure?_eq_some hi
        with ⟨_, he⟩ | ⟨n, _, rfl, hkind, hrange, -⟩
      · cases he
      · exact ⟨before, n, after, hitems, hbefore, hkind, hrange⟩
    · rintro ⟨before, n, after, hitems, hbefore, hkind, hrange⟩
      have hn : (Item.token n).failure? = some _ := if_pos ⟨hkind, hrange⟩
      exact ⟨_, _, (herror _).mpr
        (List.findSome?_eq_some_iff.mpr
          ⟨before, _, after, hitems, hn, hbefore⟩)⟩

/-- Two numbers are wrong here, and the step count comes first although its node
comes last. -/
theorem assemble_of_parse_steps :
    ∃ t, Tree.parse .ltl "X[9223372036854775808] G[2,1] a" = .ok t ∧
      (RuleTable.ofLayer .ltl).assemble t =
        .error (.invalidNumber "9223372036854775808" .tooLarge) := by
  have hfirst :
      (Tree.parse .ltl "X[9223372036854775808] G[2,1] a").toOption.bind
        firstFailure? =
      some (.invalidNumber "9223372036854775808" .tooLarge) := by
    decide +kernel
  cases ht : Tree.parse .ltl "X[9223372036854775808] G[2,1] a" with
  | error e =>
      rw [ht] at hfirst
      cases hfirst
  | ok t =>
      rw [ht] at hfirst
      exact ⟨t, rfl, ((assemble_of_parse ht).2.1 _).mpr hfirst⟩

end Tree

end LayeredLogic
