import LayeredLogic.Proofs.FirstFailure
import LayeredLogic.Proofs.TextNesting

/-!
# Reading bounds back

A bound is a number of 64 bits without a sign, and its text is read as a number
of 64 bits with one.  The grammar takes every such text, so that the upper half
of the bounds is refused only when the tree is assembled.
-/

namespace LayeredLogic

def overflow? (bound : Option UInt64) : Option AssemblyError :=
  (bound.filter fun b => Numeral.signedLimit ≤ b.toNat).map fun b =>
    .invalidNumber (String.ofList (Nat.toDigits 10 b.toNat)) .tooLarge

theorem overflow?_eq_none_iff {bound : Option UInt64} :
    overflow? bound = none ↔ FitsSigned bound := by
  cases bound <;> simp [overflow?, FitsSigned]

namespace Interval

def overflow? (i : Interval) : Option AssemblyError :=
  (LayeredLogic.overflow? i.start).or (LayeredLogic.overflow? i.stop)

theorem overflow?_eq_none_iff {i : Interval} :
    i.overflow? = none ↔ FitsSigned i.start ∧ FitsSigned i.stop := by
  rw [overflow?, Option.or_eq_none_iff, LayeredLogic.overflow?_eq_none_iff,
    LayeredLogic.overflow?_eq_none_iff]

end Interval

section

variable {start stop bound : Option Int64}

theorem map_ofInt_toInt (bound : Option Int64) :
    (bound.map Int64.toInt).map Int64.ofInt = bound := by
  cases bound <;> simp

theorem fitsInt64_of_mem {n : Int} (hn : n ∈ bound.map Int64.toInt) :
    FitsInt64 n := by
  obtain ⟨m, -, rfl⟩ := Option.map_eq_some_iff.mp hn
  exact ⟨m.le_toInt, m.toInt_lt⟩

private theorem fitsSigned_of_readBound? {b : Option UInt64}
    (h : readBound? bound = .ok b) : FitsSigned b := by
  have hsettles := settles_readBound? (@fitsInt64_of_mem bound)
  rw [map_ofInt_toInt] at hsettles
  exact (hsettles.of_eq_ok h).2.1

private theorem Interval.fitsSigned_of_ofSigned {i : Interval}
    (h : ofSigned start stop = .ok i) :
    FitsSigned i.start ∧ FitsSigned i.stop := by
  have hsettles :=
    settles_ofSigned (@fitsInt64_of_mem start) (@fitsInt64_of_mem stop)
  rw [map_ofInt_toInt, map_ofInt_toInt] at hsettles
  exact hsettles.of_eq_ok h

end

/-! ## Failures of what is shown -/

theorem Token.Shows.number {n : Nat} {t : Token} (h : t.Shows n) :
    t.number = n := by
  have hdigits : ∀ d ∈ Nat.toDigits 10 n, d.isDigit = true :=
    fun d => isDigit_of_mem_toDigits
  rw [Token.number, h.2, String.toList_ofList, Numeral.value_of_digits hdigits,
    Nat.ofDigitChars_ten_toDigits]

theorem Token.Shows.failure? {b : UInt64} {t : Token} (h : t.Shows b.toNat) :
    t.failure? = overflow? (some b) := by
  have hfits : FitsInt64 b.toNat ↔ ¬ Numeral.signedLimit ≤ b.toNat := by
    unfold FitsInt64 Numeral.signedLimit
    omega
  have hsign : ¬ (b.toNat : Int) < 0 := by omega
  rw [Token.failure?, h.number, h.2, if_neg hsign]
  by_cases hlimit : Numeral.signedLimit ≤ b.toNat <;>
    simp [overflow?, Option.filter, hfits, hlimit, h.1]

namespace Part

variable {part : Part}

theorem ShowsBound.firstFailure? {bound : Option UInt64}
    (h : part.ShowsBound bound) : part.firstFailure? = overflow? bound := by
  cases bound with
  | none =>
      obtain rfl : part = .absent := h
      rfl
  | some b =>
      obtain ⟨t, rfl, ht⟩ := h
      exact ht.failure?

theorem ShowsBound.number? {bound : Option UInt64} (h : part.ShowsBound bound) :
    part.number? = bound.map fun b => (b.toNat : Int) := by
  cases bound with
  | none =>
      obtain rfl : part = .absent := h
      rfl
  | some b =>
      obtain ⟨t, rfl, ht⟩ := h
      exact congrArg some ht.number

end Part

private theorem Interval.failure?_eq_none (i : Interval) :
    Interval.failure? (i.start.map fun b => (b.toNat : Int))
      (i.stop.map fun b => (b.toNat : Int)) = none := by
  have hnegative : ∀ bound : Option UInt64,
      Interval.negative? (bound.map fun b => (b.toNat : Int)) = none := by
    intro bound
    cases bound <;> simp [Interval.negative?, Option.filter]
  obtain ⟨start, stop, hordered⟩ := i
  rw [Interval.failure?, hnegative, hnegative]
  cases start with
  | none => rfl
  | some start =>
      cases stop with
      | none => rfl
      | some stop =>
          have hlt : (start.toNat : Int) < stop.toNat := by
            have h := UInt64.lt_iff_toNat_lt.mp hordered
            omega
          simp [Interval.disorder?, hlt]

theorem Tree.ShowsInterval.firstFailure? {i : Interval} {t : Tree}
    (h : t.ShowsInterval i) : t.firstFailure? = i.overflow? := by
  obtain ⟨_, span, rfl, hparts⟩ := h
  obtain _ | @⟨_, start, _, _, hstart, _ | @⟨_, stop, _, _, hstop, ⟨⟩⟩⟩ :=
    hparts
  -- With both bounds in their range nothing is left for the node itself to fail
  -- with.
  have hnode : (Item.node Rule.interval.name [start, stop]).failure? =
      (Interval.failure? start.number? stop.number?).map .interval := rfl
  have hnil : Part.firstFailureOf? [] = none := rfl
  rw [Tree.firstFailure?_node, Part.firstFailureOf?_cons,
    Part.firstFailureOf?_cons, hstart.firstFailure?, hstop.firstFailure?, hnode,
    hstart.number?, hstop.number?, Interval.failure?_eq_none, hnil,
    Option.or_none, Option.map_none, Option.or_none]
  rfl

theorem Part.ShowsInterval.firstFailure? {i : Interval} {part : Part}
    (h : part.ShowsInterval (some i)) : part.firstFailure? = i.overflow? := by
  obtain ⟨t, rfl, ht⟩ := h
  exact ht.firstFailure?

theorem Tree.firstFailure?_of_first {rule : String} {part : Part}
    {parts : List Part} {span : Span} {e : AssemblyError}
    (h : part.firstFailure? = some e) :
    (Tree.node rule (part :: parts) span).firstFailure? = some e := by
  rw [Tree.firstFailure?_node, Part.firstFailureOf?_cons, h]
  rfl

namespace Formula

open Reader

variable {layer : Layer} {a : Formula} {P : Tree → Prop}

private theorem recovers_length (ha : a.Canonical layer) (front : List Char) :
    (operand layer (front ++ a.operandChars).length).Recovers layer a := by
  have hdepth := depth_le_length ha
  have hlength := length_chars_le a
  apply recovers_operand ha
  rw [List.length_append]
  omega

theorem takes_sentence_temporal {letter : Char} {front : List Char}
    (before : Reader Tree → List (Reader Tree)) (p : Reader Tree → Reader Tree)
    (htemporal : ∀ op, ∃ after, temporal op = before op ++ p op :: after)
    (hltl : layer.includes .ltl = true) (hletter : isNameStart letter = true)
    (hliteral : [letter] ∉ literalWords) (ha : a.Canonical layer)
    (hbefore : ∀ op, ∀ q ∈ before op, ∀ rest, Refuses q (letter :: rest))
    (hends : ∀ rest, EndsName (front ++ ' ' :: rest))
    (h : ∀ op, op.Recovers layer a →
      Takes (p op) (letter :: (front ++ ' ' :: (a.operandChars ++ []))) P []) :
    Takes (sentence layer) (letter :: (front ++ ' ' :: a.operandChars)) P
      [] := by
  have htext : letter :: (front ++ ' ' :: a.operandChars) =
      letter :: (front ++ [' ']) ++ a.operandChars := by simp
  have hrecovers := recovers_length ha (letter :: (front ++ [' ']))
  rw [← htext] at hrecovers
  have hoperator := h _ hrecovers
  rw [List.append_nil] at hoperator
  have hblank := isBlank_of_isNameStart hletter
  apply Reader.takes_sentence
  rw [skip_cons hblank]
  apply takes_formula_operand _ before_nil
  exact takes_operand_letter letter _ (htemporal _) hltl hletter hliteral
    (fun q hq => hbefore _ q hq _) (hends _) hoperator

private theorem takes_always (hltl : layer.includes .ltl = true)
    (ha : a.Canonical layer) (i : Option Interval) :
    Takes (sentence layer) (unary (.always i) a).chars
      (fun t => ∃ bounds u span,
        t = .node Rule.always.name [bounds, .tree u] span ∧
        bounds.ShowsInterval i ∧ Tree.Means layer (.formula a) u) [] := by
  apply takes_sentence_temporal (fun op => [next op])
    (bounded .always (symbol ['G']))
    (fun op => ⟨_, rfl⟩) hltl rfl (by decide) ha _ (endsName_bounds i)
  · intro op hop
    exact takes_bounded_shown (takes_letter 'G' _ rfl) hop endsName_nil
  · intro op q hq rest
    obtain rfl := List.mem_singleton.mp hq
    exact refuses_letter (by rintro _ ⟨⟩; decide)

theorem takes_next (hltl : layer.includes .ltl = true) (ha : a.Canonical layer)
    (count : Option UInt64) :
    Takes (sentence layer) (unary (.next count) a).chars
      (fun t => ∃ steps u span, t = .node Rule.next.name [steps, .tree u] span ∧
        steps.ShowsBound count ∧ Tree.Means layer (.formula a) u) [] := by
  apply takes_sentence_temporal (fun _ => []) next (fun op => ⟨_, rfl⟩) hltl rfl
    (by decide) ha
    (by simp) (endsName_steps count)
  intro op hop
  exact takes_next_shown hop endsName_nil

/-! ## What is read -/

/-- What a text is read as, if the numbers in it fail with what is given. -/
def readingOf (f : Formula) : Option AssemblyError → Except ReadError Formula
  | none => .ok f
  | some e => .error (.assembly e)

private theorem parse_of_firstFailure {source : String} {t : Tree}
    {e : AssemblyError} (ht : Tree.parse layer source = .ok t)
    (h : t.firstFailure? = some e) :
    parse layer source = .error (.assembly e) := by
  have hsettles := RuleTable.settles_assemble (Tree.grammatical_of_parse ht)
  have hassemble := (hsettles.error_iff e).mpr h
  simp only [parse, ht, Except.mapError, bind, Except.bind, hassemble]

/-- A text is read as the formula unless a number in it fails, if its tree shows
this number. -/
theorem parse_eq_readingOf {source : String} {f : Formula}
    {failure? : Option AssemblyError}
    (hnesting : Nesting.excess? layer source.toList = none)
    (h : Takes (sentence layer) source.toList P [])
    (hmeans : failure? = none → ∀ t, P t → Tree.Means layer (.formula f) t)
    (hfails : ∀ e, failure? = some e → ∀ t, P t → t.firstFailure? = some e) :
    parse layer source = readingOf f failure? := by
  cases failure? with
  | none => exact parse_of_takes hnesting (h.mono (hmeans rfl))
  | some e =>
      obtain ⟨t, htree, ht⟩ := Tree.exists_parse_eq_ok hnesting h
      exact parse_of_firstFailure htree (hfails e rfl t ht)

private theorem parse_always (hltl : layer.includes .ltl = true)
    (ha : a.Canonical layer) (i : Interval)
    (hnesting :
      Nesting.excess? layer (unary (.always (some i)) a).text.toList = none) :
    parse layer (unary (.always (some i)) a).text =
      readingOf (unary (.always (some i)) a) i.overflow? := by
  apply parse_eq_readingOf hnesting
  · rw [text, String.toList_ofList]
    exact takes_always hltl ha (some i)
  · rintro hnone _ ⟨bounds, u, span, rfl, hbounds, hu⟩
    have hfits : BoundsFit (some i) := by
      rintro _ ⟨⟩
      exact Interval.overflow?_eq_none_iff.mp hnone
    exact Tree.means_node hltl (.cons (hbounds.means hfits) (.cons hu .nil))
      (.unary .always .always rfl (some i) a)
  · rintro e he _ ⟨bounds, u, span, rfl, hbounds, -⟩
    exact Tree.firstFailure?_of_first (hbounds.firstFailure?.trans he)

private theorem parse_next (hltl : layer.includes .ltl = true)
    (ha : a.Canonical layer) (count : Option UInt64)
    (hnesting :
      Nesting.excess? layer (unary (.next count) a).text.toList = none) :
    parse layer (unary (.next count) a).text =
      readingOf (unary (.next count) a) (overflow? count) := by
  apply parse_eq_readingOf hnesting
  · rw [text, String.toList_ofList]
    exact takes_next hltl ha count
  · rintro hnone _ ⟨steps, u, span, rfl, hsteps, hu⟩
    have hfits := overflow?_eq_none_iff.mp hnone
    exact Tree.means_node hltl (.cons (hsteps.means hfits) (.cons hu .nil))
      (.next _ _ a (readBound?_signedBound hfits))
  · rintro e he _ ⟨steps, u, span, rfl, hsteps, -⟩
    exact Tree.firstFailure?_of_first (hsteps.firstFailure?.trans he)

theorem canonical_p : (var "p").Canonical .ltl :=
  canonical_iff.mpr ⟨⟨trivial, rfl, by decide⟩, by simp [children]⟩

theorem excess?_front_p {front : List Char}
    (h : Nesting.Emits .ltl front [' ', 'p'] [.operators 1]) :
    Nesting.excess? .ltl (front ++ [' ', 'p']) = none := by
  have hp : Nesting.Emits .ltl ['p'] [] [.operators 0] :=
    Nesting.emits_word rfl endsName_nil
  have hraises : Nesting.Raises maxNesting _ _ _ :=
    (Nesting.raises_operators 1).append (Nesting.raises_operators 0)
  exact ((h.append hp.space).excess?_eq_none_iff hraises).mpr (by decide)

/-- Bounds and step counts are read back exactly as far as a signed number goes,
which is as far as signed bounds build an interval.  Above that the first number
that is out of range is refused. -/
theorem parse_text_bounds (i : Interval) (n : UInt64) :
    (parse .ltl (unary (.always (some i)) (var "p")).text =
      readingOf (unary (.always (some i)) (var "p")) i.overflow?) ∧
    (parse .ltl (unary (.next (some n)) (var "p")).text =
      readingOf (unary (.next (some n)) (var "p")) (overflow? (some n))) ∧
    (i.overflow? = none ↔ ∃ start stop, Interval.ofSigned start stop = .ok i) ∧
    (overflow? (some n) = none ↔ ∃ count, readBound? count = .ok (some n)) := by
  have hbounds :
      Nesting.Emits .ltl (UnaryModality.always (some i)).chars [' ', 'p'] _ :=
    (Nesting.emits_bounds (some i)).letter rfl (by decide)
    (endsName_bounds (some i) ['p'])
  have hsteps :
      Nesting.Emits .ltl (UnaryModality.next (some n)).chars [' ', 'p'] _ :=
    (Nesting.emits_steps (some n)).letter rfl (by decide)
    (endsName_steps (some n) ['p'])
  refine ⟨?_, ?_, ?_, ?_⟩
  · apply parse_always rfl canonical_p
    rw [text, String.toList_ofList]
    exact excess?_front_p hbounds
  · apply parse_next rfl canonical_p
    rw [text, String.toList_ofList]
    exact excess?_front_p hsteps
  · rw [Interval.overflow?_eq_none_iff]
    constructor
    · rintro ⟨hstart, hstop⟩
      exact ⟨_, _, Interval.ofSigned_signedBound hstart hstop⟩
    · rintro ⟨start, stop, hi⟩
      exact Interval.fitsSigned_of_ofSigned hi
  · rw [overflow?_eq_none_iff]
    constructor
    · intro hfits
      exact ⟨_, readBound?_signedBound hfits⟩
    · rintro ⟨count, hcount⟩
      exact fitsSigned_of_readBound? hcount

/-- The least number over the range of signed numbers is a stop and a step
count. -/
theorem parse_text_bounds_ne :
    (∃ i, Interval.bounded 0 9223372036854775808 = .ok i ∧
      parse .ltl (unary (.always (some i)) (var "p")).text ≠
        .ok (unary (.always (some i)) (var "p"))) ∧
    parse .ltl (unary (.next (some 9223372036854775808)) (var "p")).text ≠
      .ok (unary (.next (some 9223372036854775808)) (var "p")) := by
  refine ⟨⟨⟨some 0, some 9223372036854775808, by decide⟩, rfl, ?_⟩, ?_⟩ <;>
    decide +kernel

end Formula

end LayeredLogic
