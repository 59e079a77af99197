import LayeredLogic.Formula.Text
import LayeredLogic.Grammar.Formula
import LayeredLogic.Proofs.Assembly
import LayeredLogic.Proofs.Reader
import Mathlib.Data.List.TakeWhile

/-!
# Reading words, bounds and labels

The lexemes of a canonical text are read back as the values that they were
written for.  A name has to end where its text ends, which is all that is asked
of the text behind it.
-/

namespace LayeredLogic

/-! ## Classes of characters -/

theorem isNameStart_iff {c : Char} : isNameStart c = true ↔
    (65 ≤ c.toNat ∧ c.toNat ≤ 90) ∨ (97 ≤ c.toNat ∧ c.toNat ≤ 122) ∨
    c.toNat = 95 := by
  have hupper : c.isUpper = true ↔ 65 ≤ c.toNat ∧ c.toNat ≤ 90 := by
    have hval : c.isUpper = decide (c.val ≥ 'A'.val ∧ c.val ≤ 'Z'.val) := rfl
    simp only [hval, decide_eq_true_eq, ge_iff_le, UInt32.le_iff_toNat_le]
    rfl
  have hlower : c.isLower = true ↔ 97 ≤ c.toNat ∧ c.toNat ≤ 122 := by
    have hval : c.isLower =
        (decide (c.val ≥ 'a'.val) && decide (c.val ≤ 'z'.val)) := rfl
    simp only [hval, Bool.and_eq_true, decide_eq_true_eq, ge_iff_le,
      UInt32.le_iff_toNat_le]
    rfl
  have hline : c = '_' ↔ c.toNat = 95 :=
    ⟨fun h => h ▸ rfl, fun h => Char.toNat_inj.mp h⟩
  have hstart : isNameStart c = ((c.isUpper || c.isLower) || c == '_') := rfl
  rw [hstart, Bool.or_eq_true, Bool.or_eq_true, beq_iff_eq, hupper, hlower,
    hline, or_assoc]

theorem isDigit_iff {c : Char} :
    c.isDigit = true ↔ 48 ≤ c.toNat ∧ c.toNat ≤ 57 := by
  simp only [Char.isDigit, Bool.and_eq_true, decide_eq_true_eq, ge_iff_le,
    UInt32.le_iff_toNat_le, Char.toNat_val]
  rfl

theorem isBlank_of_isNameStart {c : Char} (h : isNameStart c = true) :
    isBlank c = false := by
  have hc := isNameStart_iff.mp h
  simp only [isBlank, blankRanges, inRanges, Bool.and_eq_false_iff,
    Bool.or_eq_false_iff, decide_eq_false_iff_not]
  omega

theorem isBlank_of_isDigit {c : Char} (h : c.isDigit = true) :
    isBlank c = false := by
  have hc := isDigit_iff.mp h
  simp only [isBlank, blankRanges, inRanges, Bool.and_eq_false_iff,
    Bool.or_eq_false_iff, decide_eq_false_iff_not]
  omega

theorem isNameChar_of_isBlank {c : Char} (h : isBlank c = true) :
    isNameChar c = false := by
  have hstart : isNameStart c = false := by
    by_contra hc
    rw [isBlank_of_isNameStart (by simpa using hc)] at h
    cases h
  have hdigit : c.isDigit = false := by
    by_contra hc
    rw [isBlank_of_isDigit (by simpa using hc)] at h
    cases h
  rw [isNameStart, Bool.or_eq_false_iff] at hstart
  rw [isNameChar, Char.isAlphanum, hstart.1, hstart.2, hdigit]
  rfl

theorem isDigit_of_isNameStart {c : Char} (h : isNameStart c = true) :
    c.isDigit = false := by
  have hc := isNameStart_iff.mp h
  rw [Bool.eq_false_iff, ne_eq, isDigit_iff]
  omega

def isIdentifier : List Char → Bool
  | [] => false
  | c :: cs => isNameStart c && cs.all isNameChar

def EndsName (cs : List Char) : Prop := ∀ c ∈ cs.head?, isNameChar c = false

theorem endsName_nil : EndsName [] := by simp [EndsName]

private theorem endsName_dropWhile (cs : List Char) :
    EndsName (cs.dropWhile isNameChar) := by
  intro c hc
  have hnot := List.head?_dropWhile_not isNameChar cs
  rwa [Option.mem_def.mp hc] at hnot

theorem skip_word {word : List Char} (h : isIdentifier word = true)
    (rest : List Char) : skip (word ++ rest) = word ++ rest := by
  cases word with
  | nil => cases h
  | cons c cs =>
      simp only [isIdentifier, Bool.and_eq_true] at h
      exact skip_cons (isBlank_of_isNameStart h.1) _

theorem span_append {ok : Char → Bool} {cs behind : List Char}
    (hstop : (∃ x ∈ cs, ok x = false) ∨ ∀ x ∈ behind.head?, ok x = false) :
    (cs ++ behind).takeWhile ok = cs.takeWhile ok ∧
      (cs ++ behind).dropWhile ok = cs.dropWhile ok ++ behind := by
  induction cs with
  | nil =>
      obtain ⟨x, hx, -⟩ | hbehind := hstop
      · cases hx
      · cases behind with
        | nil => exact ⟨rfl, rfl⟩
        | cons x behind => simp [hbehind x rfl]
  | cons x cs ih =>
      cases hx : ok x with
      | true =>
          have hrest : (∃ y ∈ cs, ok y = false) ∨
              ∀ y ∈ behind.head?, ok y = false := by
            simpa [hx] using hstop
          simpa [hx] using ih hrest
      | false => simp [hx]

theorem takeWhile_append_of_ends {ok : Char → Bool} {cs rest : List Char}
    (hcs : ∀ c ∈ cs, ok c = true) (hrest : ∀ c ∈ rest.head?, ok c = false) :
    (cs ++ rest).takeWhile ok = cs ∧ (cs ++ rest).dropWhile ok = rest := by
  obtain ⟨htake, hdrop⟩ := span_append (.inr hrest)
  rw [htake, hdrop, List.takeWhile_eq_self_iff.mpr hcs,
    List.dropWhile_eq_nil_iff.mpr hcs]
  exact ⟨rfl, rfl⟩

namespace Reader

variable {input rest word : List Char}

theorem takes_run_of_ends {ok : Char → Bool} {cs : List Char}
    (hcs : ∀ c ∈ cs, ok c = true) (hrest : ∀ c ∈ rest.head?, ok c = false) :
    Takes (run ok) (cs ++ rest) (· = cs) rest := by
  obtain ⟨htake, hdrop⟩ := takeWhile_append_of_ends hcs hrest
  have h : Takes (run ok) (cs ++ rest) (· = (cs ++ rest).takeWhile ok)
      ((cs ++ rest).dropWhile ok) := takes_run ok
  rwa [htake, hdrop] at h

theorem takes_symbol (sign rest : List Char) (h : skip input = sign ++ rest) :
    Takes (symbol sign) input (fun _ => True) (skip rest) := by
  apply Takes.padded
  rw [h]
  exact takes_exactly sign

theorem refuses_symbol {c : Char} {cs : List Char}
    (h : ∀ d ∈ (skip input).head?, d ≠ c) : Refuses (symbol (c :: cs)) input :=
  (refuses_exactly h).padded

theorem takes_identifier (h : isIdentifier word = true)
    (hrest : EndsName rest) :
    Takes identifier (word ++ rest) (· = word) rest := by
  cases word with
  | nil => cases h
  | cons c cs =>
      simp only [isIdentifier, Bool.and_eq_true, List.all_eq_true] at h
      apply (takes_satisfy h.1).bind
      rintro _ rfl
      apply (takes_run_of_ends h.2 hrest).bind
      rintro _ rfl
      exact takes_pure rfl

theorem refuses_identifier (h : ∀ c ∈ input.head?, isNameStart c = false) :
    Refuses identifier input :=
  (refuses_satisfy h).bind

theorem takes_keyword (h : isIdentifier word = true) (hrest : EndsName rest) :
    Takes (keyword word) (word ++ rest) (fun _ => True) (skip rest) := by
  have hword :
      Takes (check identifier (· == word)) (skip (word ++ rest))
        (· = word) rest := by
    rw [skip_word h]
    exact (takes_identifier h hrest).check fun _ ha => by
      rw [ha, beq_self_eq_true]
  exact hword.padded.bind fun _ _ => takes_pure trivial

theorem refuses_keyword {other : List Char} (h : isIdentifier word = true)
    (hrest : EndsName rest) (hne : word ≠ other) :
    Refuses (keyword other) (word ++ rest) := by
  have hword :
      Refuses (check identifier (· == other)) (skip (word ++ rest)) := by
    rw [skip_word h]
    exact (takes_identifier h hrest).check_refuses fun _ ha => by simp [ha, hne]
  exact hword.padded.bind

theorem refuses_keyword_of_head {other : List Char}
    (h : ∀ c ∈ (skip input).head?, isNameStart c = false) :
    Refuses (keyword other) input :=
  (refuses_identifier h).check.padded.bind

theorem takes_token {kind : TokenKind} {lexeme : Reader (List Char)}
    {cs : List Char} (h : Takes lexeme (skip input) (· = cs) rest) :
    Takes (token kind lexeme) input
      (fun t => t.kind = kind.tag ∧ t.text = String.ofList cs)
      (skip rest) := by
  apply Takes.padded
  apply h.located.bind
  rintro ⟨_, span⟩ rfl
  exact takes_pure ⟨rfl, rfl⟩

variable {c c' : Cursor}

theorem result?_identifier_eq_some
    (h : result? identifier c = some (word, c')) :
    c.rest = word ++ c'.rest ∧ isIdentifier word = true ∧ EndsName c'.rest := by
  obtain ⟨first, middle, hfirst, h⟩ := result?_bind_eq_some_iff.mp h
  obtain ⟨others, last, hothers, h⟩ := result?_bind_eq_some_iff.mp h
  obtain ⟨rfl, rfl⟩ := result?_pure_eq_some_iff.mp h
  obtain ⟨htext, hname⟩ := result?_satisfy_eq_some hfirst
  cases hothers
  refine ⟨?_, ?_, ?_⟩
  · rw [htext, List.cons_append]
    exact congrArg _ List.takeWhile_append_dropWhile.symm
  · rw [isIdentifier, hname, List.all_takeWhile]
    rfl
  · exact endsName_dropWhile middle.rest

theorem result?_digits_eq_some {ds : List Char}
    (h : result? digits c = some (ds, c')) :
    c.rest = ds ++ c'.rest ∧ ds ≠ [] ∧ ∀ d ∈ ds, d.isDigit = true := by
  obtain ⟨first, middle, hfirst, h⟩ := result?_bind_eq_some_iff.mp h
  obtain ⟨htext, hdigit⟩ := result?_satisfy_eq_some hfirst
  split at h
  · obtain ⟨rfl, rfl⟩ := result?_pure_eq_some_iff.mp h
    exact ⟨htext, List.cons_ne_nil _ _, List.forall_mem_singleton.mpr hdigit⟩
  · obtain ⟨others, last, hothers, h⟩ := result?_bind_eq_some_iff.mp h
    obtain ⟨rfl, rfl⟩ := result?_pure_eq_some_iff.mp h
    cases hothers
    refine ⟨?_, List.cons_ne_nil _ _, List.forall_mem_cons.mpr ⟨hdigit, ?_⟩⟩
    · rw [htext, List.cons_append]
      exact congrArg _ List.takeWhile_append_dropWhile.symm
    · exact fun d hd => List.all_eq_true.mp List.all_takeWhile d hd

theorem result?_token_eq_some {kind : TokenKind} {lexeme : Reader (List Char)}
    {t : Token} (h : result? (token kind lexeme) c = some (t, c')) :
    ∃ (before after : Cursor) (cs : List Char), before.rest = skip c.rest ∧
      result? lexeme before = some (cs, after) ∧ c'.rest = skip after.rest ∧
      t.kind = kind.tag ∧ t.text = String.ofList cs := by
  obtain ⟨before, after, hbefore, hlexeme, hafter⟩ := result?_padded_eq_some h
  obtain ⟨⟨cs, span⟩, last, hcs, hlexeme⟩ := result?_bind_eq_some_iff.mp hlexeme
  obtain ⟨rfl, rfl⟩ := result?_pure_eq_some_iff.mp hlexeme
  exact ⟨before, after, cs, hbefore, result?_located_eq_some hcs, hafter,
    rfl, rfl⟩

end Reader

/-! ## Meaning of trees and parts -/

def Tree.Means (layer : Layer) (v : Value) (t : Tree) : Prop :=
  (RuleTable.ofLayer layer).value t = .ok v

def Part.Means (layer : Layer) (v : Value) (part : Part) : Prop :=
  (RuleTable.ofLayer layer).partValue part = .ok v

section

variable {ι κ : Type} {S : ι → κ → Prop} {x x' x'' : ι} {ys : List κ}

theorem forall₂_one (h : List.Forall₂ S [x] ys) : ∃ y, ys = [y] ∧ S x y := by
  obtain ⟨y, rest, hy, hrest, rfl⟩ := List.forall₂_cons_left_iff.mp h
  rw [List.forall₂_nil_left_iff.mp hrest]
  exact ⟨y, rfl, hy⟩

theorem forall₂_two (h : List.Forall₂ S [x, x'] ys) :
    ∃ y y', ys = [y, y'] ∧ S x y ∧ S x' y' := by
  obtain ⟨y, rest, hy, hrest, rfl⟩ := List.forall₂_cons_left_iff.mp h
  obtain ⟨y', rfl, hy'⟩ := forall₂_one hrest
  exact ⟨y, y', rfl, hy, hy'⟩

theorem forall₂_three (h : List.Forall₂ S [x, x', x''] ys) :
    ∃ y y' y'', ys = [y, y', y''] ∧ S x y ∧ S x' y' ∧ S x'' y'' := by
  obtain ⟨y, rest, hy, hrest, rfl⟩ := List.forall₂_cons_left_iff.mp h
  obtain ⟨y', y'', rfl, hy', hy''⟩ := forall₂_two hrest
  exact ⟨y, y', y'', rfl, hy, hy', hy''⟩

end

section

variable {layer : Layer}

theorem values_of_forall₂ {vs : List Value} {parts : List Part}
    (h : List.Forall₂ (Part.Means layer) vs parts) :
    (RuleTable.ofLayer layer).values parts = .ok vs := by
  induction h with
  | nil => exact RuleTable.values_nil
  | cons hpart _ ih =>
      exact RuleTable.values_cons_iff.mpr ⟨_, _, hpart, ih, rfl⟩

theorem Tree.means_node {rule : Rule} {vs : List Value} {v : Value}
    {parts : List Part} {span : Span}
    (hlayer : layer.includes rule.layer = true)
    (hparts : List.Forall₂ (Part.Means layer) vs parts)
    (hmakes : rule.Makes vs v) :
    Tree.Means layer v (.node rule.name parts span) := by
  apply RuleTable.value_node_iff.mpr
  refine ⟨vs, values_of_forall₂ hparts, ?_⟩
  exact RuleTable.ruleValue_ofLayer_iff.mpr ⟨rule, rfl, hlayer, hmakes⟩

end

/-! ## Numerals -/

namespace Numeral

variable {limit : Nat} {overflow : NumeralError}

theorem digit?_digitChar {d : Nat} (h : d < 10) :
    digit? d.digitChar = some d := by
  have hdigit : d.digitChar.isDigit = true := by
    simpa [Nat.isDigit_digitChar] using h
  rw [digit?, if_pos hdigit, Nat.toNat_digitChar_of_lt_ten h]
  simp

private theorem readDigits_append {value middle : Nat} {cs ds : List Char}
    (h : readDigits limit overflow value cs = .ok middle) :
    readDigits limit overflow value (cs ++ ds) =
      readDigits limit overflow middle ds := by
  induction cs generalizing value with
  | nil =>
      obtain rfl := Except.ok.inj h
      rfl
  | cons c cs ih =>
      simp only [readDigits] at h
      simp only [List.cons_append, readDigits]
      split at h
      · cases h
      · split at h
        · rename_i hlimit
          rw [if_pos hlimit]
          exact ih h
        · cases h

/-- The digits of a number are read back as long as the number is in range; so
is every number that stands before the last digit. -/
private theorem readDigits_toDigits {n : Nat} (h : n ≤ limit) :
    readDigits limit overflow 0 (Nat.toDigits 10 n) = .ok n := by
  induction n using Nat.strongRecOn with
  | ind n ih =>
      by_cases hn : n < 10
      · rw [Nat.toDigits_of_lt_base hn]
        simp [readDigits, digit?_digitChar hn, h]
      · have hrest : n / 10 < n := by omega
        have hmod : n % 10 < 10 := by omega
        have hvalue : n / 10 * 10 + n % 10 = n := by omega
        rw [Nat.toDigits_of_base_le (by omega) (by omega),
          readDigits_append (ih (n / 10) hrest (by omega))]
        simp [readDigits, digit?_digitChar hmod, hvalue, h]

private theorem read_toDigits {n : Nat} (h : n < signedLimit) :
    read (Nat.toDigits 10 n) = .ok (Int64.ofNat n) := by
  have hdigit : ∀ c ∈ Nat.toDigits 10 n, c.isDigit = true :=
    fun c hc => Nat.isDigit_of_mem_toDigits (by omega) (by omega) hc
  have hread : readMagnitude (signedLimit - 1) .tooLarge (Nat.toDigits 10 n) =
      .ok n := by
    unfold readMagnitude
    split
    · rename_i hnil
      exact absurd hnil Nat.toDigits_ne_nil
    · exact readDigits_toDigits (by omega)
  unfold read
  split
  · rename_i hnil
    exact absurd hnil Nat.toDigits_ne_nil
  · rename_i cs hcs
    have hsign := hdigit '-' (by simp [hcs])
    cases hsign
  · rename_i cs hcs
    have hsign := hdigit '+' (by simp [hcs])
    cases hsign
  · rw [hread]
    rfl

end Numeral

def signedBound (bound : Option UInt64) : Option Int64 :=
  bound.map fun b => Int64.ofNat b.toNat

def FitsSigned (bound : Option UInt64) : Prop :=
  ∀ b ∈ bound, b.toNat < Numeral.signedLimit

instance (bound : Option UInt64) : Decidable (FitsSigned bound) :=
  Option.decidableForallMem bound

theorem readBound?_signedBound {bound : Option UInt64} (h : FitsSigned bound) :
    readBound? (signedBound bound) = .ok bound := by
  cases bound with
  | none => rfl
  | some b =>
      have hvalue : (Int64.ofNat b.toNat).toInt = b.toNat :=
        Int64.toInt_ofNat_of_lt (h b rfl)
      have hsign : ¬ Int64.ofNat b.toNat < 0 := by
        rw [Int64.lt_iff_toInt_lt, hvalue]
        simp
      have hword : (Int64.ofNat b.toNat).toUInt64 = b :=
        show UInt64.ofNat b.toNat = b from UInt64.ofNat_toNat
      have hread : readBound (Int64.ofNat b.toNat) = .ok b := by
        rw [readBound, if_neg hsign, hword]
      simp only [signedBound, Option.map_some, readBound?, hread]
      rfl

theorem Interval.ofSigned_signedBound {i : Interval}
    (hstart : FitsSigned i.start) (hstop : FitsSigned i.stop) :
    Interval.ofSigned (signedBound i.start) (signedBound i.stop) = .ok i := by
  unfold Interval.ofSigned
  rw [readBound?_signedBound hstart, readBound?_signedBound hstop]
  exact Interval.ofBounds_eq_ok_iff.mpr ⟨rfl, rfl⟩

def Token.Shows (n : Nat) (t : Token) : Prop :=
  t.kind = TokenKind.integer.tag ∧ t.text = String.ofList (Nat.toDigits 10 n)

def Part.ShowsBound (bound : Option UInt64) (part : Part) : Prop :=
  match bound with
  | none => part = .absent
  | some b => ∃ t : Token, part = .token t ∧ t.Shows b.toNat

/-- A node with the bounds of the interval, which need not be in the range of
the reader. -/
def Tree.ShowsInterval (i : Interval) (t : Tree) : Prop :=
  ∃ parts span, t = .node Rule.interval.name parts span ∧
    List.Forall₂ Part.ShowsBound [i.start, i.stop] parts

def Part.ShowsInterval (i : Option Interval) (part : Part) : Prop :=
  match i with
  | none => part = .absent
  | some i => ∃ t : Tree, part = .tree t ∧ t.ShowsInterval i

section

variable {layer : Layer} {part : Part}

theorem Part.ShowsBound.means {bound : Option UInt64}
    (h : part.ShowsBound bound) (hbound : FitsSigned bound) :
    part.Means layer (.ofInteger? (signedBound bound)) := by
  cases bound with
  | none =>
      obtain rfl : part = .absent := h
      rfl
  | some b =>
      obtain ⟨t, rfl, hkind, htext⟩ := h
      show (RuleTable.ofLayer layer).tokenValue t = _
      rw [RuleTable.tokenValue_ofLayer, if_pos hkind, TokenHandler.integer,
        htext, String.toList_ofList, Numeral.read_toDigits (hbound b rfl)]
      rfl

theorem Tree.ShowsInterval.means {i : Interval} {t : Tree}
    (h : t.ShowsInterval i) (hstart : FitsSigned i.start)
    (hstop : FitsSigned i.stop) : t.Means layer (.interval i) := by
  obtain ⟨_, span, rfl, hparts⟩ := h
  obtain _ | ⟨hs, _ | ⟨ht, ⟨⟩⟩⟩ := hparts
  have hvalid := Interval.ofSigned_signedBound hstart hstop
  have hbase : layer.includes .base = true := layer.includes_base
  exact Tree.means_node hbase
    (.cons (hs.means hstart) (.cons (ht.means hstop) .nil))
    (.interval _ _ i hvalid)

theorem Part.ShowsInterval.means {i : Option Interval}
    (h : part.ShowsInterval i)
    (hbounds : ∀ j ∈ i, FitsSigned j.start ∧ FitsSigned j.stop) :
    part.Means layer (.ofInterval? i) := by
  cases i with
  | none =>
      obtain rfl : part = .absent := h
      rfl
  | some i =>
      obtain ⟨t, rfl, ht⟩ := h
      exact ht.means (hbounds i rfl).1 (hbounds i rfl).2

end

/-! ## Bounds and labels in a text -/

theorem intercalate_cons (separator x : List Char) (xs : List (List Char)) :
    separator.intercalate (x :: xs) = x ++ xs.flatMap (separator ++ ·) := by
  induction xs generalizing x with
  | nil => simp [List.intercalate]
  | cons y ys ih =>
      rw [List.flatMap_cons, List.append_assoc, ← ih y]
      simp [List.intercalate]

theorem isDigit_of_mem_toDigits {n : Nat} {c : Char}
    (h : c ∈ Nat.toDigits 10 n) : c.isDigit = true :=
  Nat.isDigit_of_mem_toDigits (by omega) (by omega) h

theorem toDigits_eq_cons (n : Nat) :
    ∃ c cs, Nat.toDigits 10 n = c :: cs ∧ c.isDigit = true := by
  cases h : Nat.toDigits 10 n with
  | nil => exact absurd h Nat.toDigits_ne_nil
  | cons c cs =>
      exact ⟨c, cs, rfl,
        isDigit_of_mem_toDigits (by rw [h]; exact List.mem_cons_self)⟩

theorem skip_digits (n : Nat) (rest : List Char) :
    skip (Nat.toDigits 10 n ++ rest) = Nat.toDigits 10 n ++ rest := by
  obtain ⟨c, cs, hdigits, hc⟩ := toDigits_eq_cons n
  rw [hdigits]
  exact skip_cons (isBlank_of_isDigit hc) _

private theorem toDigits_of_pos {n : Nat} (h : 0 < n) :
    ∃ c cs, Nat.toDigits 10 n = c :: cs ∧ c ≠ '0' := by
  induction n using Nat.strongRecOn with
  | ind n ih =>
      by_cases hn : n < 10
      · refine ⟨n.digitChar, [], Nat.toDigits_of_lt_base hn, ?_⟩
        rw [ne_eq, Nat.digitChar_eq_zero]
        omega
      · obtain ⟨c, cs, hdigits, hc⟩ := ih (n / 10) (by omega) (by omega)
        refine ⟨c, cs ++ [(n % 10).digitChar], ?_, hc⟩
        rw [Nat.toDigits_of_base_le (by omega) (by omega), hdigits]
        rfl

theorem skip_boundText (bound : Option UInt64) {c : Char}
    (hc : c = ',' ∨ c = ']') (rest : List Char) :
    skip (Interval.boundText bound ++ c :: rest) =
      Interval.boundText bound ++ c :: rest := by
  cases bound with
  | none => rcases hc with rfl | rfl <;> rfl
  | some b => exact skip_digits b.toNat _

namespace Reader

variable (layer : Layer) {input rest : List Char}

theorem takes_digits (n : Nat) (hrest : ∀ c ∈ rest.head?, c.isDigit = false) :
    Takes digits (Nat.toDigits 10 n ++ rest) (· = Nat.toDigits 10 n) rest := by
  rcases Nat.eq_zero_or_pos n with rfl | hpos
  · rw [Nat.toDigits_zero]
    apply (takes_satisfy (by decide)).bind
    rintro _ rfl
    exact takes_pure rfl
  · obtain ⟨c, cs, hdigits, hc⟩ := toDigits_of_pos hpos
    have hdigit : ∀ d ∈ c :: cs, d.isDigit = true := by
      intro d hd
      exact isDigit_of_mem_toDigits (by rwa [hdigits])
    rw [hdigits]
    apply (takes_satisfy (hdigit c List.mem_cons_self)).bind
    rintro _ rfl
    rw [if_neg hc]
    apply (takes_run_of_ends (fun d hd => hdigit d (List.mem_cons_of_mem _ hd))
      hrest).bind
    rintro _ rfl
    exact takes_pure rfl

theorem refuses_digits (h : ∀ c ∈ input.head?, c.isDigit = false) :
    Refuses digits input :=
  (refuses_satisfy h).bind

theorem takes_literalLexeme_digit {cs : List Char}
    (hdigit : cs = ['0'] ∨ cs = ['1'])
    (hrest : ∀ c ∈ rest.head?, c.isDigit = false) :
    Takes literalLexeme (cs ++ rest) (· = cs) rest := by
  have hdigits : Takes digits (cs ++ rest) (· = cs) rest := by
    rcases hdigit with rfl | rfl
    · exact takes_digits 0 hrest
    · exact takes_digits 1 hrest
  have hbit :
      Takes (check digits fun ds => ds == ['0'] || ds == ['1']) (cs ++ rest)
        (· = cs)
      rest := by
    apply hdigits.check
    rintro _ rfl
    simpa using hdigit
  have hword :
      Refuses (check identifier literalWords.contains) (cs ++ rest) := by
    apply Refuses.check
    apply refuses_identifier
    rcases hdigit with rfl | rfl <;> rintro _ ⟨⟩ <;> rfl
  exact hword.takes_orElse hbit

private theorem takes_signedDigits (n : Nat)
    (hrest : ∀ c ∈ rest.head?, c.isDigit = false) :
    Takes signedDigits (Nat.toDigits 10 n ++ rest)
      (· = Nat.toDigits 10 n) rest := by
  have hsign : Refuses (satisfy (· == '-')) (Nat.toDigits 10 n ++ rest) := by
    obtain ⟨c, cs, hdigits, hc⟩ := toDigits_eq_cons n
    rw [hdigits]
    apply refuses_satisfy
    rintro _ ⟨⟩
    rw [beq_eq_false_iff_ne]
    rintro rfl
    cases hc
  apply hsign.optional.bind
  rintro _ rfl
  apply (takes_digits n hrest).bind
  rintro _ rfl
  exact takes_pure rfl

theorem takes_integer (n : Nat) (hrest : ∀ c ∈ rest.head?, c.isDigit = false) :
    Takes integer (Nat.toDigits 10 n ++ rest) (Token.Shows n) (skip rest) := by
  have hdigits := takes_signedDigits n hrest
  rw [← skip_digits] at hdigits
  exact takes_token hdigits

theorem takes_bound (bound : Option UInt64) {c : Char}
    (hc : c = ',' ∨ c = ']') :
    Takes (optional integer) (Interval.boundText bound ++ c :: rest)
      (fun t => (Part.ofToken? t).ShowsBound bound) (c :: rest) := by
  have hskip : skip (c :: rest) = c :: rest := skip_boundText none hc rest
  have hdigit : c.isDigit = false ∧ (c == '-') = false := by
    rcases hc with rfl | rfl <;> decide
  cases bound with
  | none =>
      have hsigned : Refuses signedDigits (c :: rest) := by
        have hsign : Refuses (satisfy (· == '-')) (c :: rest) :=
          refuses_satisfy (by simpa using hdigit.2)
        apply hsign.optional.bind_refuses
        intro _ _
        exact (refuses_digits (by simpa using hdigit.1)).bind
      have hinteger : Refuses integer (c :: rest) := by
        apply Refuses.padded
        rw [hskip]
        exact hsigned.located.bind
      apply hinteger.optional.mono
      rintro _ rfl
      rfl
  | some b =>
      have hends : ∀ d ∈ (c :: rest).head?, d.isDigit = false := by
        simpa using hdigit.1
      have hinteger := takes_integer b.toNat hends
      rw [hskip] at hinteger
      apply hinteger.optional.mono
      rintro _ ⟨t, rfl, ht⟩
      exact ⟨t, rfl, ht⟩

private theorem takes_interval (i : Interval) :
    Takes interval (i.chars ++ rest) (Tree.ShowsInterval i) (skip rest) := by
  have hopen : Takes (symbol ['[']) (i.chars ++ rest) (fun _ => True)
      (Interval.boundText i.start ++
        ',' :: (Interval.boundText i.stop ++ ']' :: rest)) := by
    rw [← skip_boundText _ (Or.inl rfl)]
    apply takes_symbol
    simp only [Interval.chars, List.cons_append, List.append_assoc,
      List.nil_append]
    rfl
  have hcomma :
      Takes (symbol [',']) (',' :: (Interval.boundText i.stop ++ ']' :: rest))
      (fun _ => True) (Interval.boundText i.stop ++ ']' :: rest) := by
    have h :
        Takes (symbol [',']) (',' :: (Interval.boundText i.stop ++ ']' :: rest))
        (fun _ => True) (skip (Interval.boundText i.stop ++ ']' :: rest)) :=
      takes_symbol [','] _ rfl
    rwa [skip_boundText _ (Or.inr rfl)] at h
  have hclose :
      Takes (symbol [']']) (']' :: rest) (fun _ => True) (skip rest) :=
    takes_symbol [']'] rest rfl
  have hparts : Takes (located do
        symbol ['[']
        let start ← optional integer
        symbol [',']
        let stop ← optional integer
        symbol [']']
        return [Part.ofToken? start, Part.ofToken? stop]) (i.chars ++ rest)
      (fun found => List.Forall₂ Part.ShowsBound [i.start, i.stop] found.1)
      (skip rest) := by
    apply Takes.located
    refine hopen.bind fun _ _ => ?_
    refine (takes_bound i.start (Or.inl rfl)).bind fun start hs => ?_
    refine hcomma.bind fun _ _ => ?_
    refine (takes_bound i.stop (Or.inr rfl)).bind fun stop ht => ?_
    refine hclose.bind fun _ _ => ?_
    exact takes_pure (.cons hs (.cons ht .nil))
  apply hparts.bind
  rintro ⟨parts, span⟩ hparts
  exact takes_pure ⟨parts, span, rfl, hparts⟩

theorem refuses_interval (h : ∀ c ∈ (skip rest).head?, c ≠ '[') :
    Refuses interval rest := by
  have hsymbol : Refuses (symbol ['[']) rest := refuses_symbol h
  exact hsymbol.bind.located.bind

theorem takes_no_bounds (h : ∀ c ∈ (skip rest).head?, c ≠ '[') :
    Takes (optional interval) (skip rest) (· = none) (skip rest) :=
  (refuses_interval (by rwa [skip_skip])).optional

theorem takes_bounds (i : Option Interval)
    (hrest : ∀ c ∈ (skip rest).head?, c ≠ '[') :
    Takes (optional interval) (skip (Interval.charsOf i ++ rest))
      (fun t => (Part.ofTree? t).ShowsInterval i) (skip rest) := by
  cases i with
  | none =>
      apply (takes_no_bounds hrest).mono
      rintro _ rfl
      rfl
  | some i =>
      apply (takes_interval i).optional.mono
      rintro _ ⟨t, rfl, ht⟩
      exact ⟨t, rfl, ht⟩

theorem takes_steps (count : Option UInt64)
    (hrest : ∀ c ∈ (skip rest).head?, c ≠ '[') :
    Takes (optional steps) (skip (stepsChars count ++ rest))
      (fun t => (Part.ofToken? t).ShowsBound count) (skip rest) := by
  cases count with
  | none =>
      have hsteps : Refuses steps (skip rest) := by
        have hsymbol : Refuses (symbol ['[']) (skip rest) :=
          refuses_symbol (by rwa [skip_skip])
        exact hsymbol.bind
      apply hsteps.optional.mono
      rintro _ rfl
      rfl
  | some n =>
      have htext : skip (stepsChars (some n) ++ rest) =
          '[' :: (Nat.toDigits 10 n.toNat ++ ']' :: rest) := by
        simp only [stepsChars, List.cons_append, List.append_assoc,
          List.nil_append]
        rfl
      have hopen :
          Takes (symbol ['[']) (skip (stepsChars (some n) ++ rest))
            (fun _ => True)
          (Nat.toDigits 10 n.toNat ++ ']' :: rest) := by
        rw [← skip_digits]
        apply takes_symbol
        rw [skip_skip, htext]
        rfl
      have hends : ∀ c ∈ (']' :: rest).head?, c.isDigit = false := by
        rintro _ ⟨⟩
        rfl
      have hclose :
          Takes (symbol [']']) (skip (']' :: rest)) (fun _ => True)
            (skip rest) :=
        takes_symbol [']'] rest rfl
      have hsteps :
          Takes steps (skip (stepsChars (some n) ++ rest)) (Token.Shows n.toNat)
          (skip rest) := by
        refine hopen.bind fun _ _ => ?_
        refine (takes_integer n.toNat hends).bind fun t ht => ?_
        refine hclose.bind fun _ _ => ?_
        exact takes_pure ht
      apply hsteps.optional.mono
      rintro _ ⟨t, rfl, ht⟩
      exact ⟨t, rfl, ht⟩

theorem means_name {layer : Layer} {name : String} {t : Token}
    (hkind : t.kind = TokenKind.name.tag)
    (htext : t.text = String.ofList name.toList) :
    Part.Means layer (.name name) (.token t) := by
  show (RuleTable.ofLayer layer).tokenValue t = _
  rw [RuleTable.tokenValue_ofLayer, hkind, htext, String.ofList_toList]
  rfl

theorem takes_label {label : String} (h : isIdentifier label.toList = true)
    (hrest : EndsName rest) :
    Takes (token .name identifier) (label.toList ++ rest)
      (fun t => Part.Means layer (.name label) (.token t)) (skip rest) := by
  have hword := takes_identifier h hrest
  rw [← skip_word h rest] at hword
  have htoken : Takes (token .name identifier) (label.toList ++ rest)
      (fun t => t.kind = TokenKind.name.tag ∧
        t.text = String.ofList label.toList) (skip rest) :=
    takes_token hword
  apply htoken.mono
  rintro t ⟨hkind, htext⟩
  exact means_name hkind htext

private theorem takesMany_labels {labels : List String}
    (h : ∀ label ∈ labels, isIdentifier label.toList = true) :
    TakesMany (do symbol [',']; token .name identifier)
      (skip (labels.flatMap (fun label => ',' :: label.toList) ++ '}' :: rest))
      (List.Forall₂ (fun label t => Part.Means layer (.name label) (.token t))
        labels)
      (skip ('}' :: rest)) := by
  apply takesMany_of_items EndsName
  · intro label hlabel tail htail
    have hword := h label hlabel
    have hcomma :
        Takes (symbol [',']) (skip (',' :: label.toList ++ tail))
          (fun _ => True)
        (label.toList ++ tail) := by
      rw [← skip_word hword]
      exact takes_symbol [','] _ rfl
    exact hcomma.bind fun _ _ => takes_label layer hword htail
  · rintro label _ tail _ ⟨⟩
    rfl
  · intro label _ tail
    have hlength := length_skip_le tail
    have hskip :
        skip (',' :: label.toList ++ tail) = ',' :: label.toList ++ tail := rfl
    rw [hskip, List.length_append, List.length_cons]
    omega
  · rintro _ ⟨⟩
    rfl
  · have hcomma : Refuses (symbol [',']) (skip ('}' :: rest)) :=
      refuses_symbol (by rintro _ ⟨⟩; decide)
    exact hcomma.bind

theorem takes_graphList {labels : LabelSet}
    (hlayer : layer.includes .stlGo = true) (hne : labels.isEmpty = false)
    (h : ∀ label ∈ labels, isIdentifier label.toList = true) :
    Takes graphList (labels.chars ++ rest) (Tree.Means layer (.labels labels))
      (skip rest) := by
  cases hnames : labels.names with
  | nil => simp [LabelSet.isEmpty, hnames] at hne
  | cons first others =>
      have hfirst : isIdentifier first.toList = true :=
        h first (by show first ∈ labels.names; simp [hnames])
      have hothers : ∀ label ∈ others, isIdentifier label.toList = true :=
        fun label hlabel =>
          h label (by show label ∈ labels.names; simp [hnames, hlabel])
      have hends :
          EndsName
            (others.flatMap (fun label => ',' :: label.toList) ++
            '}' :: rest) := by
        cases others <;> rintro _ ⟨⟩ <;> rfl
      have hopen : Takes (symbol ['{']) (labels.chars ++ rest) (fun _ => True)
          (first.toList ++
            (others.flatMap (fun label => ',' :: label.toList) ++
              '}' :: rest)) := by
        rw [← skip_word hfirst]
        apply takes_symbol
        simp only [LabelSet.chars, hnames, List.map_cons, intercalate_cons,
          List.flatMap_map, List.append_assoc, List.cons_append,
          List.nil_append]
        rfl
      have hclose :
          Takes (symbol ['}']) (skip ('}' :: rest)) (fun _ => True)
            (skip rest) :=
        takes_symbol ['}'] rest rfl
      have hlist : Takes (do
            symbol ['{']
            let names ← sepBy (token .name identifier) (symbol [','])
            symbol ['}']
            return names) (labels.chars ++ rest)
          (fun found => List.Forall₂ (Part.Means layer) (labels.names.map .name)
            ((found.1 :: found.2).map .token)) (skip rest) := by
        have hnamed :=
          (takes_label layer hfirst hends).sepBy
            (takesMany_labels layer hothers)
        refine hopen.bind fun _ _ => ?_
        refine hnamed.bind fun names hmeans => ?_
        refine hclose.bind fun _ _ => ?_
        apply takes_pure
        rw [hnames, List.forall₂_map_left_iff, List.forall₂_map_right_iff]
        exact .cons hmeans.1 hmeans.2
      apply hlist.located.bind
      rintro ⟨⟨t, ts⟩, span⟩ hparts
      have hmakes :
          Rule.graphList.Makes (labels.names.map .name) (.labels labels) := by
        have hlist := Rule.Makes.graphList labels.names
        rwa [LabelSet.ofList_names] at hlist
      exact takes_pure (Tree.means_node hlayer hparts hmakes)

end Reader

end LayeredLogic
