import LayeredLogic.Grammar.Lexeme
import Mathlib.Data.List.Forall2

/-!
# What readers take

A reader takes a value off a text when it does so wherever the text stands in
its source, and it refuses the text when it gives nothing there.  There is a
rule for every way of building a reader, so that what a grammar reads can be
derived along its productions.
-/

namespace LayeredLogic

def skip (cs : List Char) : List Char := cs.dropWhile isBlank

@[simp] theorem skip_nil : skip [] = [] := rfl

@[simp] theorem skip_space (cs : List Char) : skip (' ' :: cs) = skip cs := rfl

theorem skip_cons {c : Char} (h : isBlank c = false) (cs : List Char) :
    skip (c :: cs) = c :: cs := by
  simp [skip, h]

@[simp] theorem skip_skip (cs : List Char) : skip (skip cs) = skip cs := by
  unfold skip
  induction cs with
  | nil => rfl
  | cons c cs ih =>
      cases h : isBlank c with
      | true => simpa [h] using ih
      | false => simp [h]

theorem length_skip_le (cs : List Char) : (skip cs).length ≤ cs.length :=
  (List.dropWhile_sublist isBlank).length_le

theorem mem_of_mem_skip {c : Char} {cs : List Char} (h : c ∈ skip cs) :
    c ∈ cs :=
  (List.dropWhile_sublist isBlank).mem h

namespace Reader

variable {α β : Type} {p q : Reader α} {f : α → Reader β} {P Q : α → Prop}
  {R : β → Prop} {input middle rest : List Char}

/-- The reader takes a value with the property off the input and leaves the
rest. -/
def Takes (p : Reader α) (input : List Char) (P : α → Prop) (rest : List Char) :
    Prop :=
  ∀ offset, ∃ a stop, result? p ⟨offset, input⟩ = some (a, ⟨stop, rest⟩) ∧ P a

def Refuses (p : Reader α) (input : List Char) : Prop :=
  ∀ offset, result? p ⟨offset, input⟩ = none

theorem Takes.mono (h : Takes p input P rest) (hPQ : ∀ a, P a → Q a) :
    Takes p input Q rest := by
  intro offset
  obtain ⟨a, stop, ha, hP⟩ := h offset
  exact ⟨a, stop, ha, hPQ a hP⟩

/-! ## Combinators -/

theorem takes_pure {a : α} (h : P a) : Takes (pure a) input P input :=
  fun offset => ⟨a, offset, rfl, h⟩

theorem Takes.bind (h : Takes p input P middle)
    (hf : ∀ a, P a → Takes (f a) middle R rest) :
    Takes (p >>= f) input R rest := by
  intro offset
  obtain ⟨a, stop, ha, hP⟩ := h offset
  obtain ⟨b, stop', hb, hR⟩ := hf a hP stop
  refine ⟨b, stop', ?_, hR⟩
  rw [result?_bind, ha]
  exact hb

theorem Refuses.bind (h : Refuses p input) : Refuses (p >>= f) input := by
  intro offset
  rw [result?_bind, h offset]
  rfl

theorem Takes.bind_refuses (h : Takes p input P middle)
    (hf : ∀ a, P a → Refuses (f a) middle) : Refuses (p >>= f) input := by
  intro offset
  obtain ⟨a, stop, ha, hP⟩ := h offset
  rw [result?_bind, ha]
  exact hf a hP stop

theorem Takes.located (h : Takes p input P rest) :
    Takes (located p) input (fun found => P found.1) rest := by
  intro offset
  obtain ⟨a, stop, ha, hP⟩ := h offset
  refine ⟨(a, ⟨offset, stop⟩), stop, ?_, hP⟩
  rw [result?_located, ha]
  rfl

theorem Refuses.located (h : Refuses p input) : Refuses (located p) input := by
  intro offset
  rw [result?_located, h offset]
  rfl

theorem takes_finish : Takes finish [] (fun _ => True) [] :=
  fun offset => ⟨(), offset, rfl, trivial⟩

theorem Takes.orElse (h : Takes p input P rest) :
    Takes (orElse p q) input P rest := by
  intro offset
  obtain ⟨a, stop, ha, hP⟩ := h offset
  refine ⟨a, stop, ?_, hP⟩
  rw [result?_orElse, ha]
  rfl

theorem Refuses.takes_orElse (h : Refuses p input) (hq : Takes q input P rest) :
    Takes (orElse p q) input P rest := by
  intro offset
  obtain ⟨a, stop, ha, hP⟩ := hq offset
  refine ⟨a, stop, ?_, hP⟩
  rw [result?_orElse, h offset, ha]
  rfl

theorem Refuses.orElse (h : Refuses p input) (hq : Refuses q input) :
    Refuses (orElse p q) input := by
  intro offset
  rw [result?_orElse, h offset, hq offset]
  rfl

theorem takes_firstOf {before after : List (Reader α)}
    (h : ∀ q ∈ before, Refuses q input) (hp : Takes p input P rest) :
    Takes (firstOf (before ++ p :: after)) input P rest := by
  induction before with
  | nil => exact hp.orElse
  | cons q before ih =>
      have hq : Refuses q input := h q List.mem_cons_self
      exact hq.takes_orElse (ih fun r hr => h r (List.mem_cons_of_mem _ hr))

theorem refuses_firstOf {ps : List (Reader α)} (h : ∀ p ∈ ps, Refuses p input) :
    Refuses (firstOf ps) input := by
  induction ps with
  | nil => exact fun _ => rfl
  | cons p ps ih =>
      have hp : Refuses p input := h p List.mem_cons_self
      exact hp.orElse (ih fun q hq => h q (List.mem_cons_of_mem _ hq))

theorem Takes.optional (h : Takes p input P rest) :
    Takes (optional p) input (fun found => ∃ a, found = some a ∧ P a) rest := by
  intro offset
  obtain ⟨a, stop, ha, hP⟩ := h offset
  refine ⟨some a, stop, ?_, a, rfl, hP⟩
  rw [result?_optional, ha]

theorem Refuses.optional (h : Refuses p input) :
    Takes (optional p) input (· = none) input := by
  intro offset
  refine ⟨none, offset, ?_, rfl⟩
  rw [result?_optional, h offset]

theorem Takes.check {ok : α → Bool} (h : Takes p input P rest)
    (hok : ∀ a, P a → ok a = true) : Takes (check p ok) input P rest := by
  intro offset
  obtain ⟨a, stop, ha, hP⟩ := h offset
  refine ⟨a, stop, ?_, hP⟩
  rw [result?_check, ha]
  simp [Option.filter, hok a hP]

theorem Takes.check_refuses {ok : α → Bool} (h : Takes p input P rest)
    (hok : ∀ a, P a → ok a = false) : Refuses (Reader.check p ok) input := by
  intro offset
  obtain ⟨a, stop, ha, hP⟩ := h offset
  rw [result?_check, ha]
  simp [Option.filter, hok a hP]

theorem Refuses.check {ok : α → Bool} (h : Refuses p input) :
    Refuses (check p ok) input := by
  intro offset
  rw [result?_check, h offset]
  rfl

theorem takes_run (ok : Char → Bool) :
    Takes (run ok) input (· = input.takeWhile ok) (input.dropWhile ok) :=
  fun _ => ⟨_, _, rfl, rfl⟩

theorem takes_satisfy {ok : Char → Bool} {c : Char} (h : ok c = true) :
    Takes (satisfy ok) (c :: rest) (· = c) rest := by
  intro offset
  refine ⟨c, offset + c.utf8Size, ?_, rfl⟩
  rw [result?_satisfy_cons, if_pos h]

theorem refuses_satisfy {ok : Char → Bool}
    (h : ∀ c ∈ input.head?, ok c = false) : Refuses (satisfy ok) input := by
  intro offset
  cases input with
  | nil => rfl
  | cons c cs =>
      have hc : ok c = false := h c rfl
      simp [hc]

theorem takes_exactly (cs : List Char) :
    Takes (exactly cs) (cs ++ rest) (fun _ => True) rest := by
  induction cs with
  | nil => exact takes_pure trivial
  | cons c cs ih =>
      have hc :
          Takes (satisfy (· == c)) (c :: (cs ++ rest)) (· = c) (cs ++ rest) :=
        takes_satisfy (beq_self_eq_true c)
      exact hc.bind fun _ _ => ih

theorem refuses_exactly {c : Char} {cs : List Char}
    (h : ∀ d ∈ input.head?, d ≠ c) : Refuses (exactly (c :: cs)) input := by
  have hc : Refuses (satisfy (· == c)) input :=
    refuses_satisfy fun d hd => beq_eq_false_iff_ne.mpr (h d hd)
  exact hc.bind

theorem Takes.padded (h : Takes p (skip input) P rest) :
    Takes (padded p) input P (skip rest) := by
  have hbefore :
      Takes (run isBlank) input (· = input.takeWhile isBlank) (skip input) :=
    takes_run isBlank
  have hafter :
      Takes (run isBlank) rest (· = rest.takeWhile isBlank) (skip rest) :=
    takes_run isBlank
  exact hbefore.bind fun _ _ =>
    h.bind fun _ ha => hafter.bind fun _ _ => takes_pure ha

theorem Refuses.padded (h : Refuses p (skip input)) :
    Refuses (padded p) input := by
  have hbefore :
      Takes (run isBlank) input (· = input.takeWhile isBlank) (skip input) :=
    takes_run isBlank
  exact hbefore.bind_refuses fun _ _ => h.bind

def TakesMany (p : Reader α) (input : List Char) (S : List α → Prop)
    (rest : List Char) : Prop :=
  ∀ n, input.length ≤ n → Takes (upTo p n) input S rest

theorem Refuses.takesMany (h : Refuses p input) :
    TakesMany p input (· = []) input := by
  intro n _ offset
  refine ⟨[], offset, ?_, rfl⟩
  cases n with
  | zero => rfl
  | succ n => rw [result?_upTo_succ, h offset]

theorem Takes.takesMany {S : List α → Prop} (h : Takes p input P middle)
    (hlength : middle.length < input.length)
    (hmany : TakesMany p middle S rest) :
    TakesMany p input (fun found => ∃ a as, found = a :: as ∧ P a ∧ S as)
      rest := by
  intro n hn offset
  obtain ⟨n, rfl⟩ : ∃ m, n = m + 1 := ⟨n - 1, by omega⟩
  obtain ⟨a, stop, ha, hP⟩ := h offset
  obtain ⟨as, stop', has, hS⟩ := hmany n (by omega) stop
  refine ⟨a :: as, stop', ?_, a, as, rfl, hP, hS⟩
  rw [result?_upTo_succ, ha]
  simp [has]

theorem TakesMany.many {S : List α → Prop} (h : TakesMany p input S rest) :
    Takes (many p) input S rest :=
  fun offset => h input.length (Nat.le_refl _) offset

theorem Takes.sepBy {separator : Reader Unit} {S : List α → Prop}
    (h : Takes p input P middle)
    (hmany : TakesMany (do separator; p) middle S rest) :
    Takes (sepBy p separator) input (fun found => P found.1 ∧ S found.2) rest :=
  h.bind fun _ ha => hmany.many.bind fun _ has => takes_pure ⟨ha, has⟩

/-- Items that are read one after the other as long as their texts last.  Where
an item ends may depend on the text behind it, of which `Follows` says what is
needed. -/
theorem takesMany_of_items {ι : Type} (Follows : List Char → Prop)
    {items : List ι} {text : ι → List Char} {S : ι → α → Prop}
    (hitem : ∀ x ∈ items,
      ∀ tail, Follows tail → Takes p (skip (text x ++ tail)) (S x) (skip tail))
    (hfollows : ∀ x ∈ items, ∀ tail, Follows (text x ++ tail))
    (hlength :
      ∀ x ∈ items, ∀ tail, (skip tail).length < (skip (text x ++ tail)).length)
    (hstop : Follows rest) (hrest : Refuses p (skip rest)) :
    TakesMany p (skip (items.flatMap text ++ rest)) (List.Forall₂ S items)
      (skip rest) := by
  induction items with
  | nil =>
      intro n hn
      apply (hrest.takesMany n hn).mono
      rintro _ rfl
      exact .nil
  | cons x items ih =>
      have htail : Follows (items.flatMap text ++ rest) := by
        cases items with
        | nil => exact hstop
        | cons y items =>
            rw [List.flatMap_cons, List.append_assoc]
            exact hfollows y (by simp) _
      have hmany := ih (fun y hy => hitem y (List.mem_cons_of_mem _ hy))
        (fun y hy => hfollows y (List.mem_cons_of_mem _ hy))
        (fun y hy => hlength y (List.mem_cons_of_mem _ hy))
      rw [List.flatMap_cons, List.append_assoc]
      intro n hn
      have hfirst := hitem x List.mem_cons_self _ htail
      apply (hfirst.takesMany (hlength x List.mem_cons_self _) hmany n hn).mono
      rintro _ ⟨a, as, rfl, ha, has⟩
      exact .cons ha has

/-! ## What a result tells of its reader -/

variable {c c' : Cursor} {a : α}

theorem result?_bind_eq_some_iff {b : β} :
    result? (p >>= f) c = some (b, c') ↔
      ∃ a middle, result? p c = some (a, middle) ∧
      result? (f a) middle = some (b, c') := by
  rw [result?_bind, Option.bind_eq_some_iff]
  constructor
  · rintro ⟨⟨a, middle⟩, ha, hb⟩
    exact ⟨a, middle, ha, hb⟩
  · rintro ⟨a, middle, ha, hb⟩
    exact ⟨(a, middle), ha, hb⟩

theorem result?_pure_eq_some_iff {b : α} :
    result? (pure a) c = some (b, c') ↔ b = a ∧ c' = c := by
  rw [result?_pure]
  simp [eq_comm]

theorem result?_check_eq_some_iff {ok : α → Bool} :
    result? (check p ok) c = some (a, c') ↔ result? p c = some (a, c') ∧
    ok a = true := by
  rw [result?_check, Option.filter_eq_some_iff]

theorem result?_orElse_eq_some {r : α × Cursor}
    (h : result? (orElse p q) c = some r) :
    result? p c = some r ∨ result? q c = some r := by
  rw [result?_orElse, Option.or_eq_some_iff] at h
  exact h.imp_right And.right

theorem result?_firstOf_eq_some {ps : List (Reader α)} {r : α × Cursor}
    (h : result? (firstOf ps) c = some r) : ∃ p ∈ ps, result? p c = some r := by
  induction ps with
  | nil => cases h
  | cons p ps ih =>
      rcases result?_orElse_eq_some h with h | h
      · exact ⟨p, List.mem_cons_self, h⟩
      · obtain ⟨q, hq, hr⟩ := ih h
        exact ⟨q, List.mem_cons_of_mem _ hq, hr⟩

theorem result?_satisfy_eq_some {ok : Char → Bool} {x : Char}
    (h : result? (satisfy ok) c = some (x, c')) :
    c.rest = x :: c'.rest ∧ ok x = true := by
  obtain ⟨offset, rest⟩ := c
  cases rest with
  | nil => cases h
  | cons y rest =>
      rw [result?_satisfy_cons] at h
      split at h
      · rename_i hy
        cases h
        exact ⟨rfl, hy⟩
      · cases h

theorem result?_exactly_eq_some {cs : List Char} {u : Unit}
    (h : result? (exactly cs) c = some (u, c')) : c.rest = cs ++ c'.rest := by
  induction cs generalizing c with
  | nil =>
      obtain ⟨-, rfl⟩ := result?_pure_eq_some_iff.mp h
      rfl
  | cons x cs ih =>
      obtain ⟨y, middle, hy, hrest⟩ := result?_bind_eq_some_iff.mp h
      obtain ⟨htext, hyx⟩ := result?_satisfy_eq_some hy
      rw [htext, ih hrest, eq_of_beq hyx]
      rfl

theorem result?_located_eq_some {found : α × Span}
    (h : result? (located p) c = some (found, c')) :
    result? p c = some (found.1, c') := by
  rw [result?_located, Option.map_eq_some_iff] at h
  obtain ⟨⟨a, middle⟩, ha, hfound⟩ := h
  cases hfound
  exact ha

theorem result?_padded_eq_some (h : result? (padded p) c = some (a, c')) :
    ∃ before after : Cursor, before.rest = skip c.rest ∧
    result? p before = some (a, after) ∧
      c'.rest = skip after.rest := by
  obtain ⟨_, before, hbefore, h⟩ := result?_bind_eq_some_iff.mp h
  obtain ⟨b, after, hp, h⟩ := result?_bind_eq_some_iff.mp h
  obtain ⟨_, last, hlast, h⟩ := result?_bind_eq_some_iff.mp h
  obtain ⟨rfl, rfl⟩ := result?_pure_eq_some_iff.mp h
  cases hbefore
  cases hlast
  exact ⟨_, after, rfl, hp, rfl⟩

/-- Every result of the reader has the property, which is about where the reader
began, what it gave and where it stopped. -/
def Tells (p : Reader α) (S : Cursor → α → Cursor → Prop) : Prop :=
  ∀ c a c', result? p c = some (a, c') → S c a c'

variable {S : Cursor → α → Cursor → Prop}

theorem Tells.orElse (hp : Tells p S) (hq : Tells q S) :
    Tells (orElse p q) S := by
  intro c a c' h
  rcases result?_orElse_eq_some h with h | h
  · exact hp c a c' h
  · exact hq c a c' h

theorem tells_firstOf {ps : List (Reader α)} (h : ∀ p ∈ ps, Tells p S) :
    Tells (firstOf ps) S := by
  intro c a c' hresult
  obtain ⟨p, hp, hresult⟩ := result?_firstOf_eq_some hresult
  exact h p hp c a c' hresult

theorem Tells.check {ok : α → Bool} (h : Tells p S) : Tells (check p ok) S := by
  intro c a c' hresult
  exact h c a c' (result?_check_eq_some_iff.mp hresult).1

theorem Tells.located (h : Tells p S) :
    Tells (located p) fun c found c' => S c found.1 c' := by
  intro c found c' hresult
  exact h c found.1 c' (result?_located_eq_some hresult)

end Reader

end LayeredLogic
