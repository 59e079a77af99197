import LayeredLogic.Proofs.Simulation
import LayeredLogic.Proofs.Derivation

/-!
# Texts in parentheses

A text that is read alone closes all parentheses and quoted names that it opens.
So whatever is tried on the way does not run past its end when a parenthesis
stands there, and the text is read inside parentheses as it is read alone.
-/

namespace LayeredLogic

/-! ## Closed texts -/

inductive Quoting where
  | outside
  | inside
  | escaped

/-- With the given number of parentheses open at its front, the text closes
these and whatever it opens itself, and nothing else. -/
def Closes : Quoting → Nat → List Char → Prop
  | .outside, n, [] => n = 0
  | .inside, _, [] | .escaped, _, [] => False
  | .outside, n, c :: cs =>
      if c = '(' then Closes .outside (n + 1) cs
      else if c = ')' then 0 < n ∧ Closes .outside (n - 1) cs
      else if c = '"' then Closes .inside n cs
      else Closes .outside n cs
  | .inside, n, c :: cs =>
      if c = '\\' then Closes .escaped n cs
      else if c = '"' then Closes .outside n cs
      else Closes .inside n cs
  | .escaped, n, _ :: cs => Closes .inside n cs

section

variable {n : Nat} {c : Char} {cs : List Char}

theorem closes_outside_cons :
    Closes .outside n (c :: cs) ↔
      if c = '(' then Closes .outside (n + 1) cs
      else if c = ')' then 0 < n ∧ Closes .outside (n - 1) cs
      else if c = '"' then Closes .inside n cs
      else Closes .outside n cs := Iff.rfl

theorem closes_inside_cons :
    Closes .inside n (c :: cs) ↔
      if c = '\\' then Closes .escaped n cs
      else if c = '"' then Closes .outside n cs
      else Closes .inside n cs := Iff.rfl

private theorem closes_escaped_cons :
    Closes .escaped n (c :: cs) ↔ Closes .inside n cs := Iff.rfl

theorem closes_opening :
    Closes .outside n ('(' :: cs) ↔ Closes .outside (n + 1) cs := by
  simp [closes_outside_cons]

theorem closes_closing :
    Closes .outside (n + 1) (')' :: cs) ↔ Closes .outside n cs := by
  simp [closes_outside_cons]

theorem closes_quote : Closes .outside n ('"' :: cs) ↔ Closes .inside n cs := by
  simp [closes_outside_cons]

theorem closes_unquote :
    Closes .inside n ('"' :: cs) ↔ Closes .outside n cs := by
  simp [closes_inside_cons]

theorem closes_inert (h : c ≠ '(' ∧ c ≠ ')' ∧ c ≠ '"') :
    Closes .outside n (c :: cs) ↔ Closes .outside n cs := by
  simp [closes_outside_cons, h]

private theorem closes_quotedItem {item : List Char}
    (h : Nesting.QuotedItem item) :
    Closes .inside n (item ++ cs) ↔ Closes .inside n cs := by
  rcases h with ⟨x, rfl⟩ | ⟨x, rfl, hslash, hquote⟩
  · simp [closes_inside_cons, closes_escaped_cons]
  · simp [closes_inside_cons, hslash, hquote]

private theorem closes_quotedItems {items : List (List Char)}
    (h : ∀ item ∈ items, Nesting.QuotedItem item) :
    Closes .inside n (items.flatten ++ '"' :: cs) ↔ Closes .outside n cs := by
  induction items with
  | nil => exact closes_unquote
  | cons item items ih =>
      obtain ⟨hitem, hitems⟩ := List.forall_mem_cons.mp h
      rw [List.flatten_cons, List.append_assoc, closes_quotedItem hitem,
        ih hitems]

end

theorem closes_inerts {n : Nat} {s rest : List Char}
    (hs : ∀ c ∈ s, c ≠ '(' ∧ c ≠ ')' ∧ c ≠ '"') :
    Closes .outside n (s ++ rest) ↔ Closes .outside n rest := by
  induction s with
  | nil => rfl
  | cons c s ih =>
      obtain ⟨hc, hs⟩ := List.forall_mem_cons.mp hs
      exact (closes_inert hc).trans (ih hs)

theorem inert_of_not_mem_delimiters {c : Char} (h : c ∉ delimiters) :
    c ≠ '(' ∧ c ≠ ')' ∧ c ≠ '"' := by
  refine ⟨?_, ?_, ?_⟩ <;> rintro rfl <;> exact h (by decide)

theorem closes_between {n : Nat} {opening closing : Char} {s rest : List Char}
    (hs : ∀ c ∈ s, c ∉ delimiters)
    (hends : ∀ c ∈ [opening, closing], c ≠ '(' ∧ c ≠ ')' ∧ c ≠ '"') :
    Closes .outside n (opening :: s ++ [closing] ++ rest) ↔
    Closes .outside n rest := by
  apply closes_inerts
  intro c hc
  rw [List.cons_append, List.mem_cons, List.mem_append, List.mem_singleton]
    at hc
  rcases hc with rfl | hc | rfl
  · exact hends _ List.mem_cons_self
  · exact inert_of_not_mem_delimiters (hs c hc)
  · exact hends _ (List.mem_cons_of_mem _ List.mem_cons_self)

theorem layout_closes :
    Layout fun s =>
      ∀ n rest, Closes .outside n (s ++ rest) ↔ Closes .outside n rest where
  nil _ _ := Iff.rfl
  append hs ht n rest := by rw [List.append_assoc, hs, ht]
  plain hc n rest := closes_inert (inert_of_not_mem_delimiters hc)
  brackets hs n rest := closes_between hs (by decide)
  braces hs n rest := closes_between hs (by decide)
  quoted h n rest := by
    rw [List.cons_append, List.cons_append, List.append_assoc]
    exact closes_quote.trans (closes_quotedItems h)
  group hs n rest := by
    rw [List.cons_append, List.cons_append, List.append_assoc,
      closes_opening, hs]
    exact closes_closing

theorem closes_skip_iff {n : Nat} {cs : List Char} :
    Closes .outside n (skip cs) ↔ Closes .outside n cs := by
  have hall : ∀ c ∈ cs.takeWhile isBlank, isBlank c = true :=
    List.all_eq_true.mp List.all_takeWhile
  have hblank := layout_closes.blank hall n (skip cs)
  rw [skip, List.takeWhile_append_dropWhile] at hblank
  exact hblank.symm

private theorem Tree.outline_shift (n : Nat) (t : Tree) :
    (t.shift n).outline = t.outline := by
  induction t using Tree.induct with
  | node rule parts span ih =>
      have hparts : Tree.outlineOfParts (parts.map (.shift n)) =
          Tree.outlineOfParts parts := by
        induction parts with
        | nil => rfl
        | cons part parts ihparts =>
            have hrest := ihparts fun t ht => ih t (List.mem_cons_of_mem _ ht)
            cases part with
            | tree t =>
                rw [List.map_cons, Part.shift_tree, outlineOfParts,
                  outlineOfParts, hrest, ih t List.mem_cons_self]
            | token t =>
                rw [List.map_cons, Part.shift_token, outlineOfParts, hrest]; rfl
            | absent =>
                rw [List.map_cons, Part.shift, outlineOfParts, hrest]; rfl
      rw [Tree.shift_node, outline, outline, hparts]

namespace Reader

variable {layer : Layer} {c c' : Cursor} {t : Tree} {tail : List Char}

private theorem closes_of_sentence
    (h : result? (sentence layer) c = some (t, c')) :
    Closes .outside 0 c.rest := by
  obtain ⟨before, after, hbefore, hformula, hafter⟩ :=
    result?_sentence_eq_some h
  obtain ⟨taken, htaken, hrest⟩ :=
    layout_closes.formula (layout_closes.operand _) before t after hformula
  rw [hbefore] at hrest
  rw [← closes_skip_iff, hrest, htaken, ← closes_skip_iff, hafter]
  rfl

/-! ## Simulation -/

def Pending (quoting : Quoting) (n k : Nat) (cs : List Char) : Prop :=
  Closes quoting n cs ∧ cs.length < k

section

variable {frame : Frame} {n k : Nat}

theorem mirrors_satisfy_inside {quoting : Quoting} {ok : Char → Bool}
    (hopen : ¬ Closes quoting n []) {R : List Char → Prop}
    (h : ∀ x cs, Closes quoting n (x :: cs) → ok x = true →
      cs.length < k → R cs) :
    Mirrors frame (Pending quoting n k) R id (satisfy ok) (satisfy ok) :=
  mirrors_satisfy (fun hnil => absurd hnil.1 hopen)
    fun x cs hcs hx => h x cs hcs.1 hx (Nat.lt_of_succ_lt hcs.2)

private theorem mirrors_quotedItem :
    Mirrors frame (Pending .inside n k) (Pending .inside n k) id quotedItem
      quotedItem := by
  have hslash : Mirrors frame (Pending .inside n k) (Pending .escaped n k) id
      (satisfy (· == '\\')) (satisfy (· == '\\')) := by
    apply mirrors_satisfy_inside id
    intro x cs hcs hx hlength
    obtain rfl := eq_of_beq hx
    exact ⟨by simpa [closes_inside_cons] using hcs, hlength⟩
  have hescaped : Mirrors frame (Pending .escaped n k) (Pending .inside n k) id
      (satisfy fun _ => true) (satisfy fun _ => true) :=
    mirrors_satisfy_inside id fun _ _ hcs _ hlength => ⟨hcs, hlength⟩
  have hplain : Mirrors frame (Pending .inside n k) (Pending .inside n k) id
      (satisfy fun c => c != '\\' && c != '"')
      (satisfy fun c => c != '\\' && c != '"') := by
    apply mirrors_satisfy_inside id
    intro x cs hcs hx hlength
    simp only [Bool.and_eq_true, bne_iff_ne, ne_eq] at hx
    exact ⟨by simpa [closes_inside_cons, hx] using hcs, hlength⟩
  apply Mirrors.orElse
  · exact hslash.bind fun _ => hescaped.bind fun _ => mirrors_pure rfl
  · exact hplain.bind fun _ => mirrors_pure rfl

private theorem shortens_quotedItem : Shortens quotedItem := by
  have hchar : ∀ ok : Char → Bool, Shortens (satisfy ok) := fun ok =>
    consumes_satisfy fun _ _ => List.cons_ne_nil _ _
  apply Consumes.orElse
  · refine (hchar _).bind fun _ =>
      layout_true.bind ?_ fun _ => layout_true.pure _
    exact consumes_satisfy fun _ _ => trivial
  · exact (hchar _).bind fun _ => layout_true.pure _

private theorem mirrors_quoted (hbehind : ∀ x ∈ frame.behind.head?, x = ')') :
    Mirrors frame (Pending .outside n k) (Pending .outside n k) id quoted
      quoted := by
  have hopening : Mirrors frame (Pending .outside n k) (Pending .inside n k) id
      (satisfy (· == '"')) (satisfy (· == '"')) := by
    apply mirrors_satisfy
    · intro _ x hx
      rw [hbehind x hx]
      rfl
    · rintro x cs ⟨hcs, hlength⟩ hx
      obtain rfl := eq_of_beq hx
      exact ⟨closes_quote.mp hcs, Nat.lt_of_succ_lt hlength⟩
  have hclosing : Mirrors frame (Pending .inside n k) (Pending .outside n k) id
      (satisfy (· == '"')) (satisfy (· == '"')) := by
    apply mirrors_satisfy_inside id
    intro x cs hcs hx hlength
    obtain rfl := eq_of_beq hx
    exact ⟨closes_unquote.mp hcs, hlength⟩
  refine hopening.bind fun first => ?_
  refine (mirrors_quotedItem.many shortens_quotedItem).bind fun items => ?_
  refine hclosing.bind fun last => mirrors_pure ?_
  simp

private theorem common_self (cs : List Char) : Common layer layer cs where
  letters hupper hlower := by
    rw [hupper] at hlower
    cases hlower
  words _ hnew hold := absurd hnew hold

theorem simulation_of_closes (hbehind : ∀ x ∈ frame.behind.head?, x = ')') :
    Simulation layer layer frame (Pending .outside) := by
  have hend : ∀ {ok : Char → Bool}, ok ')' = false →
      ∀ x ∈ frame.behind.head?, ok x = false := by
    intro ok hok x hx
    rwa [hbehind x hx]
  exact {
    includes := layer.includes_self
    lexing := fun n => {
      weaken := fun hjk hcs => ⟨hcs.1, Nat.lt_of_lt_of_le hcs.2 hjk⟩
      run := fun hok =>
        mirrors_run (fun _ _ => .inr (hend hok.2.1)) fun s cs hcs hs => by
        refine ⟨(closes_inerts fun c hc => hok.ne (hs c hc)).mp hcs.1, ?_⟩
        have hlength := hcs.2
        rw [List.length_append] at hlength
        omega
      satisfy :=
        fun hok => mirrors_satisfy (fun _ => hend hok.2.1) fun x cs hcs hx =>
        ⟨(closes_inert (hok.ne hx)).mp hcs.1, Nat.lt_sub_of_add_lt hcs.2⟩ }
    bracket := mirrors_satisfy (fun _ => hend rfl) fun x cs hcs hx => by
      obtain rfl := eq_of_beq hx
      exact ⟨(closes_inert (by decide)).mp hcs.1, Nat.lt_of_succ_lt hcs.2⟩
    quoted := mirrors_quoted hbehind
    opening := mirrors_satisfy (fun _ => hend rfl) fun x cs hcs hx => by
      obtain rfl := eq_of_beq hx
      exact ⟨closes_opening.mp hcs.1, Nat.lt_sub_of_add_lt hcs.2⟩
    closing := mirrors_satisfy (fun hnil => absurd hnil.1 (Nat.succ_ne_zero _))
      fun x cs hcs hx => by
        obtain rfl := eq_of_beq hx
        exact ⟨closes_closing.mp hcs.1, Nat.lt_of_succ_lt hcs.2⟩
    common := fun _ => common_self _ }

private theorem mirrors_operand_of_closes
    (hbehind : ∀ x ∈ frame.behind.head?, x = ')') {a b : Nat} (ha : k ≤ a)
    (hb : k ≤ b) (n : Nat) :
    MirrorsTrees frame (Pending .outside n k) (operand layer a)
      (operand layer b) := by
  induction k generalizing a b n with
  | zero =>
      constructor
      · exact fun c hc => absurd hc.2 (Nat.not_lt_zero _)
      · exact fun c _ _ hc => absurd hc.2 (Nat.not_lt_zero _)
  | succ k ih =>
      obtain ⟨a, rfl⟩ : ∃ m, a = m + 1 := ⟨a - 1, by omega⟩
      obtain ⟨b, rfl⟩ : ∃ m, b = m + 1 := ⟨b - 1, by omega⟩
      exact (simulation_of_closes hbehind).operand
        (ih (Nat.le_of_succ_le_succ ha) (Nat.le_of_succ_le_succ hb)) n

end

theorem skip_append_of_close (cs tail : List Char) :
    skip (cs ++ ')' :: tail) = skip cs ++ ')' :: tail :=
  (span_append (.inr (by rintro _ ⟨⟩; rfl))).2

/-- A text in parentheses is read as an operand to the tree that the text gives
alone. -/
theorem takes_operand_of_sentence {s : List Char} {m : Nat}
    (h : result? (sentence layer) (.ofText s) = some (t, c'))
    (hm : s.length < m) :
    Takes (operand layer (m + 1)) ('(' :: s ++ ')' :: tail)
      (fun u => u.outline = t.outline)
      (skip tail) := by
  obtain ⟨before, after, hbefore, hformula, hafter⟩ :=
    result?_sentence_eq_some h
  have hcloses : Closes .outside 0 s := closes_of_sentence h
  have hpending : Pending .outside 0 (s.length + 1) before.rest := by
    rw [hbefore]
    exact ⟨closes_skip_iff.mpr hcloses, Nat.lt_succ_of_le (length_skip_le s)⟩
  have hmirrors :
      ∀ {behind : List Char} {b : Nat}, (∀ x ∈ behind.head?, x = ')') →
      s.length + 1 ≤ b →
        ∀ n, MirrorsTrees ⟨n, behind⟩ (Pending .outside 0 (s.length + 1))
        (formula layer (operand layer (s.length + 1)))
        (formula layer (operand layer b)) :=
    fun hbehind hb n => (simulation_of_closes hbehind).formula
      (mirrors_operand_of_closes hbehind (Nat.le_refl _) hb 0)
      (layout_true.operand _)
  have htakes :
      Takes (formula layer (operand layer m)) (before.rest ++ ')' :: tail)
      (fun u => u.outline = t.outline) (after.rest ++ ')' :: tail) :=
    Mirrors.takes Tree.outline_shift (hmirrors (by simp) (Nat.le_refl _))
      (hmirrors (by rintro _ ⟨⟩; rfl) hm) hpending hformula
  have hclose : skip (after.rest ++ ')' :: tail) = ')' :: tail := by
    rw [skip_append_of_close, hafter]
    rfl
  rw [hbefore, ← skip_append_of_close] at htakes
  exact takes_operand_enclosed htakes hclose

end Reader

end LayeredLogic
