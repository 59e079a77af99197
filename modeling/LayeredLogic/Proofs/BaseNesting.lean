import LayeredLogic.Proofs.Grammar
import LayeredLogic.Proofs.Scan

/-!
# Nesting in the base layer

A group in parentheses is counted no longer once it is closed, but a chain that
groups to the left goes on with it as its innermost operand.  So every level of
parentheses may add what the levels around it leave, and the bound on a tree is
a triangular number.
-/

namespace LayeredLogic

def triangle : Nat → Nat
  | 0 => 0
  | n + 1 => (n + 1) + triangle n

theorem triangle_eq (n : Nat) : triangle n = n * (n + 1) / 2 := by
  induction n with
  | zero => rfl
  | succ n ih =>
      have hsum : (n + 1) * (n + 1 + 1) = n * (n + 1) + (n + 1) * 2 := by
        rw [Nat.mul_add (n + 1) (n + 1), Nat.mul_add (n + 1) n,
          Nat.mul_comm (n + 1) n]
        omega
      rw [triangle, ih, hsum, Nat.add_mul_div_right _ _ (by omega)]
      omega

theorem add_triangle_le {k n : Nat} (h : k ≤ n) :
    k + triangle (n - 1) ≤ triangle n := by
  cases n with
  | zero =>
      obtain rfl := Nat.le_zero.mp h
      exact Nat.le_refl _
  | succ n =>
      rw [triangle, Nat.add_sub_cancel]
      omega

namespace Nesting

open Reader

variable {α β : Type} {p q : Reader α} {f : α → Reader β} {m n : Nat}

/-! ## Readers that count -/

/-- The scan counts the given number of operators in what the reader takes. -/
def Counts (p : Reader α) (n : Nat) : Prop :=
  ∀ c a c', result? p c = some (a, c') → ∀ levels, Within levels c.rest →
    Within (levels.count (.operators n)) c'.rest

theorem Counts.bind (hp : Counts p m) (hf : ∀ a, Counts (f a) n) :
    Counts (p >>= f) (m + n) := by
  intro c b c' h levels hwithin
  obtain ⟨a, middle, ha, hb⟩ := result?_bind_eq_some_iff.mp h
  have hmiddle := hp c a middle ha levels hwithin
  rw [← count_operators_count]
  exact hf a middle b c' hb _ hmiddle

theorem counts_pure (a : α) : Counts (pure a) 0 := by
  intro c b c' h levels hwithin
  obtain ⟨-, rfl⟩ := result?_pure_eq_some_iff.mp h
  exact hwithin

theorem Counts.orElse (hp : Counts p n) (hq : Counts q n) :
    Counts (orElse p q) n :=
  Tells.orElse hp hq

theorem Counts.check {ok : α → Bool} (hp : Counts p n) :
    Counts (Reader.check p ok) n :=
  Tells.check hp

theorem Counts.located (hp : Counts p n) : Counts (located p) n :=
  Tells.located hp

theorem Counts.padded (hp : Counts p n) : Counts (padded p) n := by
  intro c a c' h levels hwithin
  obtain ⟨before, after, hbefore, hresult, hafter⟩ := result?_padded_eq_some h
  rw [hafter]
  apply Within.skip
  apply hp before a after hresult levels
  rw [hbefore]
  exact hwithin.skip

theorem counts_exactly {cs : List Char}
    (h : ∀ levels rest, Within levels (cs ++ rest) →
      Within (levels.count (.operators n)) rest) : Counts (exactly cs) n := by
  intro c u c' hresult levels hwithin
  rw [result?_exactly_eq_some hresult] at hwithin
  exact h levels c'.rest hwithin

theorem counts_identifier : Counts identifier 0 := by
  intro c word c' h levels hwithin
  obtain ⟨htext, hword, hends⟩ := result?_identifier_eq_some h
  rw [htext] at hwithin
  exact hwithin.word hword hends

private theorem counts_digits : Counts digits 0 := by
  intro c ds c' h levels hwithin
  obtain ⟨htext, -, hdigits⟩ := result?_digits_eq_some h
  rw [htext] at hwithin
  exact hwithin.plains fun d hd => plain_of_isDigit (hdigits d hd)

private theorem result?_quotedItem_eq_some {c c' : Cursor} {item : List Char}
    (h : result? quotedItem c = some (item, c')) :
    c.rest = item ++ c'.rest ∧ QuotedItem item := by
  rcases result?_orElse_eq_some h with h | h
  · obtain ⟨slash, middle, hslash, h⟩ := result?_bind_eq_some_iff.mp h
    obtain ⟨x, last, hx, h⟩ := result?_bind_eq_some_iff.mp h
    obtain ⟨rfl, rfl⟩ := result?_pure_eq_some_iff.mp h
    obtain ⟨htext, hchar⟩ := result?_satisfy_eq_some hslash
    obtain ⟨hnext, -⟩ := result?_satisfy_eq_some hx
    obtain rfl := eq_of_beq hchar
    rw [htext, hnext]
    exact ⟨rfl, Or.inl ⟨x, rfl⟩⟩
  · obtain ⟨x, last, hx, h⟩ := result?_bind_eq_some_iff.mp h
    obtain ⟨rfl, rfl⟩ := result?_pure_eq_some_iff.mp h
    obtain ⟨htext, hchar⟩ := result?_satisfy_eq_some hx
    simp only [Bool.and_eq_true, bne_iff_ne, ne_eq] at hchar
    exact ⟨htext, Or.inr ⟨x, rfl, hchar⟩⟩

private theorem result?_quotedItems_eq_some {n : Nat} {c c' : Cursor}
    {items : List (List Char)}
    (h : result? (upTo quotedItem n) c = some (items, c')) :
    c.rest = items.flatten ++ c'.rest ∧ ∀ item ∈ items, QuotedItem item := by
  induction n generalizing c items with
  | zero =>
      cases h
      simp
  | succ n ih =>
      rw [result?_upTo_succ] at h
      split at h
      · rename_i item middle hitem
        obtain ⟨⟨others, last⟩, hothers, hr⟩ := Option.map_eq_some_iff.mp h
        cases hr
        obtain ⟨htext, hquoted⟩ := result?_quotedItem_eq_some hitem
        obtain ⟨hrest, hall⟩ := ih hothers
        constructor
        · rw [htext, hrest, List.flatten_cons, List.append_assoc]
        · intro other hother
          rcases List.mem_cons.mp hother with rfl | hother
          · exact hquoted
          · exact hall other hother
      · cases h
        simp

theorem result?_quoted_eq_some {c c' : Cursor} {word : List Char}
    (h : result? quoted c = some (word, c')) :
    c.rest = word ++ c'.rest ∧ ∃ items : List (List Char),
      word = '"' :: items.flatten ++ ['"'] ∧
      ∀ item ∈ items, QuotedItem item := by
  obtain ⟨first, middle, hfirst, h⟩ := result?_bind_eq_some_iff.mp h
  obtain ⟨items, last, hitems, h⟩ := result?_bind_eq_some_iff.mp h
  obtain ⟨close, final, hclose, h⟩ := result?_bind_eq_some_iff.mp h
  obtain ⟨rfl, rfl⟩ := result?_pure_eq_some_iff.mp h
  obtain ⟨hopenText, hopen⟩ := result?_satisfy_eq_some hfirst
  obtain ⟨hitemsText, hquoted⟩ := result?_quotedItems_eq_some hitems
  obtain ⟨hcloseText, hend⟩ := result?_satisfy_eq_some hclose
  obtain rfl := eq_of_beq hopen
  obtain rfl := eq_of_beq hend
  refine ⟨?_, items, rfl, hquoted⟩
  rw [hopenText, hitemsText, hcloseText]
  simp

private theorem counts_quoted : Counts quoted 0 := by
  intro c word c' h levels hwithin
  obtain ⟨htext, items, rfl, hquoted⟩ := result?_quoted_eq_some h
  rw [htext, List.cons_append, List.cons_append, List.append_assoc] at hwithin
  exact hwithin.quoted hquoted

private theorem counts_literalLexeme : Counts literalLexeme 0 :=
  counts_identifier.check.orElse counts_digits.check

private theorem counts_nameLexeme (layer : Layer) :
    Counts (nameLexeme layer) 0 :=
  counts_identifier.check

theorem Counts.token {kind : TokenKind} {lexeme : Reader (List Char)}
    (h : Counts lexeme 0) : Counts (token kind lexeme) 0 :=
  (h.located.bind fun _ => counts_pure _).padded

theorem Within.symbol {x : Char} {u : Unit} {c c' : Cursor}
    {levels levels' : Levels} (h : Within levels c.rest)
    (hresult : result? (symbol [x]) c = some (u, c'))
    (hafter : ∀ cs, levels.after x cs = levels') (hname : isNameStart x = false)
    (hx : x ∉ skipped) : Within levels' c'.rest := by
  obtain ⟨before, after, hbefore, hsign, hrest⟩ :=
    result?_padded_eq_some hresult
  have hskip := h.skip
  rw [← hbefore, result?_exactly_eq_some hsign] at hskip
  have hnext := Within.after hskip hname hx
  rw [hafter] at hnext
  rw [hrest]
  exact hnext.skip

theorem counts_symbol_of_plain {x : Char} (h : Plain x) :
    Counts (symbol [x]) 0 :=
  fun _ _ _ hresult levels hwithin =>
    hwithin.symbol hresult (h.after levels) h.name h.notSkipped

private theorem counts_xor : Counts (symbol Connective.xor.symbol) 1 :=
  fun _ _ _ hresult _ hwithin =>
    hwithin.symbol hresult (fun _ => rfl) rfl (by decide)

private theorem counts_implies :
    Counts (symbol Connective.implies.symbol) 1 := by
  apply Counts.padded
  apply counts_exactly
  intro levels rest hwithin
  have hdash := Within.after hwithin rfl (by decide)
  exact Within.plain hdash (by decide)

private theorem counts_equiv : Counts (symbol Connective.equiv.symbol) 1 := by
  apply Counts.padded
  apply counts_exactly
  intro levels rest hwithin
  have hopen := Within.plain hwithin (by decide)
  have hdash := Within.after hopen rfl (by decide)
  exact Within.plain hdash (by decide)

private theorem counts_not :
    Counts (padded (satisfy fun c => c == '!' || c == '~')) 1 := by
  apply Counts.padded
  intro c x c' h levels hwithin
  obtain ⟨htext, hx⟩ := result?_satisfy_eq_some h
  simp only [Bool.or_eq_true, beq_iff_eq] at hx
  rw [htext] at hwithin
  rcases hx with rfl | rfl
  · exact hwithin.after rfl (by decide)
  · exact hwithin.after rfl (by decide)

/-! ## Trees paid for by what is counted -/

def Levels.allowance (levels : Levels) : Nat :=
  triangle (maxNesting - (levels.outer.length + 1))

/-- No tree of the reader nests deeper than what the scan counts in its text
allows. -/
def Paid (p : Reader Tree) : Prop :=
  ∀ c t c', result? p c = some (t, c') → ∀ levels, Within levels c.rest →
    ∃ k, Within (levels.count (.operators k)) c'.rest ∧
      t.nesting ≤ k + levels.allowance

theorem allowance_count (levels : Levels) (k : Nat) :
    (levels.count (.operators k)).allowance = levels.allowance := rfl

private theorem Counts.paid {p : Reader Tree} (hp : Counts p n)
    (h : ∀ c t c', result? p c = some (t, c') → t.nesting ≤ n) : Paid p := by
  intro c t c' hresult levels hwithin
  have ht := h c t c' hresult
  exact ⟨n, hp c t c' hresult levels hwithin, by omega⟩

theorem Counts.paid_leaf {p : Reader Token} (hp : Counts p 0) (rule : Rule)
    (hrule : isCounted rule.name = false) :
    Paid (do
      let (t, span) ← Reader.located p
      return Tree.node rule.name [.token t] span) := by
  apply Counts.paid (n := 0) (hp.located.bind fun _ => counts_pure _)
  intro c t c' h
  obtain ⟨⟨token, span⟩, last, -, h⟩ := result?_bind_eq_some_iff.mp h
  obtain ⟨rfl, -⟩ := result?_pure_eq_some_iff.mp h
  exact Nat.le_of_eq (Tree.nesting_leaf hrule token span)

theorem Paid.upTo {p : Reader Tree} {separator : Reader Unit} (hp : Paid p)
    (hseparator : Counts separator n) {bound : Nat} {c c' : Cursor}
    {ts : List Tree} {levels : Levels}
    (h : result? (upTo (do separator; p) bound) c = some (ts, c'))
    (hwithin : Within levels c.rest) :
    ∃ k, Within (levels.count (.operators k)) c'.rest ∧ n * ts.length ≤ k ∧
      ∀ t ∈ ts, n * ts.length + t.nesting ≤ k + levels.allowance := by
  induction bound generalizing c ts levels with
  | zero =>
      cases h
      exact ⟨0, hwithin, by simp, by simp⟩
  | succ bound ih =>
      rw [result?_upTo_succ] at h
      split at h
      · rename_i t middle ht
        obtain ⟨⟨us, last⟩, hus, hr⟩ := Option.map_eq_some_iff.mp h
        cases hr
        obtain ⟨u, behind, hsign, ht⟩ := result?_bind_eq_some_iff.mp ht
        have hbehind := hseparator c u behind hsign levels hwithin
        obtain ⟨a, hmiddle, hnesting⟩ := hp behind t middle ht _ hbehind
        obtain ⟨b, hlast, hlength, hall⟩ := ih hus hmiddle
        simp only [allowance_count] at hnesting hall
        -- A group may put this value below the separators of all the others.
        have hmul : n * (t :: us).length = n * us.length + n :=
          Nat.mul_succ n us.length
        refine ⟨n + a + b, ?_, ?_, ?_⟩
        · rwa [count_operators_count, count_operators_count, ← Nat.add_assoc]
            at hlast
        · omega
        · intro v hv
          rcases List.mem_cons.mp hv with rfl | hv
          · omega
          · have hbound := hall v hv
            omega
      · cases h
        exact ⟨0, hwithin, by simp, by simp⟩

/-- Every value of a chain but the first adds at most the given number of
levels. -/
def Groups (group : Tree → List Tree → Tree) (n : Nat) : Prop :=
  ∀ first others m, first.nesting ≤ m → (∀ t ∈ others, t.nesting ≤ m) →
    (group first others).nesting ≤ n * others.length + m

theorem groups_chain {rule : Rule} (h : isCounted rule.name = false) :
    Groups (Tree.chain rule) 0 := by
  intro first others m hfirst hothers
  rw [Tree.chain]
  split
  · omega
  · have hparts := Tree.nestingOfParts_trees_le hothers
    rw [Tree.nesting, h, Tree.nestingOfParts, Bool.toNat_false]
    omega

theorem groups_groupLeft {rule : Rule} (h : isCounted rule.name = true) :
    Groups (Tree.groupLeft rule) 1 := by
  intro first others m hfirst hothers
  induction others generalizing first m with
  | nil =>
      have hlength : (Tree.groupLeft rule first []).nesting =
          first.nesting := rfl
      omega
  | cons second others ih =>
      have hsecond := hothers second List.mem_cons_self
      have hpair : (Tree.pair rule first second).nesting ≤ m + 1 := by
        rw [Tree.nesting_pair h]
        omega
      have hall : ∀ t ∈ others, t.nesting ≤ m + 1 := by
        intro t ht
        have hbound := hothers t (List.mem_cons_of_mem _ ht)
        omega
      have hgroup := ih (Tree.pair rule first second) (m + 1) hpair hall
      have hfold : Tree.groupLeft rule first (second :: others) =
          Tree.groupLeft rule (Tree.pair rule first second) others := rfl
      rw [hfold, List.length_cons]
      omega

private theorem groups_groupRight {rule : Rule}
    (h : isCounted rule.name = true) : Groups (Tree.groupRight rule) 1 := by
  intro first others m hfirst hothers
  induction others generalizing first with
  | nil =>
      rw [Tree.groupRight]
      omega
  | cons second others ih =>
      have hall : ∀ t ∈ others, t.nesting ≤ m :=
        fun t ht => hothers t (List.mem_cons_of_mem _ ht)
      have hgroup := ih second (hothers second List.mem_cons_self) hall
      rw [Tree.groupRight, Tree.nesting_pair h, List.length_cons]
      omega

theorem Paid.level {p : Reader Tree} {sign : List Char}
    {group : Tree → List Tree → Tree} (hp : Paid p)
    (hsign : Counts (symbol sign) n) (hgroup : Groups group n) :
    Paid (level sign group p) := by
  intro c t c' h levels hwithin
  obtain ⟨first, others, middle, hfirst, hothers, rfl⟩ :=
    result?_level_eq_some h
  obtain ⟨a, hmiddle, hnesting⟩ := hp c first middle hfirst levels hwithin
  obtain ⟨b, hlast, hlength, hall⟩ := hp.upTo hsign hothers hmiddle
  simp only [allowance_count] at hall
  refine ⟨a + b, ?_, ?_⟩
  · rwa [count_operators_count] at hlast
  · have hbound :=
      hgroup first others (a + b + levels.allowance - n * others.length)
        (by omega)
      (fun u hu => by
        have h := hall u hu
        omega)
    omega

/-! ## The grammar of the base layer -/

theorem Paid.formula {op : Reader Tree} (h : Paid op) :
    Paid (formula .base op) := by
  have hand : Paid (Reader.level ['&'] (.chain .conjunction) op) :=
    h.level (counts_symbol_of_plain (by decide)) (groups_chain (by decide))
  have hor : Paid (Reader.level ['|'] (.chain .disjunction) _) :=
    hand.level (counts_symbol_of_plain (by decide)) (groups_chain (by decide))
  have hxor : Paid (Reader.level _ (.groupLeft .xor) _) :=
    hor.level counts_xor (groups_groupLeft (by decide))
  have himplies : Paid (Reader.level _ (.groupRight .implies) _) :=
    hxor.level counts_implies (groups_groupRight (by decide))
  have hequiv : Paid (Reader.level _ (.groupLeft .equiv) _) :=
    himplies.level counts_equiv (groups_groupLeft (by decide))
  exact hequiv

private theorem paid_literalAtom : Paid literalAtom :=
  counts_literalLexeme.token.paid_leaf .literal (by decide)

private theorem paid_variableAtom (layer : Layer) : Paid (variableAtom layer) :=
  ((counts_nameLexeme layer).token.orElse counts_quoted.token).paid_leaf
  .variable
    (by decide)

theorem Paid.negation {op : Reader Tree} (h : Paid op) :
    Paid (negation op) := by
  intro c t c' hresult levels hwithin
  obtain ⟨sign, middle, u, span, hsign, hu, rfl⟩ :=
    result?_negation_eq_some hresult
  have hmiddle := counts_not c sign middle hsign levels hwithin
  obtain ⟨k, hrest, hnesting⟩ := h middle u c' hu _ hmiddle
  refine ⟨1 + k, ?_, ?_⟩
  · rwa [count_operators_count] at hrest
  · rw [allowance_count] at hnesting
    have hcounted : isCounted Rule.negation.name = true := by decide
    rw [Tree.nesting, hcounted]
    simp only [Tree.nestingOfParts, Bool.toNat_true]
    omega

theorem Paid.parenthesized {p : Reader Tree} (h : Paid p) :
    Paid (parenthesized p) := by
  intro c t c' hresult levels hwithin
  obtain ⟨first, middle, hopening, hu, hclosing⟩ :=
    result?_parenthesized_eq_some hresult
  have hopened : Within (levels.count .opening) first.rest :=
    hwithin.symbol hopening (fun _ => rfl) rfl (by decide)
  obtain ⟨k, hmiddle, hnesting⟩ := h first t middle hu _ hopened
  have hclosed : Within levels c'.rest :=
    hmiddle.symbol hclosing (fun _ => rfl) rfl (by decide)
  -- The count of the group is given up where it closes, so the allowance must
  -- hold all of it.
  refine ⟨0, hclosed, ?_⟩
  have hdepth : k ≤ maxNesting - (levels.outer.length + 1) := by
    have hle := hmiddle.1
    simp only [Levels.depth, Levels.count, List.length_cons] at hle
    omega
  have htriangle := add_triangle_le hdepth
  have hallowance : (levels.count .opening).allowance =
      triangle (maxNesting - (levels.outer.length + 1) - 1) := rfl
  rw [hallowance] at hnesting
  rw [Levels.allowance]
  omega

theorem result?_operand_base {n : Nat} {c : Cursor} {r : Tree × Cursor}
    (h : result? (operand .base (n + 1)) c = some r) :
    result? literalAtom c = some r ∨
    result? (Reader.negation (operand .base n)) c = some r ∨
      result? (Reader.parenthesized (Reader.formula .base (operand .base n)))
        c = some r ∨
      result? (variableAtom .base) c = some r := by
  obtain ⟨p, hp, h⟩ := result?_firstOf_eq_some h
  simp only [List.cons_append, List.mem_cons, List.mem_append, List.not_mem_nil,
    or_false] at hp
  rcases hp with rfl | hp | rfl | rfl
  · exact Or.inl h
  · obtain rfl := List.mem_singleton.mp hp
    exact Or.inr (Or.inl h)
  · exact Or.inr (Or.inr (Or.inl h))
  · exact Or.inr (Or.inr (Or.inr h))

private theorem paid_operand (n : Nat) : Paid (operand .base n) := by
  induction n with
  | zero =>
      intro c t c' h
      cases h
  | succ n ih =>
      intro c t c' h
      rcases result?_operand_base h with h | h | h | h
      · exact paid_literalAtom c t c' h
      · exact ih.negation c t c' h
      · exact ih.formula.parenthesized c t c' h
      · exact paid_variableAtom .base c t c' h

private theorem nesting_of_sentence {cs : List Char} {t : Tree} {c' : Cursor}
    (hwithin : Within ⟨0, []⟩ cs)
    (h : result? (sentence .base) (.ofText cs) = some (t, c')) :
    t.nesting ≤ triangle maxNesting := by
  obtain ⟨before, after, hbefore, hresult, -⟩ := result?_sentence_eq_some h
  have hstart : Within ⟨0, []⟩ before.rest := by
    rw [hbefore]
    exact hwithin.skip
  obtain ⟨k, hrest, hnesting⟩ :=
    (paid_operand _).formula before t after hresult _ hstart
  have hk : k ≤ maxNesting := by
    have hle := hrest.1
    simp only [Levels.depth, Levels.count, List.length_nil, List.foldr_nil]
      at hle
    omega
  calc t.nesting ≤ k + Levels.allowance ⟨0, []⟩ := hnesting
    _ = k + triangle (maxNesting - 1) := by
      rw [Levels.allowance, List.length_nil]
    _ ≤ triangle maxNesting := add_triangle_le hk

end Nesting

open Nesting in
/-- No tree of the base layer nests deeper than one group in parentheses for
each level, every one of them as deep as the levels around it leave. -/
theorem Tree.nesting_le_triangle {source : String} {t : Tree}
    (h : Tree.parse .base source = .ok t) :
    t.nesting ≤ triangle maxNesting := by
  obtain ⟨hexcess, c', hresult⟩ := Tree.parse_eq_ok_iff.mp h
  have hwithin : Within ⟨0, []⟩ source.toList := ⟨Nat.zero_le _, 0, hexcess⟩
  exact nesting_of_sentence hwithin hresult

end LayeredLogic
