import LayeredLogic.Proofs.Derivation
import LayeredLogic.Proofs.Operand

/-!
# Reading the base layer

The readers of the base layer take exactly the texts that the grammar derives.
What is read can be derived: every reader gives the outline of a derivation of
what it takes off.  What can be derived is read: no alternative and no chain
stops early, because the sign that follows a value belongs to no tighter
stratum.
-/

namespace LayeredLogic

namespace Reader

open Nesting

variable {c c' : Cursor} {p op : Reader Tree} {s tighter : Stratum}
  {sign : Sign} {group : Outline → List Outline → Outline}
  {join : Tree → List Tree → Tree}

/-! ## What is read can be derived -/

theorem endsDigits_of_skip {cs : List Char} (h : EndsDigits (skip cs)) :
    EndsDigits cs := by
  cases cs with
  | nil => exact h
  | cons x cs =>
      cases hdigit : x.isDigit with
      | false =>
          rintro _ ⟨⟩
          exact hdigit
      | true => rwa [skip_cons (isBlank_of_isDigit hdigit)] at h

theorem lexes_of_symbol {u : Unit}
    (h : result? (symbol sign.chars) c = some (u, c')) :
    Lexes c.rest [.sign sign] c'.rest ∧ EndsDigits c.rest := by
  obtain ⟨before, after, hbefore, hsign, hafter⟩ := result?_padded_eq_some h
  have htext : skip c.rest = sign.chars ++ after.rest := by
    rw [← hbefore]
    exact result?_exactly_eq_some hsign
  constructor
  · rw [hafter]
    exact lexes_singleton htext trivial
  · obtain ⟨x, xs, hchars, -, hdigit⟩ := sign.exists_chars_eq
    apply endsDigits_of_skip
    rw [htext, hchars]
    rintro _ ⟨⟩
    exact hdigit

/-- What the reader takes is derived from the stratum.  A run of digits might be
cut off where the reader stops, so the text must not go on with a digit there.
-/
def Yields (p : Reader Tree) (s : Stratum) : Prop :=
  ∀ c t c', result? p c = some (t, c') → EndsDigits c'.rest →
    ∃ ls, Lexes c.rest ls c'.rest ∧ Derives s ls t.outline

theorem Yields.upTo (hp : Yields p tighter) {n : Nat} {ts : List Tree}
    (h : result? (upTo (do symbol sign.chars; p) n) c = some (ts, c'))
    (hends : EndsDigits c'.rest) :
    EndsDigits c.rest ∧ ∃ items : List (List Lexeme × Outline),
      (∀ x ∈ items, Derives tighter x.1 x.2) ∧
      items.map Prod.snd = ts.map Tree.outline ∧
      Lexes c.rest (items.flatMap fun x => .sign sign :: x.1) c'.rest := by
  induction n generalizing c ts with
  | zero =>
      cases h
      exact ⟨hends, [], by simp, rfl, rfl⟩
  | succ n ih =>
      rw [result?_upTo_succ] at h
      split at h
      · rename_i t middle ht
        obtain ⟨⟨us, last⟩, hus, hr⟩ := Option.map_eq_some_iff.mp h
        cases hr
        obtain ⟨hmiddle, items, hall, hmap, hrest⟩ := ih hus
        obtain ⟨u, behind, hsign, ht⟩ := result?_bind_eq_some_iff.mp ht
        obtain ⟨hopen, hstart⟩ := lexes_of_symbol hsign
        obtain ⟨ls, hls, ht⟩ := hp behind t middle ht hmiddle
        refine ⟨hstart, (ls, t.outline) :: items,
          List.forall_mem_cons.mpr ⟨ht, hall⟩, ?_, ?_⟩
        · rw [List.map_cons, List.map_cons, hmap]
        · exact hopen.append (hls.append hrest)
      · cases h
        exact ⟨hends, [], by simp, rfl, rfl⟩

theorem Yields.level (hp : Yields p tighter)
    (hjoin :
      ∀ t ts, (join t ts).outline = group t.outline (ts.map Tree.outline))
    (hs : ∀ ls o, IsChain (Derives tighter) sign group ls o → Derives s ls o) :
    Yields (level sign.chars join p) s := by
  intro c t c' h hends
  obtain ⟨first, others, middle, hfirst, hothers, rfl⟩ :=
    result?_level_eq_some h
  obtain ⟨hmiddle, items, hall, hmap, hrest⟩ := hp.upTo hothers hends
  obtain ⟨ls, hls, hfirst⟩ := hp c first middle hfirst hmiddle
  refine ⟨_, hls.append hrest, hs _ _ ?_⟩
  refine ⟨(ls, first.outline), items, List.forall_mem_cons.mpr ⟨hfirst, hall⟩,
    rfl, ?_⟩
  rw [hjoin, hmap]

theorem Yields.formula (h : Yields op .unary) :
    Yields (formula .base op) .formula := by
  have hand :
      Yields (Reader.level (Sign.junction .and).chars (.chain .conjunction) op)
      .conjunction :=
    h.level (Tree.outline_chain _) fun _ _ =>
      (derives_iff_isChain .conjunction).mpr
  have hor :
      Yields (Reader.level (Sign.junction .or).chars (.chain .disjunction) _)
      .disjunction :=
    hand.level (Tree.outline_chain _) fun _ _ =>
      (derives_iff_isChain .disjunction).mpr
  have hxor :
      Yields (Reader.level (Sign.connective .xor).chars (.groupLeft .xor) _)
        .exclusive :=
    hor.level (Tree.outline_groupLeft _) fun _ _ =>
      (derives_iff_isChain .exclusive).mpr
  have himplies :
      Yields (Reader.level (Sign.connective .implies).chars
        (.groupRight .implies) _)
      .implication :=
    hxor.level (Tree.outline_groupRight _) fun _ _ =>
      derives_implication_iff.mpr
  have hequiv :
      Yields (Reader.level (Sign.connective .equiv).chars (.groupLeft .equiv) _)
      .formula :=
    himplies.level (Tree.outline_groupLeft _) fun _ _ =>
      (derives_iff_isChain .formula).mpr
  exact hequiv

private theorem yields_literalAtom : Yields literalAtom .unary := by
  intro c t c' h hends
  obtain ⟨⟨token, span⟩, last, htoken, h⟩ := result?_bind_eq_some_iff.mp h
  obtain ⟨rfl, rfl⟩ := result?_pure_eq_some_iff.mp h
  obtain ⟨before, after, cs, hbefore, hlexeme, hafter, hkind, htext⟩ :=
    result?_token_eq_some (result?_located_eq_some htoken)
  rw [hafter] at hends ⊢
  rw [Tree.outline_leaf span hkind htext]
  rcases result?_orElse_eq_some hlexeme with hword | hdigits
  · obtain ⟨hword, hliteral⟩ := result?_check_eq_some_iff.mp hword
    obtain ⟨hchars, hidentifier, hname⟩ := result?_identifier_eq_some hword
    rw [hbefore] at hchars
    have hliteral : cs ∈ literalWords := by simpa using hliteral
    exact ⟨[.word cs hidentifier], lexes_singleton hchars hname,
      .literalWord _ hliteral⟩
  · obtain ⟨hdigits, hbit⟩ := result?_check_eq_some_iff.mp hdigits
    obtain ⟨hchars, hrun⟩ := result?_digits_eq_some hdigits
    rw [hbefore] at hchars
    have hbit : cs = ['0'] ∨ cs = ['1'] := by simpa using hbit
    have hstands := endsDigits_of_skip hends
    exact ⟨[.digits cs hrun], lexes_singleton hchars hstands,
      .literalDigit _ hbit⟩

private theorem yields_variableAtom : Yields (variableAtom .base) .unary := by
  intro c t c' h _
  obtain ⟨⟨token, span⟩, last, htoken, h⟩ := result?_bind_eq_some_iff.mp h
  obtain ⟨rfl, rfl⟩ := result?_pure_eq_some_iff.mp h
  have htoken := result?_located_eq_some htoken
  rcases result?_orElse_eq_some htoken with hname | hquoted
  · obtain ⟨before, after, cs, hbefore, hlexeme, hafter, hkind, htext⟩ :=
      result?_token_eq_some hname
    rw [hafter, Tree.outline_leaf span hkind htext]
    obtain ⟨hword, hfree⟩ := result?_check_eq_some_iff.mp hlexeme
    obtain ⟨hchars, hidentifier, hname⟩ := result?_identifier_eq_some hword
    rw [hbefore] at hchars
    have hfree : Layer.base.reserves cs = false := by simpa using hfree
    exact ⟨[.word cs hidentifier], lexes_singleton hchars hname, .name _ hfree⟩
  · obtain ⟨before, after, cs, hbefore, hlexeme, hafter, hkind, htext⟩ :=
      result?_token_eq_some hquoted
    rw [hafter, Tree.outline_leaf span hkind htext]
    obtain ⟨hchars, items, rfl, hitems⟩ := result?_quoted_eq_some hlexeme
    rw [hbefore] at hchars
    exact ⟨[.quoted items hitems], lexes_singleton hchars trivial,
      .quoted hitems⟩

theorem Yields.negation (h : Yields op .unary) :
    Yields (negation op) .unary := by
  intro c t c' hresult hends
  obtain ⟨x, middle, u, span, hx, hu, rfl⟩ := result?_negation_eq_some hresult
  obtain ⟨ls, hls, hu⟩ := h middle u c' hu hends
  obtain ⟨front, behind, hfront, hx, hbehind⟩ := result?_padded_eq_some hx
  obtain ⟨htext, hx⟩ := result?_satisfy_eq_some hx
  rw [hfront] at htext
  rw [hbehind] at hls
  simp only [Bool.or_eq_true, beq_iff_eq] at hx
  obtain ⟨sign, hsign, hchars⟩ : ∃ sign : Sign, (sign = .bang ∨ sign = .tilde) ∧
      sign.chars = [x] := by
    rcases hx with rfl | rfl
    · exact ⟨.bang, Or.inl rfl, rfl⟩
    · exact ⟨.tilde, Or.inr rfl, rfl⟩
  have hopen : Lexes c.rest [.sign sign] (skip behind.rest) :=
    lexes_singleton (by rw [htext, Lexeme.chars, hchars]; rfl) trivial
  exact ⟨.sign sign :: ls, hopen.append hls, .negation hsign hu⟩

theorem Yields.parenthesized (h : Yields p .formula) :
    Yields (parenthesized p) .unary := by
  intro c t c' hresult _
  obtain ⟨first, middle, hopening, hu, hclosing⟩ :=
    result?_parenthesized_eq_some hresult
  have hopen : Lexes c.rest [.sign .opening] first.rest ∧ _ :=
    lexes_of_symbol hopening
  have hclose : Lexes middle.rest [.sign .closing] c'.rest ∧
      EndsDigits middle.rest :=
    lexes_of_symbol hclosing
  obtain ⟨ls, hls, hu⟩ := h first t middle hu hclose.2
  exact ⟨_, hopen.1.append (hls.append hclose.1), .group hu⟩

private theorem yields_operand (n : Nat) : Yields (operand .base n) .unary := by
  induction n with
  | zero =>
      intro c t c' h
      cases h
  | succ n ih =>
      intro c t c' h
      rcases result?_operand_base h with h | h | h | h
      · exact yields_literalAtom c t c' h
      · exact ih.negation c t c' h
      · exact ih.formula.parenthesized c t c' h
      · exact yields_variableAtom c t c' h

/-! ## What can be derived is read -/

def Clear (signs : List Char) (rest : List Char) : Prop :=
  ∀ x ∈ (skip rest).head?, x ∉ signs

/-- The reader takes whatever is derived from the stratum by at most the given
number of lexemes, where none of the signs follows. -/
def Recognizes (p : Reader Tree) (s : Stratum) (signs : List Char) (n : Nat) :
    Prop :=
  ∀ ls o, Derives s ls o → ls.length ≤ n →
    ∀ cs rest, Lexes cs ls rest → Clear signs rest →
    Takes p (skip cs) (fun t => t.outline = o) (skip rest)

section

variable {cs middle rest input word : List Char} {x : Char}
  {xs signs : List Char} {n : Nat}

theorem takes_sign (h : skip cs = sign.chars ++ rest) :
    Takes (symbol sign.chars) (skip cs) (fun _ => True) (skip rest) :=
  takes_symbol sign.chars rest (by rw [skip_skip, h])

private theorem refuses_sign (hsign : sign.chars = x :: xs)
    (hclear : Clear (x :: signs) rest) :
    Refuses (symbol sign.chars) (skip rest) := by
  rw [hsign]
  apply refuses_symbol
  rintro y hy rfl
  rw [skip_skip] at hy
  exact hclear _ hy List.mem_cons_self

theorem clear_of_sign (hsign : sign.chars = x :: xs) (hx : x ∉ signs)
    (h : skip cs = sign.chars ++ rest) : Clear signs cs := by
  intro y hy
  rw [h, hsign] at hy
  obtain rfl := Option.some.inj hy
  exact hx

theorem clear_of_chain {items : List (List Lexeme × Outline)}
    (hsign : sign.chars = x :: xs) (hx : x ∉ signs)
    (hcs : Lexes cs (items.flatMap fun i => .sign sign :: i.1) rest)
    (hclear : Clear (x :: signs) rest) : Clear signs cs := by
  cases items with
  | nil =>
      have hskip : skip cs = skip rest := hcs
      intro y hy
      rw [hskip] at hy
      exact fun hmem => hclear y hy (List.mem_cons_of_mem _ hmem)
  | cons i items =>
      obtain ⟨middle, htext, -⟩ := hcs
      exact clear_of_sign hsign hx htext

theorem Recognizes.takesMany (hp : Recognizes p tighter signs n)
    (hsign : sign.chars = x :: xs) (hx : x ∉ signs)
    {items : List (List Lexeme × Outline)}
    (hall : ∀ i ∈ items, Derives tighter i.1 i.2 ∧ i.1.length ≤ n)
    (hcs : Lexes cs (items.flatMap fun i => .sign sign :: i.1) rest)
    (hclear : Clear (x :: signs) rest) :
    TakesMany (do symbol sign.chars; p) (skip cs)
      (fun ts => ts.map Tree.outline = items.map Prod.snd) (skip rest) := by
  induction items generalizing cs with
  | nil =>
      have hskip : skip cs = skip rest := hcs
      rw [hskip]
      intro m hm
      apply ((refuses_sign hsign hclear).bind.takesMany m hm).mono
      rintro _ rfl
      rfl
  | cons i items ih =>
      obtain ⟨⟨hi, hlength⟩, hitems⟩ := List.forall_mem_cons.mp hall
      rw [List.flatMap_cons] at hcs
      obtain ⟨after, hfirst, hothers⟩ := lexes_append_iff.mp hcs
      have hshort := hfirst.length_add_le
      obtain ⟨middle, htext, -, hvalue⟩ := hfirst
      have hafter := clear_of_chain hsign hx hothers hclear
      have htakes :
          Takes (do symbol sign.chars; p) (skip cs) (fun t => t.outline = i.2)
          (skip after) :=
        (takes_sign htext).bind fun _ _ => hp _ _ hi hlength _ _ hvalue hafter
      rw [List.length_cons] at hshort
      intro m hm
      apply (htakes.takesMany (by omega) (ih hitems hothers) m hm).mono
      rintro _ ⟨t, ts, rfl, ht, hts⟩
      rw [List.map_cons, List.map_cons, ht, hts]

private theorem length_le_of_isChain {first : List Lexeme × Outline}
    {others : List (List Lexeme × Outline)}
    (hn : (first.1 ++ others.flatMap fun i => .sign sign :: i.1).length ≤ n) :
    ∀ i ∈ first :: others, i.1.length ≤ n := by
  rw [List.length_append] at hn
  intro i hi
  rcases List.mem_cons.mp hi with rfl | hi
  · omega
  · have hmem : Lexeme.sign sign :: i.1 ∈ others.map fun i =>
        .sign sign :: i.1 :=
      List.mem_map.mpr ⟨i, hi, rfl⟩
    have hle := (List.sublist_flatten_of_mem hmem).length_le
    rw [← List.flatMap_def, List.length_cons] at hle
    omega

theorem Recognizes.level (hp : Recognizes p tighter signs n)
    (hsign : sign.chars = x :: xs) (hx : x ∉ signs)
    (hjoin :
      ∀ t ts, (join t ts).outline = group t.outline (ts.map Tree.outline))
    (hs : ∀ ls o, Derives s ls o → IsChain (Derives tighter) sign group ls o) :
    Recognizes (level sign.chars join p) s (x :: signs) n := by
  intro ls o h hn cs rest hcs hclear
  obtain ⟨first, others, hall, rfl, rfl⟩ := hs ls o h
  have hshort := length_le_of_isChain hn
  obtain ⟨middle, hfirst, hothers⟩ := lexes_append_iff.mp hcs
  have hitems : ∀ i ∈ others, Derives tighter i.1 i.2 ∧ i.1.length ≤ n := by
    intro i hi
    exact ⟨hall i (List.mem_cons_of_mem _ hi),
      hshort i (List.mem_cons_of_mem _ hi)⟩
  have htakes :=
    hp _ _ (hall first List.mem_cons_self) (hshort first List.mem_cons_self)
    cs middle hfirst (clear_of_chain hsign hx hothers hclear)
  apply (htakes.sepBy (hp.takesMany hsign hx hitems hothers hclear)).bind
  rintro ⟨t, ts⟩ ⟨ht, hts⟩
  apply takes_pure
  rw [hjoin, ht, hts]

theorem Recognizes.formula (h : Recognizes op .unary [] n) :
    Recognizes (formula .base op) .formula ['<', '-', '^', '|', '&'] n := by
  have hand :
      Recognizes
        (Reader.level (Sign.junction .and).chars (.chain .conjunction) op)
      .conjunction ['&'] n :=
    h.level rfl (by decide) (Tree.outline_chain _)
      fun _ _ => (derives_iff_isChain .conjunction).mp
  have hor :
      Recognizes
        (Reader.level (Sign.junction .or).chars (.chain .disjunction) _)
      .disjunction ['|', '&'] n :=
    hand.level rfl (by decide) (Tree.outline_chain _)
      fun _ _ => (derives_iff_isChain .disjunction).mp
  have hxor :
      Recognizes (Reader.level (Sign.connective .xor).chars (.groupLeft .xor) _)
      .exclusive ['^', '|', '&'] n :=
    hor.level rfl (by decide) (Tree.outline_groupLeft _)
      fun _ _ => (derives_iff_isChain .exclusive).mp
  have himplies :
      Recognizes
        (Reader.level (Sign.connective .implies).chars (.groupRight .implies) _)
        .implication ['-', '^', '|', '&'] n :=
    hxor.level rfl (by decide) (Tree.outline_groupRight _) fun _ _ =>
      derives_implication_iff.mp
  have hequiv :
      Recognizes
        (Reader.level (Sign.connective .equiv).chars (.groupLeft .equiv) _)
      .formula ['<', '-', '^', '|', '&'] n :=
    himplies.level rfl (by decide) (Tree.outline_groupLeft _)
      fun _ _ => (derives_iff_isChain .formula).mp
  exact hequiv

/-! ## Operands that can be derived -/

private theorem takes_literalLexeme_word (hword : isIdentifier word = true)
    (hliteral : word ∈ literalWords) (hrest : EndsName rest) :
    Takes literalLexeme (word ++ rest) (· = word) rest := by
  have hidentifier :
      Takes (check identifier literalWords.contains) (word ++ rest) (· = word)
      rest := by
    apply (takes_identifier hword hrest).check
    rintro _ rfl
    simpa using hliteral
  exact hidentifier.orElse

private theorem takes_literalAtom
    (h : Takes literalLexeme (skip input) (· = cs) rest) :
    Takes literalAtom input (fun t => t.outline = .leaf .literal .literal cs)
      (skip rest) := by
  apply (takes_token h).located.bind
  rintro ⟨t, span⟩ ⟨hkind, htext⟩
  exact takes_pure (Tree.outline_leaf span hkind htext)

private theorem takes_variableAtom_name (hword : isIdentifier word = true)
    (hfree : Layer.base.reserves word = false) (hrest : EndsName rest) :
    Takes (variableAtom .base) (word ++ rest)
      (fun t => t.outline = .leaf .variable .name word) (skip rest) := by
  apply (takes_nameToken hword hfree hrest).located.bind
  rintro ⟨t, span⟩ ⟨hkind, htext⟩
  exact takes_pure (Tree.outline_leaf span hkind htext)

private theorem takes_quotedItem {item : List Char} (h : QuotedItem item) :
    Takes quotedItem (item ++ rest) (· = item) rest := by
  rcases h with ⟨x, rfl⟩ | ⟨x, rfl, hslash, hquote⟩
  · have hescape : Takes (do
        let slash ← satisfy (· == '\\')
        return [slash, ← satisfy fun _ => true]) ('\\' :: x :: rest)
          (· = ['\\', x]) rest := by
      apply (takes_satisfy rfl).bind
      rintro _ rfl
      apply (takes_satisfy rfl).bind
      rintro _ rfl
      exact takes_pure rfl
    exact hescape.orElse
  · have hescape : Refuses (satisfy (· == '\\')) (x :: rest) := by
      apply refuses_satisfy
      rintro _ ⟨⟩
      exact beq_eq_false_iff_ne.mpr hslash
    have hplain :
        Takes (satisfy fun c => c != '\\' && c != '"') (x :: rest)
          (· = x) rest :=
      takes_satisfy (by simp [hslash, hquote])
    apply hescape.bind.takes_orElse
    apply hplain.bind
    rintro _ rfl
    exact takes_pure rfl

private theorem refuses_quotedItem : Refuses quotedItem ('"' :: rest) := by
  have hescape : Refuses (satisfy (· == '\\')) ('"' :: rest) :=
    refuses_satisfy (by rintro _ ⟨⟩; rfl)
  have hplain :
      Refuses (satisfy fun c => c != '\\' && c != '"') ('"' :: rest) :=
    refuses_satisfy (by rintro _ ⟨⟩; rfl)
  exact hescape.bind.orElse hplain.bind

private theorem takesMany_quotedItems {items : List (List Char)}
    (h : ∀ item ∈ items, QuotedItem item) :
    TakesMany quotedItem (items.flatten ++ '"' :: rest) (· = items)
      ('"' :: rest) := by
  induction items with
  | nil => exact refuses_quotedItem.takesMany
  | cons item items ih =>
      obtain ⟨hitem, hitems⟩ := List.forall_mem_cons.mp h
      have hpos : 0 < item.length := by
        rcases hitem with ⟨x, rfl⟩ | ⟨x, rfl, -⟩ <;> exact Nat.zero_lt_succ _
      rw [List.flatten_cons, List.append_assoc]
      have hlength : (items.flatten ++ '"' :: rest).length <
          (item ++ (items.flatten ++ '"' :: rest)).length := by
        have hsum : (item ++ (items.flatten ++ '"' :: rest)).length =
            item.length + (items.flatten ++ '"' :: rest).length :=
              List.length_append
        omega
      intro m hm
      apply ((takes_quotedItem hitem).takesMany hlength (ih hitems) m hm).mono
      rintro _ ⟨a, as, rfl, rfl, rfl⟩
      rfl

private theorem takes_quoted {items : List (List Char)}
    (h : ∀ item ∈ items, QuotedItem item) :
    Takes quoted ('"' :: items.flatten ++ ['"'] ++ rest)
      (· = '"' :: items.flatten ++ ['"'])
      rest := by
  have htext : '"' :: items.flatten ++ ['"'] ++ rest =
      '"' :: (items.flatten ++ '"' :: rest) := by
    simp
  rw [htext]
  apply (takes_satisfy rfl).bind
  rintro _ rfl
  apply (takesMany_quotedItems h).many.bind
  rintro _ rfl
  apply (takes_satisfy rfl).bind
  rintro _ rfl
  exact takes_pure rfl

theorem takes_quotedToken (layer : Layer) {items : List (List Char)}
    (h : ∀ item ∈ items, QuotedItem item)
    (hinput : skip input = '"' :: items.flatten ++ ['"'] ++ rest) :
    Takes (orElse (token .name (nameLexeme layer)) (token .quoted quoted)) input
      (fun t => t.kind = TokenKind.quoted.tag ∧
        t.text = String.ofList ('"' :: items.flatten ++ ['"']))
          (skip rest) := by
  have hname : Refuses (nameLexeme layer) (skip input) := by
    rw [hinput]
    exact (refuses_identifier (by rintro _ ⟨⟩; rfl)).check
  have hquoted :
      Takes quoted (skip input) (· = '"' :: items.flatten ++ ['"']) rest := by
    rw [hinput]
    exact takes_quoted h
  exact hname.located.bind.padded.takes_orElse (takes_token hquoted)

private theorem takes_variableAtom_quoted {items : List (List Char)}
    (h : ∀ item ∈ items, QuotedItem item)
    (hinput : skip input = '"' :: items.flatten ++ ['"'] ++ rest) :
    Takes (variableAtom .base) input
      (fun t => t.outline =
        .leaf .variable .quoted (Lexeme.quoted items h).chars)
      (skip rest) := by
  apply (takes_quotedToken .base h hinput).located.bind
  rintro ⟨t, span⟩ ⟨hkind, htext⟩
  exact takes_pure (Tree.outline_leaf span hkind htext)

theorem takes_of_lexeme {l : Lexeme} {P : Tree → Prop} (hcs : Lexes cs [l] rest)
    (h : ∀ middle, skip cs = l.chars ++ middle → l.StandsBefore middle →
      Takes p (skip cs) P (skip middle)) : Takes p (skip cs) P (skip rest) := by
  obtain ⟨middle, htext, hstands, hskip⟩ := hcs
  have hrest : skip middle = skip rest := hskip
  rw [← hrest]
  exact h middle htext hstands

theorem takes_operand_variable {P : Tree → Prop}
    (hliteral : Refuses literalAtom input)
    (hhead : ∀ y ∈ (skip input).head?, y ∉ ['!', '~', '('])
    (h : Takes (variableAtom .base) input P rest) :
    Takes (operand .base (n + 1)) input P rest := by
  refine takes_operand_variableAtom hliteral
    (refuses_prefixed ?_ nofun nofun) ?_ h
  · intro y hy
    constructor <;> rintro rfl <;> exact hhead _ hy (by decide)
  · rintro y hy rfl
    exact hhead _ hy (by decide)

theorem takes_operand_literal {l : Lexeme} (hcs : Lexes cs [l] rest)
    (h : ∀ middle, l.StandsBefore middle →
      Takes literalLexeme (l.chars ++ middle) (· = l.chars) middle) :
    Takes (operand .base (n + 1)) (skip cs)
      (fun t => t.outline = .leaf .literal .literal l.chars)
      (skip rest) := by
  apply takes_of_lexeme hcs
  intro middle htext hstands
  apply Takes.orElse
  apply takes_literalAtom
  rw [skip_skip, htext]
  exact h middle hstands

private theorem takes_operand_name (hword : isIdentifier word = true)
    (hfree : Layer.base.reserves word = false)
    (hcs : Lexes cs [.word word hword] rest) :
    Takes (operand .base (n + 1)) (skip cs)
      (fun t => t.outline = .leaf .variable .name word)
      (skip rest) := by
  apply takes_of_lexeme hcs
  intro middle htext hends
  rw [htext]
  apply takes_operand_variable
  · exact refuses_literalAtom_word hword hends
      (Layer.not_mem_of_reserves_eq_false hfree).1
  · intro x hx hsign
    have hother : ∀ y ∈ ['!', '~', '('], isNameStart y = false := by
      simp [isNameStart]
    have hname := isNameStart_head hword x hx
    rw [hother x hsign] at hname
    cases hname
  · exact takes_variableAtom_name hword hfree hends

private theorem takes_operand_quoted {items : List (List Char)}
    (hitems : ∀ item ∈ items, QuotedItem item)
    (hcs : Lexes cs [.quoted items hitems] rest) :
    Takes (operand .base (n + 1)) (skip cs)
      (fun t => t.outline =
        .leaf .variable .quoted (Lexeme.quoted items hitems).chars)
      (skip rest) := by
  apply takes_of_lexeme hcs
  intro middle htext _
  apply takes_operand_variable
  · rw [htext]
    exact refuses_literalAtom rfl rfl rfl
  · rw [skip_skip, htext]
    rintro _ ⟨⟩
    decide
  · apply takes_variableAtom_quoted hitems
    rw [skip_skip, htext]
    rfl

private theorem takes_operand_negation {o : Outline}
    (hsign : sign = .bang ∨ sign = .tilde)
    (htext : skip cs = sign.chars ++ middle)
    (h : Takes (operand .base n) (skip middle) (fun t => t.outline = o) rest) :
    Takes (operand .base (n + 1)) (skip cs)
      (fun t => t.outline = .node Rule.negation.name [o])
      rest := by
  have hliteral : Refuses literalAtom (skip cs) := by
    rw [htext]
    rcases hsign with rfl | rfl <;> exact refuses_literalAtom rfl rfl rfl
  have hopen : Takes (padded (satisfy fun c => c == '!' || c == '~')) (skip cs)
      (fun _ => True)
      (skip middle) := by
    apply Takes.padded
    rw [skip_skip, htext]
    rcases hsign with rfl | rfl <;>
      exact (takes_satisfy rfl).mono fun _ _ => trivial
  have hparts : Takes (do
      let _ ← padded (satisfy fun c => c == '!' || c == '~')
      return [Part.tree (← operand .base n)]) (skip cs)
      (fun parts => Tree.outlineOfParts parts = [o]) rest := by
    refine hopen.bind fun _ _ => h.bind fun t ht => takes_pure ?_
    rw [Tree.outlineOfParts, ht]
    rfl
  have hnode : Takes (negation (operand .base n)) (skip cs)
      (fun t => t.outline = .node Rule.negation.name [o]) rest := by
    apply hparts.located.bind
    rintro ⟨parts, span⟩ hparts
    apply takes_pure
    rw [Tree.outline, hparts]
  exact hliteral.takes_orElse hnode.orElse

private theorem takes_operand_group {o : Outline} {after : List Char}
    (hopen : skip cs = Sign.opening.chars ++ middle)
    (h : Takes (formula .base (operand .base n)) (skip middle)
      (fun t => t.outline = o) (skip after))
    (hclose : skip after = Sign.closing.chars ++ rest) :
    Takes (operand .base (n + 1)) (skip cs) (fun t => t.outline = o)
      (skip rest) := by
  have hliteral : Refuses literalAtom (skip cs) := by
    rw [hopen]
    exact refuses_literalAtom rfl rfl rfl
  have hnegation : Refuses (negation (operand .base n)) (skip cs) := by
    apply refuses_negation
    rw [skip_skip, hopen]
    rintro _ ⟨⟩
    decide
  have hgroup :
      Takes (parenthesized (formula .base (operand .base n))) (skip cs)
      (fun t => t.outline = o) (skip rest) :=
    (takes_sign hopen).bind fun _ _ => h.bind fun _ ht =>
      (takes_sign hclose).bind fun _ _ => takes_pure ht
  exact hliteral.takes_orElse (hnegation.takes_orElse hgroup.orElse)

end

private theorem recognizes_operand (n : Nat) :
    Recognizes (operand .base n) .unary [] n := by
  induction n with
  | zero =>
      intro ls o h hn
      cases h with
      | chain hs => cases hs
      | negation | group | literalWord | literalDigit | name | quoted =>
          exact absurd hn (Nat.not_succ_le_zero _)
  | succ n ih =>
      intro ls o h hn cs rest hcs hclear
      cases h with
      | negation hsign h =>
          obtain ⟨middle, htext, -, hcs⟩ := hcs
          exact takes_operand_negation hsign htext
            (ih _ _ h (Nat.le_of_succ_le_succ hn) _ _ hcs hclear)
      | group h =>
          obtain ⟨middle, hopen, -, hcs⟩ := hcs
          obtain ⟨after, hcs, last, hclose, -, hrest⟩ := lexes_append_iff.mp hcs
          rw [List.length_cons, List.length_append] at hn
          have hsign : Sign.closing.chars = [')'] := rfl
          have hafter : Clear ['<', '-', '^', '|', '&'] after :=
            clear_of_sign hsign (by decide) hclose
          have hgroup := ih.formula _ _ h (by omega) _ _ hcs hafter
          have hskip : skip last = skip rest := hrest
          rw [← hskip]
          exact takes_operand_group hopen hgroup hclose
      | literalWord hword hliteral =>
          exact takes_operand_literal hcs fun _ hends =>
            takes_literalLexeme_word hword hliteral hends
      | literalDigit hdigits hdigit =>
          exact takes_operand_literal hcs fun _ hends =>
            takes_literalLexeme_digit hdigit hends
      | name hword hfree => exact takes_operand_name hword hfree hcs
      | quoted hitems => exact takes_operand_quoted hitems hcs
      | chain hs => cases hs

private theorem derives_of_sentence {cs : List Char} {t : Tree} {c' : Cursor}
    (h : result? (sentence .base) (.ofText cs) = some (t, c')) :
    ∃ ls, Lexes cs ls [] ∧ Derives .formula ls t.outline := by
  obtain ⟨before, after, hbefore, hresult, hend⟩ := result?_sentence_eq_some h
  have hends : EndsDigits after.rest := by
    apply endsDigits_of_skip
    rw [hend]
    rintro _ ⟨⟩
  obtain ⟨ls, hls, ht⟩ :=
    (yields_operand _).formula before t after hresult hends
  rw [hbefore] at hls
  have hlast : Lexes after.rest [] [] := hend
  refine ⟨ls, ?_, ht⟩
  rw [← List.append_nil ls]
  exact (lexes_skip_iff.mp hls).append hlast

private theorem takes_sentence_of_derives {cs : List Char} {ls : List Lexeme}
    {o : Outline} (hcs : Lexes cs ls []) (h : Derives .formula ls o) :
    Takes (sentence .base) cs (fun t => t.outline = o) [] := by
  apply takes_sentence
  have hlength : ls.length ≤ cs.length + 1 := by
    have hle := hcs.length_add_le
    have hskip := length_skip_le cs
    omega
  have hclear : Clear ['<', '-', '^', '|', '&'] [] := by
    rintro _ ⟨⟩
  exact (recognizes_operand _).formula ls o h hlength cs [] hcs hclear

end Reader

/-- A text of the base layer is read exactly when it does not nest too deeply
and is derived by the grammar, and what is read then is the tree of the
derivation. -/
theorem Tree.exists_parse_base_iff_derives {source : String} {o : Outline} :
    (∃ t, Tree.parse .base source = .ok t ∧ t.outline = o) ↔
      Nesting.excess? .base source.toList = none ∧
        ∃ ls, Lexes source.toList ls [] ∧ Derives .formula ls o := by
  constructor
  · rintro ⟨t, hparse, rfl⟩
    obtain ⟨hnesting, c', hresult⟩ := Tree.parse_eq_ok_iff.mp hparse
    exact ⟨hnesting, Reader.derives_of_sentence hresult⟩
  · rintro ⟨hnesting, ls, hcs, h⟩
    exact Tree.exists_parse_eq_ok hnesting
      (Reader.takes_sentence_of_derives hcs h)

end LayeredLogic
