import LayeredLogic.Proofs.BaseNesting

/-!
# Derivations in the base layer

The grammar of the base layer, apart from how it is read.  A text is a row of
lexemes with white space around each of them, and `Derives` says of which rows a
formula consists and what its tree looks like.  Loosest to tightest, the strata
are

    formula     = implication (<-> implication)*
    implication = exclusive (-> implication)?
    exclusive   = disjunction (^ disjunction)*
    disjunction = conjunction (| conjunction)*
    conjunction = unary (& unary)*
    unary       = (! | ~) unary | ( formula ) | literal | name | quoted name
-/

namespace LayeredLogic

inductive Outline where
  | node (rule : String) (parts : List Outline)
  | token (kind text : String)
  | absent

namespace Outline

def leaf (rule : Rule) (kind : TokenKind) (text : List Char) : Outline :=
  node rule.name [token kind.tag (String.ofList text)]

def pair (rule : Rule) (lhs rhs : Outline) : Outline :=
  node rule.name [lhs, rhs]

def chain (rule : Rule) (first : Outline) : List Outline → Outline
  | [] => first
  | second :: others => node rule.name (first :: second :: others)

def groupLeft (rule : Rule) (first : Outline) (others : List Outline) :
    Outline :=
  others.foldl (pair rule) first

def groupRight (rule : Rule) (first : Outline) : List Outline → Outline
  | [] => first
  | second :: others => pair rule first (groupRight rule second others)

end Outline

namespace Tree

mutual

def outline : Tree → Outline
  | node rule parts _ => .node rule (outlineOfParts parts)

def outlineOfParts : List Part → List Outline
  | [] => []
  | .tree t :: rest => t.outline :: outlineOfParts rest
  | .token t :: rest => .token t.kind t.text :: outlineOfParts rest
  | .absent :: rest => .absent :: outlineOfParts rest

end

private theorem outlineOfParts_trees (ts : List Tree) :
    outlineOfParts (ts.map .tree) = ts.map outline := by
  induction ts with
  | nil => rfl
  | cons t ts ih => rw [List.map_cons, outlineOfParts, ih, List.map_cons]

theorem outline_leaf {rule : Rule} {kind : TokenKind} {cs : List Char}
    {t : Token} (span : Span) (hkind : t.kind = kind.tag)
    (htext : t.text = String.ofList cs) :
    (node rule.name [.token t] span).outline = .leaf rule kind cs := by
  simp only [outline, outlineOfParts, hkind, htext]
  rfl

theorem outline_pair (rule : Rule) (t u : Tree) :
    (pair rule t u).outline = .pair rule t.outline u.outline := by
  simp only [pair, outline, outlineOfParts]
  rfl

theorem outline_chain (rule : Rule) (t : Tree) (ts : List Tree) :
    (chain rule t ts).outline = .chain rule t.outline (ts.map outline) := by
  cases ts with
  | nil => rfl
  | cons u us =>
      have hparts : outlineOfParts (.tree t :: (u :: us).map .tree) =
          t.outline :: (u :: us).map outline :=
            outlineOfParts_trees (t :: u :: us)
      rw [chain, List.getLast?_cons, outline, hparts]
      rfl

theorem outline_groupLeft (rule : Rule) (t : Tree) (ts : List Tree) :
    (groupLeft rule t ts).outline =
      .groupLeft rule t.outline (ts.map outline) := by
  induction ts generalizing t with
  | nil => rfl
  | cons u us ih =>
      have hstep := ih (pair rule t u)
      rw [outline_pair] at hstep
      exact hstep

theorem outline_groupRight (rule : Rule) (t : Tree) (ts : List Tree) :
    (groupRight rule t ts).outline =
      .groupRight rule t.outline (ts.map outline) := by
  induction ts generalizing t with
  | nil => rfl
  | cons u us ih =>
      rw [groupRight, outline_pair, ih]
      rfl

end Tree

/-! ## Lexemes -/

def EndsDigits (cs : List Char) : Prop := ∀ c ∈ cs.head?, c.isDigit = false

inductive Sign where
  | opening
  | closing
  | bang
  | tilde
  | junction (k : Junction)
  | connective (c : Connective)

def Sign.chars : Sign → List Char
  | opening => ['(']
  | closing => [')']
  | bang => ['!']
  | tilde => ['~']
  | junction k => k.symbol
  | connective c => c.symbol

theorem Sign.exists_chars_eq (s : Sign) :
    ∃ c cs, s.chars = c :: cs ∧ isBlank c = false ∧ c.isDigit = false := by
  cases s with
  | junction k => cases k <;> exact ⟨_, _, rfl, by decide, by decide⟩
  | connective c => cases c <;> exact ⟨_, _, rfl, by decide, by decide⟩
  | opening | closing | bang | tilde => exact ⟨_, _, rfl, by decide, by decide⟩

inductive Lexeme where
  | word (cs : List Char) (h : isIdentifier cs = true)
  | digits (cs : List Char) (h : cs ≠ [] ∧ ∀ d ∈ cs, d.isDigit = true)
  | quoted (items : List (List Char))
      (h : ∀ item ∈ items, Nesting.QuotedItem item)
  | sign (s : Sign)

namespace Lexeme

def chars : Lexeme → List Char
  | word cs _ | digits cs _ => cs
  | quoted items _ => '"' :: items.flatten ++ ['"']
  | sign s => s.chars

/-- Words and runs of digits go on as far as they can. -/
def StandsBefore : Lexeme → List Char → Prop
  | word _ _, rest => EndsName rest
  | digits _ _, rest => EndsDigits rest
  | quoted _ _, _ | sign _, _ => True

private theorem chars_pos (l : Lexeme) : 0 < l.chars.length := by
  cases l with
  | word cs h =>
      cases cs with
      | nil => cases h
      | cons => simp [chars]
  | digits cs h => exact List.length_pos_iff.mpr h.1
  | quoted items h => simp [chars]
  | sign s =>
      obtain ⟨c, cs, hchars, -⟩ := s.exists_chars_eq
      simp [chars, hchars]

end Lexeme

/-- The lexemes stand one after the other at the front of the text and leave the
rest.  White space around a lexeme does not matter. -/
def Lexes : List Char → List Lexeme → List Char → Prop
  | cs, [], rest => skip cs = skip rest
  | cs, l :: ls, rest =>
      ∃ middle, skip cs = l.chars ++ middle ∧ l.StandsBefore middle ∧
        Lexes middle ls rest

section

variable {cs middle rest : List Char} {l : Lexeme} {ls ms : List Lexeme}

theorem lexes_skip_iff : Lexes (skip cs) ls rest ↔ Lexes cs ls rest := by
  cases ls with
  | nil => simp only [Lexes, skip_skip]
  | cons l ls => simp only [Lexes, skip_skip]

private theorem Lexes.of_skip_eq (h : Lexes middle ls rest)
    (hskip : skip cs = skip middle) : Lexes cs ls rest := by
  rw [← lexes_skip_iff, hskip, lexes_skip_iff]
  exact h

theorem lexes_append_iff :
    Lexes cs (ls ++ ms) rest ↔
    ∃ middle, Lexes cs ls middle ∧ Lexes middle ms rest := by
  induction ls generalizing cs with
  | nil =>
      constructor
      · exact fun h => ⟨cs, rfl, h⟩
      · rintro ⟨middle, hskip, h⟩
        exact h.of_skip_eq hskip
  | cons l ls ih =>
      constructor
      · rintro ⟨next, htext, hstands, h⟩
        obtain ⟨middle, hls, hms⟩ := ih.mp h
        exact ⟨middle, ⟨next, htext, hstands, hls⟩, hms⟩
      · rintro ⟨middle, ⟨next, htext, hstands, hls⟩, hms⟩
        exact ⟨next, htext, hstands, ih.mpr ⟨middle, hls, hms⟩⟩

theorem Lexes.append (h : Lexes cs ls middle) (h' : Lexes middle ms rest) :
    Lexes cs (ls ++ ms) rest :=
  lexes_append_iff.mpr ⟨middle, h, h'⟩

theorem lexes_singleton (htext : skip cs = l.chars ++ rest)
    (hstands : l.StandsBefore rest) : Lexes cs [l] (skip rest) :=
  ⟨rest, htext, hstands, (skip_skip rest).symm⟩

theorem Lexes.length_add_le (h : Lexes cs ls rest) :
    ls.length + (skip rest).length ≤ (skip cs).length := by
  induction ls generalizing cs with
  | nil =>
      have hskip : skip cs = skip rest := h
      simp [hskip]
  | cons l ls ih =>
      obtain ⟨middle, htext, -, h⟩ := h
      have hle := ih h
      have hpos := l.chars_pos
      have hskip := length_skip_le middle
      rw [htext, List.length_append, List.length_cons]
      omega

end

/-! ## Derivations -/

inductive Stratum where
  | unary
  | conjunction
  | disjunction
  | exclusive
  | implication
  | formula

/-- The strata that are chains of the one below, with the sign between the
values and the way in which they are put together. -/
inductive Stratum.Chains :
    Stratum → Stratum → Sign → (Outline → List Outline → Outline) → Prop
  | conjunction :
      Chains conjunction unary (.junction .and) (.chain .conjunction)
  | disjunction :
      Chains disjunction conjunction (.junction .or) (.chain .disjunction)
  | exclusive :
      Chains exclusive disjunction (.connective .xor) (.groupLeft .xor)
  | formula :
      Chains formula implication (.connective .equiv) (.groupLeft .equiv)

def IsChain (P : List Lexeme → Outline → Prop) (sign : Sign)
    (group : Outline → List Outline → Outline) (ls : List Lexeme)
    (o : Outline) : Prop :=
  ∃ (first : List Lexeme × Outline) (others : List (List Lexeme × Outline)),
    (∀ x ∈ first :: others, P x.1 x.2) ∧
    ls = first.1 ++ others.flatMap (fun x => .sign sign :: x.1) ∧
    o = group first.2 (others.map Prod.snd)

/-- The lexemes are derived from the stratum, and the outline is that of the
derivation's tree. -/
inductive Derives : Stratum → List Lexeme → Outline → Prop
  | negation {sign : Sign} {ls : List Lexeme} {o : Outline}
      (hsign : sign = .bang ∨ sign = .tilde)
      (h : Derives .unary ls o) :
      Derives .unary (.sign sign :: ls) (.node Rule.negation.name [o])
  | group {ls : List Lexeme} {o : Outline} (h : Derives .formula ls o) :
      Derives .unary (.sign .opening :: (ls ++ [.sign .closing])) o
  | literalWord {cs : List Char} (h : isIdentifier cs = true)
      (hword : cs ∈ literalWords) :
      Derives .unary [.word cs h] (.leaf .literal .literal cs)
  | literalDigit {cs : List Char} (h : cs ≠ [] ∧ ∀ d ∈ cs, d.isDigit = true)
      (hdigit : cs = ['0'] ∨ cs = ['1']) :
      Derives .unary [.digits cs h] (.leaf .literal .literal cs)
  | name {cs : List Char} (h : isIdentifier cs = true)
      (hfree : Layer.base.reserves cs = false) :
      Derives .unary [.word cs h] (.leaf .variable .name cs)
  | quoted {items : List (List Char)}
      (h : ∀ item ∈ items, Nesting.QuotedItem item) :
      Derives .unary [.quoted items h]
        (.leaf .variable .quoted (Lexeme.quoted items h).chars)
  | chain {s tighter : Stratum} {sign : Sign}
      {group : Outline → List Outline → Outline}
      (hs : s.Chains tighter sign group) {first : List Lexeme × Outline}
      {others : List (List Lexeme × Outline)}
      (h : ∀ x ∈ first :: others, Derives tighter x.1 x.2) :
      Derives s (first.1 ++ others.flatMap fun x => .sign sign :: x.1)
        (group first.2 (others.map Prod.snd))
  | consequent {ls : List Lexeme} {o : Outline} (h : Derives .exclusive ls o) :
      Derives .implication ls o
  | implication {ls ms : List Lexeme} {o u : Outline}
      (hl : Derives .exclusive ls o)
      (hr : Derives .implication ms u) :
      Derives .implication (ls ++ .sign (.connective .implies) :: ms)
        (.pair .implies o u)

section

variable {s tighter : Stratum} {sign : Sign}
  {group : Outline → List Outline → Outline} {ls : List Lexeme} {o : Outline}

theorem derives_iff_isChain (hs : s.Chains tighter sign group) :
    Derives s ls o ↔ IsChain (Derives tighter) sign group ls o := by
  constructor
  · intro h
    cases hs <;> cases h with
    | chain hs h =>
        cases hs
        exact ⟨_, _, h, rfl, rfl⟩
  · rintro ⟨first, others, h, rfl, rfl⟩
    exact .chain hs h

private theorem isChain_of_derives_implication (h : Derives .implication ls o) :
    IsChain (Derives .exclusive) (.connective .implies)
      (.groupRight .implies) ls o := by
  generalize hs : Stratum.implication = s at h
  induction h with
  | consequent h => exact ⟨(_, _), [], by simpa using h, by simp, rfl⟩
  | implication hl hr ihl ihr =>
      obtain ⟨first, others, hall, rfl, rfl⟩ := ihr rfl
      exact ⟨(_, _), first :: others, List.forall_mem_cons.mpr ⟨hl, hall⟩,
        rfl, rfl⟩
  | chain hs' => cases hs' <;> cases hs
  | negation | group | literalWord | literalDigit | name | quoted => cases hs

private theorem derives_implication_of_isChain
    (h : IsChain (Derives .exclusive) (.connective .implies)
      (.groupRight .implies) ls o) : Derives .implication ls o := by
  obtain ⟨first, others, hall, rfl, rfl⟩ := h
  induction others generalizing first with
  | nil =>
      rw [List.flatMap_nil, List.append_nil]
      exact .consequent (hall first List.mem_cons_self)
  | cons second others ih =>
      obtain ⟨hfirst, hothers⟩ := List.forall_mem_cons.mp hall
      exact .implication hfirst (ih second hothers)

theorem derives_implication_iff :
    Derives .implication ls o ↔
      IsChain (Derives .exclusive) (.connective .implies)
        (.groupRight .implies) ls o :=
  ⟨isChain_of_derives_implication, derives_implication_of_isChain⟩

end

end LayeredLogic
