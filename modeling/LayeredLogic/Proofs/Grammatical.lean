import LayeredLogic.Proofs.Grammar

/-!
# The trees of a grammar

`Tree.Grammatical` lists the shapes of the trees that stand for formulas of a
layer: which parts stand under a rule, and what their tokens look like.  Every
tree that is read from a text is of one of these shapes, and a quoted name is in
it only if there is a double quote in the text.
-/

namespace LayeredLogic

def IsNumeral (cs : List Char) : Prop :=
  ∃ ds, (cs = ds ∨ cs = '-' :: ds) ∧ ds ≠ [] ∧ ∀ d ∈ ds, d.isDigit = true

namespace Token

def IsInteger (t : Token) : Prop :=
  t.kind = TokenKind.integer.tag ∧ IsNumeral t.text.toList

def IsIdentifier (t : Token) : Prop :=
  t.kind = TokenKind.name.tag ∧ isIdentifier t.text.toList = true

end Token

namespace Tree

inductive IsInterval : Tree → Prop
  | bounds {start stop : Option Token} (span : Span)
      (hstart : ∀ t ∈ start, t.IsInteger)
      (hstop : ∀ t ∈ stop, t.IsInteger) :
      IsInterval
        (.node Rule.interval.name [.ofToken? start, .ofToken? stop] span)

inductive IsGraphList : Tree → Prop
  | labels {first : Token} {others : List Token} (span : Span)
      (h : ∀ t ∈ first :: others, t.IsIdentifier) :
      IsGraphList
        (.node Rule.graphList.name ((first :: others).map .token) span)

/-- The trees of the formulas of a layer, with quoted names or without. -/
inductive Grammatical (layer : Layer) (quotes : Prop) : Tree → Prop
  | literal {t : Token} (span : Span) (hkind : t.kind = TokenKind.literal.tag) :
      Grammatical layer quotes (.node Rule.literal.name [.token t] span)
  | name {t : Token} (span : Span) (hname : t.IsIdentifier)
      (hfree : layer.reserves t.text.toList = false) :
      Grammatical layer quotes (.node Rule.variable.name [.token t] span)
  | quoted {t : Token} (span : Span) (hquotes : quotes)
      (hkind : t.kind = TokenKind.quoted.tag) :
      Grammatical layer quotes (.node Rule.variable.name [.token t] span)
  | negation {t : Tree} (span : Span) (h : Grammatical layer quotes t) :
      Grammatical layer quotes (.node Rule.negation.name [.tree t] span)
  | junction (k : Junction) {ts : List Tree} (span : Span)
      (hlength : 2 ≤ ts.length)
      (h : ∀ t ∈ ts, Grammatical layer quotes t) :
      Grammatical layer quotes (.node k.rule.name (ts.map .tree) span)
  | derived (c : Connective) {t u : Tree} (span : Span)
      (ht : Grammatical layer quotes t)
      (hu : Grammatical layer quotes u) :
      Grammatical layer quotes (.node c.rule.name [.tree t, .tree u] span)
  | next {count : Option Token} {t : Tree} (span : Span)
      (hlayer : layer.includes .ltl = true)
      (hcount : ∀ n ∈ count, n.IsInteger) (h : Grammatical layer quotes t) :
      Grammatical layer quotes
        (.node Rule.next.name [.ofToken? count, .tree t] span)
  | unary {rule : Rule} {modality : Option Interval → UnaryModality}
      {bounds : Option Tree}
      {t : Tree} (span : Span) (hknown : rule.unary? = some modality)
      (hlayer : layer.includes rule.layer = true)
      (hbounds : ∀ i ∈ bounds, i.IsInterval)
      (h : Grammatical layer quotes t) :
      Grammatical layer quotes (.node rule.name [.ofTree? bounds, .tree t] span)
  | binary {rule : Rule} {modality : Option Interval → BinaryModality}
      {bounds : Option Tree}
      {t u : Tree} (span : Span) (hknown : rule.binary? = some modality)
      (hlayer : layer.includes rule.layer = true)
      (hbounds : ∀ i ∈ bounds, i.IsInterval)
      (ht : Grammatical layer quotes t) (hu : Grammatical layer quotes u) :
      Grammatical layer quotes
        (.node rule.name [.tree t, .ofTree? bounds, .tree u] span)
  | graph (direction : Direction) {labels : Tree} {edges : Option Tree}
      {t : Tree} (span : Span)
      (hlayer : layer.includes .stlGo = true) (hlabels : labels.IsGraphList)
      (hedges : ∀ i ∈ edges, i.IsInterval) (h : Grammatical layer quotes t) :
      Grammatical layer quotes
        (.node direction.rule.name [.tree labels, .ofTree? edges, .tree t] span)

end Tree

namespace Reader

variable {α β : Type} {quotes : Prop} {p q : Reader α} {f : α → Reader β}
  {P Q : α → Prop} {R : β → Prop}

/-! ## What readers ensure -/

/-- What the reader gives has the property, on every text that holds a double
quote only if quotes are allowed.  The text that it leaves is of this kind
again. -/
def Ensures (quotes : Prop) (p : Reader α) (P : α → Prop) : Prop :=
  ∀ c a c', result? p c = some (a, c') → ('"' ∈ c.rest → quotes) →
    P a ∧ ('"' ∈ c'.rest → quotes)

theorem Ensures.mono (h : Ensures quotes p P) (hPQ : ∀ a, P a → Q a) :
    Ensures quotes p Q := by
  intro c a c' hresult hquotes
  obtain ⟨hP, hrest⟩ := h c a c' hresult hquotes
  exact ⟨hPQ a hP, hrest⟩

theorem ensures_pure {a : α} (h : P a) : Ensures quotes (pure a) P := by
  intro c b c' hresult hquotes
  obtain ⟨rfl, rfl⟩ := result?_pure_eq_some_iff.mp hresult
  exact ⟨h, hquotes⟩

theorem Ensures.bind (h : Ensures quotes p P)
    (hf : ∀ a, P a → Ensures quotes (f a) R) : Ensures quotes (p >>= f) R := by
  intro c b c' hresult hquotes
  obtain ⟨a, middle, ha, hb⟩ := result?_bind_eq_some_iff.mp hresult
  obtain ⟨hP, hmiddle⟩ := h c a middle ha hquotes
  exact hf a hP middle b c' hb hmiddle

theorem Ensures.orElse (hp : Ensures quotes p P) (hq : Ensures quotes q P) :
    Ensures quotes (orElse p q) P :=
  Tells.orElse hp hq

theorem ensures_firstOf {ps : List (Reader α)}
    (h : ∀ p ∈ ps, Ensures quotes p P) : Ensures quotes (firstOf ps) P :=
  tells_firstOf h

theorem Ensures.optional (h : Ensures quotes p P) :
    Ensures quotes (optional p) fun found => ∀ a ∈ found, P a := by
  refine Ensures.orElse (h.bind fun a ha => ensures_pure ?_)
    (ensures_pure (by simp))
  rintro _ ⟨⟩
  exact ha

theorem Ensures.check {ok : α → Bool} (h : Ensures quotes p P) :
    Ensures quotes (check p ok) fun a => P a ∧ ok a = true := by
  intro c a c' hresult hquotes
  obtain ⟨hresult, hok⟩ := result?_check_eq_some_iff.mp hresult
  obtain ⟨hP, hrest⟩ := h c a c' hresult hquotes
  exact ⟨⟨hP, hok⟩, hrest⟩

theorem Ensures.located (h : Ensures quotes p P) :
    Ensures quotes (located p) fun found => P found.1 :=
  Tells.located h

theorem ensures_run (ok : Char → Bool) :
    Ensures quotes (run ok) fun cs => ∀ c ∈ cs, ok c = true := by
  rintro c cs c' ⟨⟩ hquotes
  refine ⟨fun d hd => List.all_eq_true.mp List.all_takeWhile d hd, ?_⟩
  exact fun hmem => hquotes ((List.dropWhile_sublist ok).mem hmem)

theorem Ensures.padded (h : Ensures quotes p P) :
    Ensures quotes (padded p) P := by
  refine (ensures_run isBlank).bind fun _ _ => ?_
  refine h.bind fun a ha => ?_
  exact (ensures_run isBlank).bind fun _ _ => ensures_pure ha

theorem ensures_satisfy (ok : Char → Bool) :
    Ensures quotes (satisfy ok) fun c => ok c = true ∧ (c = '"' → quotes) := by
  intro c x c' hresult hquotes
  obtain ⟨htext, hx⟩ := result?_satisfy_eq_some hresult
  rw [htext] at hquotes
  refine ⟨⟨hx, ?_⟩, fun hmem => hquotes (List.mem_cons_of_mem _ hmem)⟩
  rintro rfl
  exact hquotes List.mem_cons_self

private theorem ensures_exactly (cs : List Char) :
    Ensures quotes (exactly cs) fun _ => True := by
  induction cs with
  | nil => exact ensures_pure trivial
  | cons c cs ih => exact (ensures_satisfy _).bind fun _ _ => ih

theorem Ensures.upTo (h : Ensures quotes p P) (n : Nat) :
    Ensures quotes (upTo p n) fun as => ∀ a ∈ as, P a := by
  induction n with
  | zero => exact ensures_pure (by simp)
  | succ n ih =>
      refine h.optional.bind fun found hfound => ?_
      cases found with
      | none => exact ensures_pure (by simp)
      | some a =>
          refine ih.bind fun as has => ensures_pure ?_
          intro b hb
          rcases List.mem_cons.mp hb with rfl | hb
          · exact hfound b rfl
          · exact has b hb

theorem Ensures.many (h : Ensures quotes p P) :
    Ensures quotes (many p) fun as => ∀ a ∈ as, P a :=
  fun c => h.upTo c.rest.length c

theorem Ensures.sepBy {separator : Reader Unit} (h : Ensures quotes p P)
    (hseparator : Ensures quotes separator fun _ => True) :
    Ensures quotes (sepBy p separator) fun found =>
      ∀ a ∈ found.1 :: found.2, P a := by
  refine h.bind fun first hfirst => ?_
  refine (Ensures.many (hseparator.bind fun _ _ => h)).bind
    fun others hothers => ?_
  exact ensures_pure (List.forall_mem_cons.mpr ⟨hfirst, hothers⟩)

theorem ensures_symbol (cs : List Char) :
    Ensures quotes (symbol cs) fun _ => True :=
  (ensures_exactly cs).padded

theorem ensures_identifier :
    Ensures quotes identifier fun cs => isIdentifier cs = true := by
  refine (ensures_satisfy isNameStart).bind fun first hfirst => ?_
  refine (ensures_run isNameChar).bind fun others hothers => ensures_pure ?_
  rw [isIdentifier, hfirst.1, List.all_eq_true.mpr hothers]
  rfl

theorem ensures_keyword (word : List Char) :
    Ensures quotes (keyword word) fun _ => True :=
  ensures_identifier.check.padded.bind fun _ _ => ensures_pure trivial

theorem ensures_digits :
    Ensures quotes digits fun ds => ds ≠ [] ∧ ∀ d ∈ ds, d.isDigit = true := by
  refine (ensures_satisfy Char.isDigit).bind fun first hfirst => ?_
  split
  · exact ensures_pure
      ⟨List.cons_ne_nil _ _, List.forall_mem_singleton.mpr hfirst.1⟩
  · refine (ensures_run Char.isDigit).bind fun others hothers => ensures_pure ?_
    exact ⟨List.cons_ne_nil _ _, List.forall_mem_cons.mpr ⟨hfirst.1, hothers⟩⟩

private theorem ensures_signedDigits :
    Ensures quotes signedDigits IsNumeral := by
  refine (ensures_satisfy (· == '-')).optional.bind fun sign hsign => ?_
  refine ensures_digits.bind fun ds hds => ensures_pure ⟨ds, ?_, hds⟩
  cases sign with
  | none => exact Or.inl rfl
  | some c =>
      obtain rfl := eq_of_beq (hsign c rfl).1
      exact Or.inr rfl

private theorem ensures_quoted : Ensures quotes quoted fun _ => quotes := by
  have hitem : Ensures quotes quotedItem fun _ => True := by
    refine Ensures.orElse ?_ ?_
    · exact (ensures_satisfy _).bind fun _ _ =>
        (ensures_satisfy _).bind fun _ _ =>
        ensures_pure trivial
    · exact (ensures_satisfy _).bind fun _ _ => ensures_pure trivial
  refine (ensures_satisfy (· == '"')).bind fun first hfirst => ?_
  refine hitem.many.bind fun _ _ => ?_
  refine (ensures_satisfy (· == '"')).bind fun _ _ => ensures_pure ?_
  exact hfirst.2 (eq_of_beq hfirst.1)

theorem Ensures.token {kind : TokenKind} {lexeme : Reader (List Char)}
    {P : List Char → Prop} (h : Ensures quotes lexeme P) :
    Ensures quotes (token kind lexeme) fun t =>
      t.kind = kind.tag ∧ P t.text.toList := by
  refine Ensures.padded (h.located.bind fun _ hfound => ensures_pure ⟨rfl, ?_⟩)
  rwa [String.toList_ofList]

theorem ensures_integer : Ensures quotes integer Token.IsInteger :=
  ensures_signedDigits.token

theorem ensures_interval : Ensures quotes interval Tree.IsInterval := by
  have hparts : Ensures quotes (do
      symbol ['[']
      let start ← optional integer
      symbol [',']
      let stop ← optional integer
      symbol [']']
      return [Part.ofToken? start, Part.ofToken? stop])
      fun parts =>
        ∀ span, Tree.IsInterval (.node Rule.interval.name parts span) := by
    refine (ensures_symbol _).bind fun _ _ => ?_
    refine ensures_integer.optional.bind fun start hstart => ?_
    refine (ensures_symbol _).bind fun _ _ => ?_
    refine ensures_integer.optional.bind fun stop hstop => ?_
    refine (ensures_symbol _).bind fun _ _ => ?_
    exact ensures_pure fun span => .bounds span hstart hstop
  exact hparts.located.bind fun _ hfound => ensures_pure (hfound _)

private theorem ensures_steps : Ensures quotes steps Token.IsInteger := by
  refine (ensures_symbol _).bind fun _ _ => ?_
  refine ensures_integer.bind fun count hcount => ?_
  exact (ensures_symbol _).bind fun _ _ => ensures_pure hcount

private theorem ensures_graphList :
    Ensures quotes graphList Tree.IsGraphList := by
  have hlabel : Ensures quotes (token .name identifier) Token.IsIdentifier :=
    ensures_identifier.token
  have hnames : Ensures quotes (do
      symbol ['{']
      let names ← sepBy (token .name identifier) (symbol [','])
      symbol ['}']
      return names) fun names => ∀ t ∈ names.1 :: names.2, t.IsIdentifier := by
    refine (ensures_symbol _).bind fun _ _ => ?_
    refine (hlabel.sepBy (ensures_symbol _)).bind fun names hnames => ?_
    exact (ensures_symbol _).bind fun _ _ => ensures_pure hnames
  exact hnames.located.bind fun _ hfound => ensures_pure (.labels _ hfound)

/-! ## Formulas -/

variable {layer : Layer} {op : Reader Tree}

abbrev Sound (layer : Layer) (quotes : Prop) (p : Reader Tree) : Prop :=
  Ensures quotes p (Tree.Grammatical layer quotes)

private theorem sound_literalAtom : Sound layer quotes literalAtom := by
  have hlexeme : Ensures quotes literalLexeme fun _ => True :=
    Ensures.orElse (ensures_identifier.check.mono fun _ _ => trivial)
      (ensures_digits.check.mono fun _ _ => trivial)
  exact hlexeme.token.located.bind fun _ hfound =>
    ensures_pure (.literal _ hfound.1)

private theorem sound_variableAtom :
    Sound layer quotes (variableAtom layer) := by
  have hname : Ensures quotes (token .name (nameLexeme layer))
      fun t => ∀ span,
        Tree.Grammatical layer quotes
          (.node Rule.variable.name [.token t] span) := by
    refine ensures_identifier.check.token.mono fun t ht span => ?_
    obtain ⟨hkind, hword, hfree⟩ := ht
    exact .name span ⟨hkind, hword⟩ (by simpa using hfree)
  have hquoted : Ensures quotes (token .quoted quoted)
      fun t =>
        ∀ span, Tree.Grammatical layer quotes
          (.node Rule.variable.name [.token t] span) :=
    ensures_quoted.token.mono fun t ht span => .quoted span ht.2 ht.1
  exact (hname.orElse hquoted).located.bind fun _ hfound =>
    ensures_pure (hfound _)

theorem Sound.parenthesized (h : Sound layer quotes op) :
    Sound layer quotes (parenthesized op) := by
  refine (ensures_symbol _).bind fun _ _ => ?_
  refine h.bind fun t ht => ?_
  exact (ensures_symbol _).bind fun _ _ => ensures_pure ht

theorem sound_node {rule : Rule} {parts : Reader (List Part)}
    (h : Ensures quotes parts fun ps => ∀ span,
      Tree.Grammatical layer quotes (.node rule.name ps span)) :
    Sound layer quotes (node rule parts) :=
  h.located.bind fun _ hfound => ensures_pure (hfound _)

theorem Sound.negation (h : Sound layer quotes op) :
    Sound layer quotes (negation op) := by
  apply sound_node
  refine (ensures_satisfy _).padded.bind fun _ _ => ?_
  exact h.bind fun t ht => ensures_pure fun span => .negation span ht

theorem Sound.next (h : Sound layer quotes op)
    (hltl : layer.includes .ltl = true) : Sound layer quotes (next op) := by
  apply sound_node
  refine (ensures_symbol _).bind fun _ _ => ?_
  refine ensures_steps.optional.bind fun count hcount => ?_
  exact h.bind fun t ht => ensures_pure fun span => .next span hltl hcount ht

theorem Sound.bounded {rule : Rule} {modality : Option Interval → UnaryModality}
    {operator : Reader Unit} (h : Sound layer quotes op)
    (hknown : rule.unary? = some modality)
    (hlayer : layer.includes rule.layer = true)
    (hoperator : Ensures quotes operator fun _ => True) :
    Sound layer quotes (bounded rule operator op) := by
  apply sound_node
  refine hoperator.bind fun _ _ => ?_
  refine ensures_interval.optional.bind fun bounds hbounds => ?_
  exact h.bind fun t ht =>
    ensures_pure fun span => .unary span hknown hlayer hbounds ht

theorem Sound.graph (h : Sound layer quotes op) (direction : Direction)
    (word : List Char) (hgraph : layer.includes .stlGo = true) :
    Sound layer quotes (graph direction.rule word op) := by
  apply sound_node
  refine (ensures_keyword word).bind fun _ _ => ?_
  refine ensures_graphList.bind fun labels hlabels => ?_
  refine ensures_interval.optional.bind fun edges hedges => ?_
  exact h.bind fun t ht =>
    ensures_pure fun span => .graph direction span hgraph hlabels hedges ht

theorem Sound.prefixed (h : Sound layer quotes op) :
    ∀ p ∈ prefixed layer op, Sound layer quotes p :=
  forall_mem_prefixed h.negation
    (fun hltl => ⟨h.next hltl, h.bounded rfl hltl (ensures_symbol _),
      h.bounded rfl hltl (ensures_symbol _)⟩)
    (fun hstrel => ⟨h.bounded rfl hstrel (ensures_keyword _),
      h.bounded rfl hstrel (ensures_keyword _),
      h.bounded rfl hstrel (ensures_keyword _)⟩)
    fun hgraph => ⟨h.graph .incoming _ hgraph, h.graph .outgoing _ hgraph⟩

def IsBinaryRule (layer : Layer) (rule : Rule) : Prop :=
  layer.includes rule.layer = true ∧ ∃ modality, rule.binary? = some modality

private theorem ensures_binaryModality (hltl : layer.includes .ltl = true) :
    Ensures quotes (binaryModality layer) (IsBinaryRule layer) := by
  apply ensures_firstOf
  intro p hp
  rcases List.mem_cons.mp hp with rfl | hp
  · exact (ensures_symbol _).bind fun _ _ => ensures_pure ⟨hltl, _, rfl⟩
  · split at hp
    · rename_i hstrel
      obtain rfl := List.mem_singleton.mp hp
      exact (ensures_keyword _).bind fun _ _ => ensures_pure ⟨hstrel, _, rfl⟩
    · cases hp

theorem Sound.modal (h : Sound layer quotes op) :
    Sound layer quotes (modal layer op) := by
  unfold Reader.modal
  split
  · rename_i hltl
    have hitem : Ensures quotes (modalItem layer op) fun item =>
        IsBinaryRule layer item.1 ∧
          (∀ i ∈ item.2.1, i.IsInterval) ∧
            item.2.2.Grammatical layer quotes := by
      refine (ensures_binaryModality hltl).bind fun rule hrule => ?_
      refine ensures_interval.optional.bind fun bounds hbounds => ?_
      exact h.bind fun t ht => ensures_pure ⟨hrule, hbounds, ht⟩
    refine h.bind fun first hfirst => ?_
    refine hitem.many.bind fun others hothers => ensures_pure ?_
    induction others generalizing first with
    | nil => exact hfirst
    | cons item others ih =>
        obtain ⟨⟨hlayer, modality, hknown⟩, hbounds, ht⟩ :=
          hothers item List.mem_cons_self
        exact ih _ (.binary _ hknown hlayer hbounds hfirst ht)
          fun other hother => hothers other (List.mem_cons_of_mem _ hother)
  · exact h

theorem Sound.level {tighter : Reader Tree} {group : Tree → List Tree → Tree}
    (h : Sound layer quotes tighter) (sign : List Char)
    (hgroup :
      ∀ first others, (∀ t ∈ first :: others, t.Grammatical layer quotes) →
        (group first others).Grammatical layer quotes) :
    Sound layer quotes (level sign group tighter) :=
  (h.sepBy (ensures_symbol sign)).bind fun _ hfound =>
    ensures_pure (hgroup _ _ hfound)

theorem grammatical_chain (k : Junction) (first : Tree) (others : List Tree)
    (h : ∀ t ∈ first :: others, t.Grammatical layer quotes) :
    (Tree.chain k.rule first others).Grammatical layer quotes := by
  unfold Tree.chain
  split
  · exact h first List.mem_cons_self
  · rename_i last hlast
    have hne : others ≠ [] := by
      rintro rfl
      cases hlast
    have hpos := List.length_pos_iff.mpr hne
    have hlength : 2 ≤ (first :: others).length := by
      rw [List.length_cons]
      omega
    exact .junction k _ hlength h

theorem grammatical_groupLeft (c : Connective) (first : Tree)
    (others : List Tree)
    (h : ∀ t ∈ first :: others, t.Grammatical layer quotes) :
    (Tree.groupLeft c.rule first others).Grammatical layer quotes := by
  induction others generalizing first with
  | nil => exact h first List.mem_cons_self
  | cons second others ih =>
      obtain ⟨hfirst, hothers⟩ := List.forall_mem_cons.mp h
      obtain ⟨hsecond, hothers⟩ := List.forall_mem_cons.mp hothers
      apply ih (Tree.pair c.rule first second)
      exact List.forall_mem_cons.mpr ⟨.derived c _ hfirst hsecond, hothers⟩

private theorem grammatical_groupRight (c : Connective) (first : Tree)
    (others : List Tree)
    (h : ∀ t ∈ first :: others, t.Grammatical layer quotes) :
    (Tree.groupRight c.rule first others).Grammatical layer quotes := by
  induction others generalizing first with
  | nil => exact h first List.mem_cons_self
  | cons second others ih =>
      obtain ⟨hfirst, hothers⟩ := List.forall_mem_cons.mp h
      exact .derived c _ hfirst (ih second hothers)

theorem Sound.formula (h : Sound layer quotes op) :
    Sound layer quotes (formula layer op) := by
  have hand := h.modal.level ['&'] (grammatical_chain .and)
  have hor := hand.level ['|'] (grammatical_chain .or)
  have hxor := hor.level ['^'] (grammatical_groupLeft .xor)
  have himplies := hxor.level ['-', '>'] (grammatical_groupRight .implies)
  exact himplies.level ['<', '-', '>'] (grammatical_groupLeft .equiv)

private theorem sound_operand (n : Nat) :
    Sound layer quotes (operand layer n) := by
  induction n with
  | zero =>
      intro c t c' h
      cases h
  | succ n ih =>
      apply ensures_firstOf
      intro p hp
      simp only [List.cons_append, List.mem_cons, List.mem_append,
        List.not_mem_nil, or_false] at hp
      rcases hp with rfl | hp | rfl | rfl
      · exact sound_literalAtom
      · exact ih.prefixed p hp
      · exact ih.formula.parenthesized
      · exact sound_variableAtom

end Reader

theorem Tree.grammatical_of_parse {layer : Layer} {source : String} {t : Tree}
    (h : Tree.parse layer source = .ok t) :
    t.Grammatical layer ('"' ∈ source.toList) := by
  obtain ⟨-, c', hresult⟩ := Tree.parse_eq_ok_iff.mp h
  obtain ⟨before, after, hbefore, hresult, -⟩ :=
    Reader.result?_sentence_eq_some hresult
  have hquotes : '"' ∈ before.rest → '"' ∈ source.toList := by
    rw [hbefore]
    exact mem_of_mem_skip
  exact ((Reader.sound_operand _).formula before t after hresult hquotes).1

end LayeredLogic
