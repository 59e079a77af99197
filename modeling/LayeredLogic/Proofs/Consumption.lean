import LayeredLogic.Proofs.BaseNesting

/-!
# What readers take off a text

Every reader of the grammar takes a piece off the front of its text.  The piece
has any property that single characters, quoted names and groups in parentheses
have and that is kept when pieces are put one after the other.
-/

namespace LayeredLogic

def Inert (ok : Char → Bool) : Prop :=
  ok '(' = false ∧ ok ')' = false ∧ ok '"' = false ∧ ok ']' = false

instance (ok : Char → Bool) : Decidable (Inert ok) := by
  unfold Inert
  infer_instance

theorem Inert.ne {ok : Char → Bool} (h : Inert ok) {c : Char}
    (hc : ok c = true) : c ≠ '(' ∧ c ≠ ')' ∧ c ≠ '"' := by
  obtain ⟨hopening, hclosing, hquote, -⟩ := h
  refine ⟨?_, ?_, ?_⟩ <;> rintro rfl
  · exact absurd hc (by simp [hopening])
  · exact absurd hc (by simp [hclosing])
  · exact absurd hc (by simp [hquote])

def delimiters : List Char := ['(', ')', '"', '[', ']', '{', '}']

def Undelimited (ok : Char → Bool) : Prop := ∀ c ∈ delimiters, ok c = false

instance (ok : Char → Bool) : Decidable (Undelimited ok) :=
  inferInstanceAs (Decidable (∀ c ∈ delimiters, ok c = false))

theorem Undelimited.not_mem {ok : Char → Bool} (h : Undelimited ok) {c : Char}
    (hc : ok c = true) : c ∉ delimiters := by
  intro hmem
  rw [h c hmem] at hc
  cases hc

namespace Reader

variable {α β : Type} {p q : Reader α} {f : α → Reader β}
  {S T U : List Char → Prop}

/-! ## Combinators -/

/-- The reader takes a piece with the property off the front of a text. -/
def Consumes (T : List Char → Prop) (p : Reader α) : Prop :=
  ∀ c a c', result? p c = some (a, c') →
    ∃ taken, T taken ∧ c.rest = taken ++ c'.rest

theorem Consumes.mono (h : Consumes S p) (hST : ∀ s, S s → T s) :
    Consumes T p := by
  intro c a c' hresult
  obtain ⟨taken, htaken, hrest⟩ := h c a c' hresult
  exact ⟨taken, hST taken htaken, hrest⟩

theorem consumes_pure (a : α) (h : T []) : Consumes T (pure a) := by
  intro c b c' hresult
  obtain ⟨-, rfl⟩ := result?_pure_eq_some_iff.mp hresult
  exact ⟨[], h, rfl⟩

private theorem consumes_fail : Consumes T (fail : Reader α) := by
  rintro c a c' ⟨⟩

theorem Consumes.bind (hp : Consumes S p) (hf : ∀ a, Consumes T (f a))
    (happend : ∀ s t, S s → T t → U (s ++ t)) : Consumes U (p >>= f) := by
  intro c b c' hresult
  obtain ⟨a, middle, ha, hb⟩ := result?_bind_eq_some_iff.mp hresult
  obtain ⟨s, hs, hc⟩ := hp c a middle ha
  obtain ⟨t, ht, hmiddle⟩ := hf a middle b c' hb
  refine ⟨s ++ t, happend s t hs ht, ?_⟩
  rw [hc, hmiddle, List.append_assoc]

theorem Consumes.orElse (hp : Consumes T p) (hq : Consumes T q) :
    Consumes T (orElse p q) :=
  Tells.orElse hp hq

theorem consumes_firstOf {ps : List (Reader α)} (h : ∀ p ∈ ps, Consumes T p) :
    Consumes T (firstOf ps) :=
  tells_firstOf h

theorem Consumes.check {ok : α → Bool} (h : Consumes T p) :
    Consumes T (check p ok) :=
  Tells.check h

theorem Consumes.located (h : Consumes T p) : Consumes T (located p) :=
  Tells.located h

theorem consumes_satisfy {ok : Char → Bool} (h : ∀ x, ok x = true → T [x]) :
    Consumes T (satisfy ok) := by
  intro c x c' hresult
  obtain ⟨hrest, hx⟩ := result?_satisfy_eq_some hresult
  exact ⟨[x], h x hx, hrest⟩

theorem consumes_run {ok : Char → Bool}
    (h : ∀ s, (∀ x ∈ s, ok x = true) → T s) : Consumes T (run ok) := by
  intro c s c' hresult
  cases hresult
  refine ⟨c.rest.takeWhile ok, h _ ?_, List.takeWhile_append_dropWhile.symm⟩
  exact List.all_eq_true.mp List.all_takeWhile

theorem consumes_symbol (sign : List Char) :
    Consumes
      (fun s => ∃ before after, (∀ c ∈ before ++ after, isBlank c = true) ∧
      s = before ++ sign ++ after) (symbol sign) := by
  intro c u c' hresult
  obtain ⟨before, after, hbefore, hsign, hafter⟩ :=
    result?_padded_eq_some hresult
  refine ⟨c.rest.takeWhile isBlank ++ sign ++ after.rest.takeWhile isBlank,
    ⟨_, _, ?_, rfl⟩, ?_⟩
  · rw [List.forall_mem_append]
    exact ⟨List.all_eq_true.mp List.all_takeWhile,
      List.all_eq_true.mp List.all_takeWhile⟩
  · calc c.rest = c.rest.takeWhile isBlank ++ skip c.rest :=
      List.takeWhile_append_dropWhile.symm
      _ = c.rest.takeWhile isBlank ++ (sign ++ after.rest) := by
          rw [← hbefore, result?_exactly_eq_some hsign]
      _ = c.rest.takeWhile isBlank ++
        (sign ++ (after.rest.takeWhile isBlank ++ c'.rest)) := by
          rw [hafter, skip, List.takeWhile_append_dropWhile]
      _ = _ := by simp only [List.append_assoc]

theorem consumes_quoted :
    Consumes
      (fun s => ∃ items : List (List Char),
      (∀ item ∈ items, Nesting.QuotedItem item) ∧
      s = '"' :: items.flatten ++ ['"']) quoted := by
  intro c word c' hresult
  obtain ⟨hrest, items, hword, hitems⟩ := Nesting.result?_quoted_eq_some hresult
  exact ⟨word, ⟨items, hitems, hword⟩, hrest⟩

end Reader

structure Lexical (T : List Char → Prop) : Prop where
  nil : T []
  append : ∀ {s t : List Char}, T s → T t → T (s ++ t)
  plain : ∀ {c : Char}, c ∉ delimiters → T [c]

/-- A property of pieces of text that is kept along the grammar. -/
structure Layout (T : List Char → Prop) : Prop extends Lexical T where
  quoted :
    ∀ {items : List (List Char)}, (∀ item ∈ items, Nesting.QuotedItem item) →
    T ('"' :: items.flatten ++ ['"'])
  brackets :
    ∀ {s : List Char}, (∀ c ∈ s, c ∉ delimiters) → T ('[' :: s ++ [']'])
  braces : ∀ {s : List Char}, (∀ c ∈ s, c ∉ delimiters) → T ('{' :: s ++ ['}'])
  group : ∀ {s : List Char}, T s → T ('(' :: s ++ [')'])

namespace Lexical

open Reader

variable {α β : Type} {p : Reader α} {f : α → Reader β} {T : List Char → Prop}

theorem chars (h : Lexical T) {s : List Char} (hs : ∀ c ∈ s, c ∉ delimiters) :
    T s := by
  induction s with
  | nil => exact h.nil
  | cons c s ih =>
      obtain ⟨hc, hs⟩ := List.forall_mem_cons.mp hs
      exact h.append (h.plain hc) (ih hs)

theorem all (h : Lexical T) {ok : Char → Bool} (hok : Undelimited ok)
    {s : List Char} (hs : ∀ c ∈ s, ok c = true) : T s :=
  h.chars fun c hc => hok.not_mem (hs c hc)

theorem blank (h : Lexical T) {s : List Char} (hs : ∀ c ∈ s, isBlank c = true) :
    T s :=
  h.all (by decide) hs

theorem pure (h : Lexical T) (a : α) : Consumes T (pure a) :=
  consumes_pure a h.nil

theorem bind (h : Lexical T) (hp : Consumes T p) (hf : ∀ a, Consumes T (f a)) :
    Consumes T (p >>= f) :=
  hp.bind hf fun _ _ => h.append

theorem optional (h : Lexical T) (hp : Consumes T p) :
    Consumes T (optional p) :=
  (h.bind hp fun a => h.pure (some a)).orElse (h.pure none)

theorem many (h : Lexical T) (hp : Consumes T p) : Consumes T (many p) := by
  suffices ∀ n, Consumes T (upTo p n) from fun c => this c.rest.length c
  intro n
  induction n with
  | zero => exact h.pure []
  | succ n ih =>
      apply h.bind (h.optional hp)
      rintro (_ | a)
      · exact h.pure []
      · exact h.bind ih fun as => h.pure (a :: as)

theorem sepBy (h : Lexical T) (hp : Consumes T p) {separator : Reader Unit}
    (hseparator : Consumes T separator) : Consumes T (sepBy p separator) :=
  h.bind hp fun first =>
    h.bind (h.many (h.bind hseparator fun _ => hp)) fun others =>
      h.pure (first, others)

theorem satisfy (h : Lexical T) {ok : Char → Bool} (hok : Undelimited ok) :
    Consumes T (satisfy ok) :=
  consumes_satisfy fun _ hx => h.plain (hok.not_mem hx)

theorem run (h : Lexical T) {ok : Char → Bool} (hok : Undelimited ok) :
    Consumes T (run ok) :=
  consumes_run fun _ hs => h.all hok hs

theorem padded (h : Lexical T) (hp : Consumes T p) : Consumes T (padded p) :=
  h.bind (h.run (by decide)) fun _ =>
    h.bind hp fun a => h.bind (h.run (by decide)) fun _ => h.pure a

/-! ## Lexemes -/

theorem symbol (h : Lexical T) {sign : List Char} (hsign : T sign) :
    Consumes T (symbol sign) := by
  apply (consumes_symbol sign).mono
  rintro _ ⟨before, after, hblank, rfl⟩
  obtain ⟨hbefore, hafter⟩ := List.forall_mem_append.mp hblank
  exact h.append (h.append (h.blank hbefore) hsign) (h.blank hafter)

theorem identifier (h : Lexical T) : Consumes T identifier :=
  h.bind (h.satisfy (by decide)) fun first =>
    h.bind (h.run (by decide)) fun others => h.pure (first :: others)

theorem keyword (h : Lexical T) (word : List Char) :
    Consumes T (keyword word) :=
  h.bind (h.padded h.identifier.check) fun _ => h.pure ()

theorem digits (h : Lexical T) : Consumes T digits := by
  apply h.bind (h.satisfy (by decide))
  intro first
  split
  · exact h.pure [first]
  · exact h.bind (h.run (by decide)) fun others => h.pure (first :: others)

theorem token (h : Lexical T) {kind : TokenKind} {lexeme : Reader (List Char)}
    (hlexeme : Consumes T lexeme) : Consumes T (token kind lexeme) :=
  h.padded (h.bind hlexeme.located fun _ => h.pure _)

theorem integer (h : Lexical T) : Consumes T integer :=
  h.token (h.bind (h.optional (h.satisfy (by decide))) fun _ =>
    h.bind h.digits fun _ => h.pure _)

end Lexical

/-- Characters without delimiters up to a closing one, which blank space may
follow. -/
def Closed (close : Char) (s : List Char) : Prop :=
  ∃ inner after, (∀ c ∈ inner, c ∉ delimiters) ∧
    (∀ c ∈ after, isBlank c = true) ∧
    s = inner ++ close :: after

def Enclosed (opening close : Char) (s : List Char) : Prop :=
  ∃ before inner after, (∀ c ∈ before, isBlank c = true) ∧
    (∀ c ∈ inner, c ∉ delimiters) ∧ (∀ c ∈ after, isBlank c = true) ∧
    s = before ++ (opening :: inner ++ [close]) ++ after

theorem lexical_plain : Lexical fun s => ∀ c ∈ s, c ∉ delimiters where
  nil := by simp
  append hs ht := List.forall_mem_append.mpr ⟨hs, ht⟩
  plain hc := by simpa using hc

namespace Reader

variable {α β : Type} {p : Reader α} {f : α → Reader β} {close : Char}

theorem closed_bind (hp : Consumes (fun s => ∀ c ∈ s, c ∉ delimiters) p)
    (hf : ∀ a, Consumes (Closed close) (f a)) :
    Consumes (Closed close) (p >>= f) := by
  apply hp.bind hf
  rintro s _ hs ⟨inner, after, hinner, hafter, rfl⟩
  exact ⟨s ++ inner, after, List.forall_mem_append.mpr ⟨hs, hinner⟩,
    hafter, by simp⟩

theorem closed_symbol (a : α) :
    Consumes (Closed close) (symbol [close] >>= fun _ => pure a) := by
  refine (consumes_symbol [close]).bind
    (fun _ => consumes_pure (T := (· = [])) a rfl) ?_
  rintro _ _ ⟨before, after, hblank, rfl⟩ rfl
  obtain ⟨hbefore, hafter⟩ := List.forall_mem_append.mp hblank
  exact ⟨before, after, lexical_plain.blank hbefore, hafter, by simp⟩

theorem consumes_enclosed {opening : Char} (hp : Consumes (Closed close) p) :
    Consumes (Enclosed opening close) (symbol [opening] >>= fun _ => p) := by
  refine (consumes_symbol [opening]).bind (fun _ => hp) ?_
  rintro _ _ ⟨before, after, hblank, rfl⟩ ⟨inner, after', hinner, hafter', rfl⟩
  obtain ⟨hbefore, hafter⟩ := List.forall_mem_append.mp hblank
  have hwhole : ∀ c ∈ after ++ inner, c ∉ delimiters :=
    List.forall_mem_append.mpr ⟨lexical_plain.blank hafter, hinner⟩
  exact ⟨before, after ++ inner, after', hbefore, hwhole, hafter', by simp⟩

theorem Consumes.bind_pure {T : List Char → Prop} (hp : Consumes T p)
    (g : α → β) : Consumes T (p >>= fun a => pure (g a)) :=
  hp.bind (fun a => consumes_pure (T := (· = [])) (g a) rfl) <| by
    rintro s _ hs rfl
    rwa [List.append_nil]

theorem consumes_interval : Consumes (Enclosed '[' ']') interval := by
  have hinteger := lexical_plain.optional lexical_plain.integer
  have hcomma : Consumes _ (symbol [',']) := lexical_plain.symbol (by decide)
  refine Consumes.bind_pure (Consumes.located (consumes_enclosed ?_)) _
  refine closed_bind hinteger fun start => closed_bind hcomma fun _ => ?_
  exact closed_bind hinteger fun stop => closed_symbol _

theorem consumes_steps : Consumes (Enclosed '[' ']') steps :=
  consumes_enclosed
    (closed_bind lexical_plain.integer fun _ => closed_symbol _)

theorem consumes_graphList : Consumes (Enclosed '{' '}') graphList := by
  have hname : Consumes _ (token .name identifier) :=
    lexical_plain.token lexical_plain.identifier
  have hcomma : Consumes _ (symbol [',']) := lexical_plain.symbol (by decide)
  refine Consumes.bind_pure (Consumes.located (consumes_enclosed ?_)) _
  exact closed_bind (lexical_plain.sepBy hname hcomma) fun _ => closed_symbol _

end Reader

namespace Layout

open Reader

variable {α β : Type} {p : Reader α} {f : α → Reader β} {T : List Char → Prop}
  {layer : Layer} {op : Reader Tree} {close : Char}

theorem of_enclosed (h : Layout T) {opening close : Char}
    (hT : ∀ s : List Char, (∀ c ∈ s, c ∉ delimiters) →
      T (opening :: s ++ [close])) {s : List Char}
    (hs : Enclosed opening close s) : T s := by
  obtain ⟨before, inner, after, hbefore, hinner, hafter, rfl⟩ := hs
  exact h.append (h.append (h.blank hbefore) (hT inner hinner)) (h.blank hafter)

theorem interval (h : Layout T) : Consumes T interval :=
  consumes_interval.mono fun _ => h.of_enclosed fun _ => h.brackets

theorem steps (h : Layout T) : Consumes T steps :=
  consumes_steps.mono fun _ => h.of_enclosed fun _ => h.brackets

theorem graphList (h : Layout T) : Consumes T graphList :=
  consumes_graphList.mono fun _ => h.of_enclosed fun _ => h.braces

theorem literalAtom (h : Layout T) : Consumes T literalAtom :=
  h.bind (h.token (h.identifier.check.orElse h.digits.check)).located fun _ =>
    h.pure _

theorem variableAtom (h : Layout T) : Consumes T (variableAtom layer) := by
  have hquoted : Consumes T Reader.quoted := by
    apply consumes_quoted.mono
    rintro _ ⟨items, hitems, rfl⟩
    exact h.quoted hitems
  exact h.bind ((h.token h.identifier.check).orElse (h.token hquoted)).located
    fun _ => h.pure _

/-! ## Productions -/

theorem parenthesized (h : Layout T) {p : Reader Tree} (hp : Consumes T p) :
    Consumes T (parenthesized p) := by
  intro c t c' hresult
  obtain ⟨first, middle, hopening, ht, hclosing⟩ :=
    result?_parenthesized_eq_some hresult
  obtain ⟨_, ⟨before, after, hblank, rfl⟩, hc⟩ :=
    consumes_symbol ['('] c () first hopening
  obtain ⟨s, hs, hfirst⟩ := hp first t middle ht
  obtain ⟨_, ⟨before', after', hblank', rfl⟩, hmiddle⟩ :=
    consumes_symbol [')'] middle () c' hclosing
  obtain ⟨hbefore, hafter⟩ := List.forall_mem_append.mp hblank
  obtain ⟨hbefore', hafter'⟩ := List.forall_mem_append.mp hblank'
  have hinner : T (after ++ s ++ before') :=
    h.append (h.append (h.blank hafter) hs) (h.blank hbefore')
  refine ⟨before ++ ('(' :: (after ++ s ++ before') ++ [')']) ++ after', ?_, ?_⟩
  · exact h.append (h.append (h.blank hbefore) (h.group hinner))
      (h.blank hafter')
  · rw [hc, hfirst, hmiddle]
    simp

theorem node (h : Layout T) {rule : Rule} {parts : Reader (List Part)}
    (hparts : Consumes T parts) : Consumes T (node rule parts) :=
  h.bind hparts.located fun _ => h.pure _

theorem negation (h : Layout T) (hop : Consumes T op) :
    Consumes T (negation op) :=
  h.node (h.bind (h.padded (h.satisfy (by decide))) fun _ =>
    h.bind hop fun _ => h.pure _)

theorem next (h : Layout T) (hop : Consumes T op) : Consumes T (next op) :=
  h.node <| h.bind (h.symbol (h.plain (by decide))) fun _ =>
    h.bind (h.optional h.steps) fun _ => h.bind hop fun _ => h.pure _

theorem bounded (h : Layout T) {rule : Rule} {operator : Reader Unit}
    (hoperator : Consumes T operator) (hop : Consumes T op) :
    Consumes T (bounded rule operator op) :=
  h.node <| h.bind hoperator fun _ =>
    h.bind (h.optional h.interval) fun _ => h.bind hop fun _ => h.pure _

theorem graph (h : Layout T) {rule : Rule} (word : List Char)
    (hop : Consumes T op) : Consumes T (graph rule word op) :=
  h.node <| h.bind (h.keyword word) fun _ => h.bind h.graphList fun _ =>
    h.bind (h.optional h.interval) fun _ => h.bind hop fun _ => h.pure _

theorem prefixed (h : Layout T) (hop : Consumes T op) :
    ∀ p ∈ prefixed layer op, Consumes T p := by
  have hletter : ∀ {c : Char}, c ∉ delimiters →
      Consumes T (Reader.symbol [c]) := fun hc => h.symbol (h.plain hc)
  have hword : ∀ rule word,
      Consumes T (Reader.bounded rule (Reader.keyword word) op) :=
    fun _ word => h.bounded (h.keyword word) hop
  exact forall_mem_prefixed (h.negation hop)
    (fun _ => ⟨h.next hop, h.bounded (hletter (by decide)) hop,
      h.bounded (hletter (by decide)) hop⟩)
    (fun _ => ⟨hword _ _, hword _ _, hword _ _⟩)
    fun _ => ⟨h.graph _ hop, h.graph _ hop⟩

theorem binaryModality (h : Layout T) : Consumes T (binaryModality layer) := by
  apply consumes_firstOf
  intro p hp
  rcases List.mem_cons.mp hp with rfl | hp
  · exact h.bind (h.symbol (h.plain (by decide))) fun _ => h.pure _
  · split at hp
    · obtain rfl := List.mem_singleton.mp hp
      exact h.bind (h.keyword _) fun _ => h.pure _
    · cases hp

theorem modal (h : Layout T) (hop : Consumes T op) :
    Consumes T (modal layer op) := by
  unfold Reader.modal
  split
  · refine h.bind hop fun _ => h.bind (h.many ?_) fun _ => h.pure _
    exact h.bind h.binaryModality fun _ =>
      h.bind (h.optional h.interval) fun _ => h.bind hop fun _ => h.pure _
  · exact hop

theorem level (h : Layout T) {sign : List Char}
    {group : Tree → List Tree → Tree} {tighter : Reader Tree} (hsign : T sign)
    (htighter : Consumes T tighter) : Consumes T (level sign group tighter) :=
  h.bind (h.sepBy htighter (h.symbol hsign)) fun _ => h.pure _

theorem formula (h : Layout T) (hop : Consumes T op) :
    Consumes T (formula layer op) := by
  have hmodal : Consumes T (Reader.modal layer op) := h.modal hop
  have hsign : ∀ {sign : List Char}, (∀ c ∈ sign, c ∉ delimiters) → T sign :=
    h.chars
  refine h.level (hsign ?_)
    (h.level (hsign ?_) (h.level (hsign ?_) (h.level (hsign ?_)
    (h.level (hsign ?_) hmodal)))) <;> decide

theorem operand (h : Layout T) (n : Nat) : Consumes T (operand layer n) := by
  induction n with
  | zero => exact consumes_fail
  | succ n ih =>
      apply consumes_firstOf
      intro p hp
      simp only [List.cons_append, List.mem_cons, List.mem_append,
        List.not_mem_nil, or_false] at hp
      rcases hp with rfl | hp | rfl | rfl
      · exact h.literalAtom
      · exact h.prefixed ih p hp
      · exact h.parenthesized (h.formula ih)
      · exact h.variableAtom

end Layout

/-! ## Readers that take something -/

namespace Reader

variable {α β : Type} {p : Reader α} {f : α → Reader β} {layer : Layer}

abbrev Advances (p : Reader α) : Prop := Consumes (fun _ => True) p

abbrev Shortens (p : Reader α) : Prop := Consumes (· ≠ []) p

theorem layout_true : Layout fun _ => True where
  nil := trivial
  append _ _ := trivial
  plain _ := trivial
  quoted _ := trivial
  brackets _ := trivial
  braces _ := trivial
  group _ := trivial

theorem Shortens.bind (hp : Shortens p) (hf : ∀ a, Advances (f a)) :
    Shortens (p >>= f) :=
  Consumes.bind hp hf fun _ _ hs _ => List.append_ne_nil_of_left_ne_nil hs _

theorem shortens_symbol (c : Char) (cs : List Char) :
    Shortens (symbol (c :: cs)) := by
  apply (consumes_symbol (c :: cs)).mono
  rintro _ ⟨before, after, -, rfl⟩
  simp

private theorem shortens_identifier : Shortens identifier := by
  have hfirst : Shortens (satisfy isNameStart) :=
    consumes_satisfy fun _ _ => List.cons_ne_nil _ _
  exact hfirst.bind fun _ =>
    layout_true.bind (layout_true.run (by decide)) fun _ =>
    layout_true.pure _

private theorem shortens_keyword (word : List Char) :
    Shortens (keyword word) := by
  have hpadded : Shortens (padded (check identifier (· == word))) := by
    refine Consumes.bind (layout_true.run (by decide)) (fun _ => ?_)
      fun s _ _ ht => List.append_ne_nil_of_right_ne_nil s ht
    refine Shortens.bind shortens_identifier.check fun _ => ?_
    exact layout_true.bind (layout_true.run (by decide)) fun _ =>
      layout_true.pure _
  exact hpadded.bind fun _ => layout_true.pure _

theorem shortens_binaryModality : Shortens (binaryModality layer) := by
  apply consumes_firstOf
  intro p hp
  rcases List.mem_cons.mp hp with rfl | hp
  · exact (shortens_symbol _ _).bind fun _ => layout_true.pure _
  · split at hp
    · obtain rfl := List.mem_singleton.mp hp
      exact (shortens_keyword _).bind fun _ => layout_true.pure _
    · cases hp

theorem Shortens.length_lt (h : Shortens p) {c c' : Cursor} {a : α}
    (hresult : result? p c = some (a, c')) :
    c'.rest.length < c.rest.length := by
  obtain ⟨taken, htaken, hrest⟩ := h c a c' hresult
  have hpos := List.length_pos_iff.mpr htaken
  rw [hrest, List.length_append]
  omega

theorem Shortens.result?_upTo (h : Shortens p) {n : Nat} {c : Cursor}
    (hn : c.rest.length ≤ n) : result? (upTo p n) c = result? (many p) c := by
  suffices ∀ m n : Nat, c.rest.length ≤ m → m ≤ n →
      result? (upTo p n) c =
        result? (upTo p m) c from this _ _ (Nat.le_refl _) hn
  intro m
  clear hn n
  induction m generalizing c with
  | zero =>
      intro n hm _
      have hnone : result? p c = none := by
        refine Option.eq_none_iff_forall_not_mem.mpr ?_
        rintro ⟨a, c'⟩ hresult
        have hlt := h.length_lt hresult
        omega
      cases n with
      | zero => rfl
      | succ n => rw [result?_upTo_succ, hnone, result?_upTo_zero]
  | succ m ih =>
      intro n hm hn
      obtain ⟨n, rfl⟩ : ∃ k, n = k + 1 := ⟨n - 1, by omega⟩
      rw [result?_upTo_succ, result?_upTo_succ]
      cases hresult : result? p c with
      | none => rfl
      | some r =>
          have hlt := h.length_lt hresult
          have hrest := ih (c := r.2) n (by omega) (by omega)
          simp only [hrest]

end Reader

end LayeredLogic
