import LayeredLogic.Proofs.BaseNesting
import LayeredLogic.Proofs.Spans

/-!
# Where the grammar places its trees

A reader that starts at a cursor in a source stops at a later one.  What it
gives adds parts to the row of those read before it, and there is a rule for
every way of building a reader, so that the tree of a text is placed in the text
with all its nodes and tokens.
-/

namespace LayeredLogic

open LayeredLogic.Part

namespace Cursor

/-- What is left at the cursor is what stands in the source after its offset. -/
def In (source : String) (c : Cursor) : Prop :=
  ∃ before : List Char, source.toList = before ++ c.rest ∧
    c.offset = bytes before

variable {source : String} {c c' : Cursor} {taken : List Char}

private theorem in_ofText (source : String) :
    In source (ofText source.toList) :=
  ⟨[], rfl, rfl⟩

theorem In.boundary (h : c.In source) : Boundary source c.offset := by
  obtain ⟨before, hsource, hoffset⟩ := h
  exact ⟨before, c.rest, hsource, hoffset⟩

theorem In.advance {rest : List Char} (h : c.In source)
    (hrest : c.rest = taken ++ rest) : (c.advance taken rest).In source := by
  obtain ⟨before, hsource, hoffset⟩ := h
  refine ⟨before ++ taken, ?_, ?_⟩
  · rw [hsource, hrest, List.append_assoc]
    rfl
  · rw [Cursor.advance, hoffset, bytes_append]

private theorem In.advance_singleton {offset : Nat} {x : Char}
    {rest : List Char} (h : In source ⟨offset, x :: rest⟩) :
    In source ⟨offset + x.utf8Size, rest⟩ := by
  have hadvance : (Cursor.advance ⟨offset, x :: rest⟩ [x] rest).In source :=
    h.advance rfl
  exact hadvance

theorem In.cuts (h : c.In source) (h' : c'.In source)
    (hrest : c.rest = taken ++ c'.rest) :
    Span.Cuts ⟨c.offset, c'.offset⟩ source (String.ofList taken) := by
  obtain ⟨before, hsource, hoffset⟩ := h
  obtain ⟨before', hsource', hoffset'⟩ := h'
  have hbefore : before' = before ++ taken := by
    rw [hrest, ← List.append_assoc] at hsource
    exact List.append_cancel_right (hsource'.symm.trans hsource)
  rw [hoffset, hoffset', hbefore]
  exact Span.cuts_ofList (by rw [hsource, hrest, List.append_assoc])

end Cursor

namespace Reader

variable {source : String} {α β : Type} {p q : Reader α} {f : α → Reader β}
  {front : List Part} {parts others : α → List Part} {row : β → List Part}

/-- From a cursor in the source, with a row of parts before it, the reader goes
on to a cursor in the source, and what it gives makes a row of the parts before
that one. -/
def Places (source : String) (front : List Part) (p : Reader α)
    (parts : α → List Part) : Prop :=
  ∀ m c a c', result? p c = some (a, c') → c.In source →
    InOrder source m front c.offset →
    c'.In source ∧ InOrder source m (parts a) c'.offset

def Silent (source : String) (p : Reader α) : Prop :=
  ∀ front, Places source front p fun _ => front

def Plants (source : String) (p : Reader Tree) : Prop :=
  ∀ front, Places source front p fun t => front ++ [.tree t]

/-! ## Combinators -/

theorem places_pure {a : α} (h : parts a = front) :
    Places source front (pure a) parts := by
  intro m c b c' hresult hc hrow
  obtain ⟨rfl, rfl⟩ := result?_pure_eq_some_iff.mp hresult
  rw [h]
  exact ⟨hc, hrow⟩

private theorem silent_pure (a : α) : Silent source (pure a) :=
  fun _ => places_pure rfl

theorem Places.bind (h : Places source front p parts)
    (hf : ∀ a, Places source (parts a) (f a) row) :
    Places source front (p >>= f) row := by
  intro m c b c' hresult hc hrow
  obtain ⟨a, middle, ha, hb⟩ := result?_bind_eq_some_iff.mp hresult
  obtain ⟨hmiddle, hrow⟩ := h m c a middle ha hc hrow
  exact hf a m middle b c' hb hmiddle hrow

theorem Silent.bind (h : Silent source p)
    (hf : ∀ a, Places source front (f a) row) :
    Places source front (p >>= f) row :=
  (h front).bind hf

theorem Places.mono (h : Places source front p parts)
    (hrow : ∀ m n a, InOrder source m (parts a) n →
      InOrder source m (others a) n) : Places source front p others := by
  intro m c a c' hresult hc hfront
  obtain ⟨hc', hparts⟩ := h m c a c' hresult hc hfront
  exact ⟨hc', hrow m _ a hparts⟩

theorem places_regroup {row : List Part} {part : α → Part} {a : α}
    (h : ∀ m n, InOrder source m row n → (part a).Between source m n) :
    Places source (front ++ row) (pure a) fun b => front ++ [part b] := by
  intro m c b c' hresult hc hfront
  obtain ⟨rfl, rfl⟩ := result?_pure_eq_some_iff.mp hresult
  obtain ⟨k, hfront, hrow⟩ := inOrder_append_iff.mp hfront
  exact ⟨hc, hfront.append (inOrder_singleton_iff.mpr (h k _ hrow))⟩

theorem Places.orElse (hp : Places source front p parts)
    (hq : Places source front q parts) :
    Places source front (orElse p q) parts :=
  fun m => Tells.orElse (hp m) (hq m)

theorem places_firstOf {ps : List (Reader α)}
    (h : ∀ p ∈ ps, Places source front p parts) :
    Places source front (firstOf ps) parts :=
  fun m => tells_firstOf fun p hp => h p hp m

theorem Places.check {ok : α → Bool} (h : Places source front p parts) :
    Places source front (check p ok) parts :=
  fun m => Tells.check (h m)

theorem Silent.check {ok : α → Bool} (h : Silent source p) :
    Silent source (Reader.check p ok) :=
  fun front => (h front).check

theorem Places.optional {parts : Option α → List Part}
    (h : Places source front p fun a => parts (some a))
    (hnone :
      ∀ m n, InOrder source m front n → InOrder source m (parts none) n) :
    Places source front (optional p) parts := by
  refine Places.orElse (h.bind fun a => places_pure rfl) ?_
  intro m c b c' hresult hc hfront
  obtain ⟨rfl, rfl⟩ := result?_pure_eq_some_iff.mp hresult
  exact ⟨hc, hnone m _ hfront⟩

theorem Places.many
    (h : ∀ front, Places source front p fun a => front ++ parts a) :
    Places source front (many p) fun as => front ++ as.flatMap parts := by
  suffices ∀ n front, Places source front (upTo p n) fun as =>
      front ++ as.flatMap parts from
    fun m c => this c.rest.length front m c
  intro n
  induction n with
  | zero => exact fun front => places_pure (List.append_nil front)
  | succ n ih =>
      intro front
      have hfirst : Places source front (Reader.optional p)
          fun found => front ++ (found.map parts).getD [] :=
        Places.optional (h front) fun m n hfront => by
          rwa [Option.map_none, Option.getD_none,
          List.append_nil]
      refine hfirst.bind fun found => ?_
      cases found with
      | none => exact places_pure rfl
      | some a =>
          refine (ih (front ++ parts a)).bind fun as => places_pure ?_
          rw [List.flatMap_cons, List.append_assoc]

theorem Places.sepBy {part : α → Part} {separator : Reader Unit}
    (h : ∀ front, Places source front p fun a => front ++ [part a])
    (hseparator : Silent source separator) :
    Places source front (sepBy p separator)
      fun found => front ++ part found.1 :: found.2.map part := by
  refine (h front).bind fun first => ?_
  have hmany :
      Places source (front ++ [part first]) (Reader.many do separator; p)
      fun others => front ++ [part first] ++ others.flatMap fun a => [part a] :=
    Places.many fun front => hseparator.bind fun _ => h front
  refine hmany.bind fun others => places_pure ?_
  rw [List.map_eq_flatMap, List.append_assoc]
  rfl

theorem Silent.many (h : Silent source p) : Silent source (many p) := by
  intro front
  have hmany : Places source front (Reader.many p) fun as =>
      front ++ as.flatMap fun _ => [] :=
    Places.many fun front => (h front).mono fun m n a hfront => by
      rwa [List.append_nil]
  refine hmany.mono fun m n as hfront => ?_
  have hnil : (as.flatMap fun _ => ([] : List Part)) = [] :=
    List.flatMap_eq_nil_iff.mpr fun _ _ => rfl
  rwa [hnil, List.append_nil] at hfront

/-! ## Characters and lexemes -/

theorem silent_satisfy (ok : Char → Bool) : Silent source (satisfy ok) := by
  intro front m c x c' hresult hc hfront
  obtain ⟨offset, rest⟩ := c
  cases rest with
  | nil => cases hresult
  | cons y rest =>
      rw [result?_satisfy_cons] at hresult
      split at hresult
      · cases hresult
        refine ⟨hc.advance_singleton, hfront.weaken (Nat.le_add_right _ _)⟩
      · cases hresult

theorem silent_run (ok : Char → Bool) : Silent source (run ok) := by
  rintro front m c cs c' ⟨⟩ hc hfront
  exact ⟨hc.advance List.takeWhile_append_dropWhile.symm,
    hfront.weaken (Nat.le_add_right _ _)⟩

private theorem silent_finish : Silent source finish := by
  intro front m c u c' hresult hc hfront
  rw [result?_finish] at hresult
  split at hresult
  · cases hresult
    exact ⟨hc, hfront⟩
  · cases hresult

private theorem silent_exactly (cs : List Char) :
    Silent source (exactly cs) := by
  induction cs with
  | nil => exact silent_pure ()
  | cons c cs ih => exact fun front => (silent_satisfy _).bind fun _ => ih front

theorem Places.padded (h : Places source front p parts) :
    Places source front (padded p) parts :=
  (silent_run isBlank).bind fun _ =>
    h.bind fun _ => (silent_run isBlank).bind fun _ =>
    places_pure rfl

theorem silent_symbol (cs : List Char) : Silent source (symbol cs) :=
  fun front => (silent_exactly cs front).padded

theorem Silent.optional (h : Silent source p) : Silent source (optional p) :=
  fun front => Places.optional (h front) fun _ _ hfront => hfront

theorem silent_identifier : Silent source identifier := fun _ =>
  (silent_satisfy isNameStart).bind fun _ =>
    (silent_run isNameChar).bind fun _ => places_pure rfl

theorem silent_keyword (word : List Char) : Silent source (keyword word) :=
  fun front =>
  (silent_identifier.check front).padded.bind fun _ => places_pure rfl

theorem silent_digits : Silent source digits := by
  intro front
  refine (silent_satisfy Char.isDigit).bind fun first => ?_
  split
  · exact places_pure rfl
  · exact (silent_run Char.isDigit).bind fun _ => places_pure rfl

private theorem silent_quoted : Silent source quoted := by
  have hitem : Silent source quotedItem := fun _ => Places.orElse
    ((silent_satisfy _).bind fun _ =>
      (silent_satisfy _).bind fun _ => places_pure rfl)
    ((silent_satisfy _).bind fun _ => places_pure rfl)
  intro front
  refine (silent_satisfy _).bind fun first => ?_
  refine hitem.many.bind fun items => ?_
  exact (silent_satisfy _).bind fun last => places_pure rfl

structure Slices (source : String) (lexeme : Reader (List Char)) : Prop where
  silent : Silent source lexeme
  text : ∀ c cs c', result? lexeme c = some (cs, c') → c.rest = cs ++ c'.rest

section

variable {lexeme other : Reader (List Char)}

theorem Slices.check {ok : List Char → Bool} (h : Slices source lexeme) :
    Slices source (check lexeme ok) where
  silent := h.silent.check
  text := Tells.check h.text

theorem Slices.orElse (h : Slices source lexeme)
    (hother : Slices source other) :
    Slices source (orElse lexeme other) where
  silent front := (h.silent front).orElse (hother.silent front)
  text := Tells.orElse h.text hother.text

theorem slices_identifier : Slices source identifier where
  silent := silent_identifier
  text _ _ _ hresult := (result?_identifier_eq_some hresult).1

private theorem slices_digits : Slices source digits where
  silent := silent_digits
  text _ _ _ hresult := (result?_digits_eq_some hresult).1

theorem slices_signedDigits : Slices source signedDigits where
  silent _ := (silent_satisfy _).optional.bind fun _ =>
    silent_digits.bind fun _ => places_pure rfl
  text c cs c' hresult := by
    obtain ⟨sign, middle, hsign, hresult⟩ := result?_bind_eq_some_iff.mp hresult
    obtain ⟨ds, last, hds, hresult⟩ := result?_bind_eq_some_iff.mp hresult
    obtain ⟨rfl, rfl⟩ := result?_pure_eq_some_iff.mp hresult
    have hdigits := (result?_digits_eq_some hds).1
    rw [result?_optional] at hsign
    split at hsign
    · rename_i x after hx
      cases hsign
      rw [(result?_satisfy_eq_some hx).1, hdigits]
      rfl
    · cases hsign
      exact hdigits

private theorem slices_quoted : Slices source quoted where
  silent := silent_quoted
  text _ _ _ hresult := (Nesting.result?_quoted_eq_some hresult).1

private theorem slices_literalLexeme : Slices source literalLexeme :=
  slices_identifier.check.orElse slices_digits.check

theorem Slices.token (h : Slices source lexeme) (kind : TokenKind)
    (front : List Part) :
    Places source front (token kind lexeme) fun t => front ++ [.token t] := by
  refine Places.padded ?_
  intro m c t c' hresult hc hfront
  obtain ⟨⟨cs, span⟩, middle, hlocated, hresult⟩ :=
    result?_bind_eq_some_iff.mp hresult
  obtain ⟨rfl, rfl⟩ := result?_pure_eq_some_iff.mp hresult
  rw [result?_located, Option.map_eq_some_iff] at hlocated
  obtain ⟨⟨_, _⟩, hlexeme, hfound⟩ := hlocated
  cases hfound
  obtain ⟨hc', hforward⟩ :=
    h.silent [] c.offset c cs c' hlexeme hc (.nil (Nat.le_refl _))
  refine ⟨hc', hfront.append (inOrder_singleton_iff.mpr ⟨hforward.le, ?_, ?_⟩)⟩
  · exact hc.cuts hc' (h.text c cs c' hlexeme)
  · rintro _ ⟨⟩
    exact ⟨Nat.le_refl _, Nat.le_refl _⟩

end

/-! ## Nodes -/

theorem plants_node (rule : String) (parts : α → List Part)
    (h : Places source [] p parts) :
    Plants source (do
      let found ← located p
      return .node rule (parts found.1) found.2) := by
  intro front m c t c' hresult hc hfront
  obtain ⟨⟨a, span⟩, middle, hlocated, hresult⟩ :=
    result?_bind_eq_some_iff.mp hresult
  obtain ⟨rfl, rfl⟩ := result?_pure_eq_some_iff.mp hresult
  rw [result?_located, Option.map_eq_some_iff] at hlocated
  obtain ⟨⟨_, _⟩, hp, hfound⟩ := hlocated
  cases hfound
  obtain ⟨hc', hparts⟩ := h c.offset c a c' hp hc (.nil (Nat.le_refl _))
  refine ⟨hc', hfront.append (inOrder_singleton_iff.mpr ⟨hparts.le, ?_, ?_⟩)⟩
  · exact hparts.faithful_node hc.boundary hc'.boundary rule
  · rintro _ ⟨⟩
    exact ⟨Nat.le_refl _, Nat.le_refl _⟩

theorem places_ofToken? {p : Reader Token}
    (h : Places source front p fun t => front ++ [.token t]) :
    Places source front (optional p) fun found => front ++ [.ofToken? found] :=
  Places.optional h fun _ _ hfront =>
    hfront.append (inOrder_singleton_iff.mpr (between_absent _))

theorem places_ofTree? {p : Reader Tree} (h : Plants source p)
    (front : List Part) :
    Places source front (optional p) fun found => front ++ [.ofTree? found] :=
  Places.optional (h front) fun _ _ hfront =>
    hfront.append (inOrder_singleton_iff.mpr (between_absent _))

theorem plants_interval : Plants source interval := by
  refine plants_node Rule.interval.name id ?_
  refine (silent_symbol _).bind fun _ => ?_
  refine (places_ofToken? (slices_signedDigits.token .integer _)).bind
    fun start => ?_
  refine (silent_symbol _).bind fun _ => ?_
  refine (places_ofToken? (slices_signedDigits.token .integer _)).bind
    fun stop => ?_
  exact (silent_symbol _).bind fun _ => places_pure rfl

private theorem places_steps (front : List Part) :
    Places source front steps fun t => front ++ [.token t] :=
  (silent_symbol _).bind fun _ =>
    (slices_signedDigits.token .integer front).bind fun _ =>
      (silent_symbol _).bind fun _ => places_pure rfl

private theorem plants_graphList : Plants source graphList := by
  refine plants_node Rule.graphList.name
    (fun names : Token × List Token => .token names.1 :: names.2.map .token) ?_
  refine (silent_symbol _).bind fun _ => ?_
  refine (Places.sepBy (slices_identifier.token .name) (silent_symbol _)).bind
    fun names => ?_
  exact (silent_symbol _).bind fun _ => places_pure rfl

variable {op : Reader Tree} {layer : Layer}

private theorem plants_literalAtom : Plants source literalAtom :=
  plants_node Rule.literal.name (fun t => [.token t])
    (slices_literalLexeme.token .literal [])

private theorem plants_variableAtom : Plants source (variableAtom layer) :=
  plants_node Rule.variable.name (fun t => [.token t])
    (Places.orElse (slices_identifier.check.token .name [])
      (slices_quoted.token .quoted []))

theorem Plants.parenthesized (h : Plants source op) :
    Plants source (parenthesized op) :=
  fun front => (silent_symbol _).bind fun _ => (h front).bind fun _ =>
    (silent_symbol _).bind fun _ => places_pure rfl

theorem Plants.negation (h : Plants source op) :
    Plants source (negation op) := by
  refine plants_node Rule.negation.name id ?_
  refine (silent_satisfy _ _).padded.bind fun _ => ?_
  exact (h _).bind fun _ => places_pure rfl

theorem Plants.next (h : Plants source op) : Plants source (next op) := by
  refine plants_node Rule.next.name id ?_
  refine (silent_symbol _).bind fun _ => ?_
  refine (places_ofToken? (places_steps _)).bind fun count => ?_
  exact (h _).bind fun _ => places_pure rfl

theorem Plants.bounded {operator : Reader Unit} (h : Plants source op)
    (hoperator : Silent source operator) (rule : Rule) :
    Plants source (bounded rule operator op) := by
  refine plants_node rule.name id ?_
  refine hoperator.bind fun _ => ?_
  refine (places_ofTree? plants_interval _).bind fun bounds => ?_
  exact (h _).bind fun _ => places_pure rfl

theorem Plants.graph (h : Plants source op) (rule : Rule) (word : List Char) :
    Plants source (graph rule word op) := by
  refine plants_node rule.name id ?_
  refine (silent_keyword word).bind fun _ => ?_
  refine (plants_graphList _).bind fun labels => ?_
  refine (places_ofTree? plants_interval _).bind fun edges => ?_
  exact (h _).bind fun _ => places_pure rfl

theorem Plants.prefixed (h : Plants source op) :
    ∀ p ∈ prefixed layer op, Plants source p := by
  have hletter :
      ∀ rule c, Plants source (Reader.bounded rule (symbol [c]) op) :=
    fun rule _ => h.bounded (silent_symbol _) rule
  have hword : ∀ rule w, Plants source (Reader.bounded rule (keyword w) op) :=
    fun rule _ => h.bounded (silent_keyword _) rule
  exact forall_mem_prefixed h.negation
    (fun _ => ⟨h.next, hletter _ _, hletter _ _⟩)
    (fun _ => ⟨hword _ _, hword _ _, hword _ _⟩)
    fun _ => ⟨h.graph _ _, h.graph _ _⟩

private theorem silent_binaryModality :
    Silent source (binaryModality layer) := by
  intro front
  refine places_firstOf (List.forall_mem_cons.mpr ⟨?_, ?_⟩)
  · exact (silent_symbol _).bind fun _ => places_pure rfl
  · split
    · exact List.forall_mem_singleton.mpr
        ((silent_keyword _).bind fun _ => places_pure rfl)
    · simp

theorem Plants.modal (h : Plants source op) :
    Plants source (modal layer op) := by
  unfold Reader.modal
  split
  · intro front
    refine (h front).bind fun first => ?_
    have hitem : ∀ front, Places source front (do
        let rule ← binaryModality layer
        let bounds ← Reader.optional interval
        return (rule, bounds, ← op))
        fun item => front ++ [.ofTree? item.2.1, .tree item.2.2] := by
      intro front
      refine silent_binaryModality.bind fun rule => ?_
      refine (places_ofTree? plants_interval _).bind fun bounds => ?_
      refine (h _).bind fun t => places_pure ?_
      rw [List.append_assoc]
      rfl
    refine (Places.many hitem).bind fun others => ?_
    rw [List.append_assoc]
    exact places_regroup fun m n hrow => Tree.between_modals hrow
  · exact h

theorem Plants.level {group : Tree → List Tree → Tree} (h : Plants source op)
    (sign : List Char)
    (hgroup : ∀ {m n : Nat} {first : Tree} {others : List Tree},
      InOrder source m (.tree first :: others.map .tree) n →
      (Part.tree (group first others)).Between source m n) :
    Plants source (level sign group op) := by
  intro front
  refine (Places.sepBy h (silent_symbol sign)).bind fun found => ?_
  exact places_regroup fun m n hrow => hgroup hrow

theorem Plants.formula (h : Plants source op) :
    Plants source (formula layer op) :=
  h.modal.level ['&'] (fun h => Tree.between_chain h .conjunction)
    |>.level ['|'] (fun h => Tree.between_chain h .disjunction)
    |>.level ['^'] (fun h => Tree.between_groupLeft h .xor)
    |>.level ['-', '>'] (fun h => Tree.between_groupRight h .implies)
    |>.level ['<', '-', '>'] (fun h => Tree.between_groupLeft h .equiv)

theorem plants_operand (layer : Layer) (n : Nat) :
    Plants source (operand layer n) := by
  induction n with
  | zero =>
      intro front m c t c' h
      cases h
  | succ n ih =>
      intro front
      refine places_firstOf
        (List.forall_mem_cons.mpr ⟨plants_literalAtom front, ?_⟩)
      refine List.forall_mem_append.mpr ⟨fun p hp => ih.prefixed p hp front, ?_⟩
      refine List.forall_mem_cons.mpr ⟨ih.formula.parenthesized front, ?_⟩
      exact List.forall_mem_singleton.mpr (plants_variableAtom front)

end Reader

namespace Tree

theorem faithful_of_parse {layer : Layer} {source : String} {t : Tree}
    (h : Tree.parse layer source = .ok t) : t.Faithful source := by
  obtain ⟨-, c', hresult⟩ := Tree.parse_eq_ok_iff.mp h
  rw [Reader.result?_sentence] at hresult
  have hsentence : Reader.Plants source (do
      let t ← Reader.padded (Reader.formula layer
        (Reader.operand layer (source.toList.length + 1)))
      Reader.finish
      return t) := by
    intro front
    refine ((Reader.plants_operand layer _).formula front).padded.bind
      fun t => ?_
    exact (Reader.silent_finish _).bind fun _ => Reader.places_pure rfl
  obtain ⟨-, hrow⟩ :=
    hsentence [] 0 _ t c' hresult (Cursor.in_ofText source)
      (.nil (Nat.le_refl 0))
  exact (inOrder_singleton_iff.mp hrow).faithful

/-- Every node and token of the tree of a text has its place in it: the span of
a node is a piece of the text, the text of a token is the piece at its span, and
the parts of a node lie inside its span in their order and without overlapping.
-/
theorem spans_of_parse {layer : Layer} {source : String} {t : Tree}
    (h : Tree.parse layer source = .ok t) :
    ∀ u ∈ t.subtrees,
      (∃ piece, u.span.Cuts source piece) ∧
      (∀ token, Part.token token ∈ u.parts →
        token.span.Cuts source token.text) ∧
      (∀ s ∈ u.parts.filterMap Part.span?, u.span.start ≤ s.start ∧
        s.stop ≤ u.span.stop) ∧
      (u.parts.filterMap Part.span?).Pairwise fun s s' =>
        s.stop ≤ s'.start := by
  intro u hu
  have hplaced := faithful_of_parse h u hu
  exact ⟨hplaced.piece, hplaced.tokens, hplaced.inside, hplaced.ordered⟩

/-- A white space of three bytes and a quoted letter of two stand in this text;
the implication begins inside the parentheses of its first operand. -/
theorem spans_of_parse_wide :
    ∃ t, Tree.parse .ltl "(X[2] a)\u3000-> \"é\" U b" = .ok t ∧
      t.subtrees.map Tree.span =
        [⟨1, 22⟩, ⟨1, 7⟩, ⟨6, 7⟩, ⟨14, 22⟩, ⟨14, 19⟩, ⟨21, 22⟩] ∧
      ∀ u ∈ t.subtrees,
        (∃ piece, u.span.Cuts "(X[2] a)\u3000-> \"é\" U b" piece) ∧
        (∀ token, Part.token token ∈ u.parts →
          token.span.Cuts "(X[2] a)\u3000-> \"é\" U b" token.text) ∧
        (∀ s ∈ u.parts.filterMap Part.span?, u.span.start ≤ s.start ∧
          s.stop ≤ u.span.stop) ∧
        (u.parts.filterMap Part.span?).Pairwise fun s s' =>
          s.stop ≤ s'.start := by
  have hspans : (Tree.parse .ltl "(X[2] a)\u3000-> \"é\" U b").toOption.map
      (fun t => t.subtrees.map Tree.span) =
        some [⟨1, 22⟩, ⟨1, 7⟩, ⟨6, 7⟩, ⟨14, 22⟩, ⟨14, 19⟩, ⟨21, 22⟩] := by
    decide +kernel
  cases ht : Tree.parse .ltl "(X[2] a)\u3000-> \"é\" U b" with
  | error e =>
      rw [ht] at hspans
      cases hspans
  | ok t =>
      rw [ht] at hspans
      exact ⟨t, rfl, Option.some.inj hspans, spans_of_parse ht⟩

end Tree

end LayeredLogic
