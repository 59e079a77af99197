import LayeredLogic.Proofs.Consumption

/-!
# Readers inside a longer text

A text may stand in a longer one, with bytes before it and characters behind it.
A reader mirrors another one if it gives there, at places moved accordingly,
what the other gives on the text alone.
-/

namespace LayeredLogic

def Span.shift (n : Nat) (s : Span) : Span := ⟨s.start + n, s.stop + n⟩

def Token.shift (n : Nat) (t : Token) : Token :=
  { t with span := t.span.shift n }

mutual

def Tree.shift (n : Nat) : Tree → Tree
  | .node rule parts span => .node rule (Tree.shiftParts n parts) (span.shift n)

def Tree.shiftParts (n : Nat) : List Part → List Part
  | [] => []
  | .tree t :: rest => .tree (t.shift n) :: Tree.shiftParts n rest
  | .token t :: rest => .token (t.shift n) :: Tree.shiftParts n rest
  | .absent :: rest => .absent :: Tree.shiftParts n rest

end

def Part.shift (n : Nat) : Part → Part
  | .tree t => .tree (t.shift n)
  | .token t => .token (t.shift n)
  | .absent => .absent

@[simp] theorem Part.shift_tree (n : Nat) (t : Tree) :
    (tree t).shift n = tree (t.shift n) := rfl

@[simp] theorem Part.shift_token (n : Nat) (t : Token) :
    (token t).shift n = token (t.shift n) := rfl

@[simp] theorem Part.shift_ofToken? (n : Nat) (t : Option Token) :
    (ofToken? t).shift n = ofToken? (t.map (.shift n)) := by
  cases t <;> rfl

@[simp] theorem Part.shift_ofTree? (n : Nat) (t : Option Tree) :
    (ofTree? t).shift n = ofTree? (t.map (.shift n)) := by
  cases t <;> rfl

namespace Tree

variable {n : Nat}

@[simp] theorem shiftParts_eq_map (parts : List Part) :
    shiftParts n parts = parts.map (.shift n) := by
  induction parts with
  | nil => rfl
  | cons part parts ih => cases part <;> simp [shiftParts, Part.shift, ih]

@[simp] theorem shift_node (rule : String) (parts : List Part) (span : Span) :
    shift n (.node rule parts span) =
      .node rule (parts.map (.shift n)) (span.shift n) := by
  rw [shift, shiftParts_eq_map]

@[simp] theorem span_shift (t : Tree) : (t.shift n).span = t.span.shift n := by
  cases t
  rw [shift_node]
  rfl

theorem shift_pair (rule : Rule) (t u : Tree) :
    shift n (pair rule t u) = pair rule (t.shift n) (u.shift n) := by
  simp [pair, Span.shift]

theorem shift_modal (rule : Rule) (t : Tree) (bounds : Option Tree) (u : Tree) :
    shift n (modal rule t bounds u) =
      modal rule (t.shift n) (bounds.map (shift n)) (u.shift n) := by
  simp [modal, Span.shift]

theorem shift_chain (rule : Rule) (t : Tree) (ts : List Tree) :
    shift n (chain rule t ts) = chain rule (t.shift n) (ts.map (shift n)) := by
  unfold chain
  rw [List.getLast?_map]
  cases ts.getLast? with
  | none => rfl
  | some last => simp [Span.shift]

theorem shift_groupLeft (rule : Rule) (t : Tree) (ts : List Tree) :
    shift n (groupLeft rule t ts) =
      groupLeft rule (t.shift n) (ts.map (shift n)) := by
  unfold groupLeft
  induction ts generalizing t with
  | nil => rfl
  | cons u ts ih =>
      rw [List.foldl_cons, ih, shift_pair, List.map_cons, List.foldl_cons]

theorem shift_groupRight (rule : Rule) (t : Tree) (ts : List Tree) :
    shift n (groupRight rule t ts) =
      groupRight rule (t.shift n) (ts.map (shift n)) := by
  induction ts generalizing t with
  | nil => rfl
  | cons u ts ih => rw [groupRight, shift_pair, ih, List.map_cons, groupRight]

end Tree

@[simp] theorem Tree.shift_zero (t : Tree) : t.shift 0 = t := by
  induction t using Tree.induct with
  | node rule parts span ih =>
      have hparts : parts.map (.shift 0) = parts := by
        rw [List.map_congr_left (g := id), List.map_id]
        intro part hpart
        cases part with
        | tree t => exact congrArg Part.tree (ih t hpart)
        | token t => rfl
        | absent => rfl
      rw [shift_node, hparts]
      rfl

/-! ## Readers inside a longer text -/

/-- What stands around a text: bytes before it and characters behind it. -/
structure Frame where
  before : Nat
  behind : List Char

def Cursor.within (frame : Frame) (c : Cursor) : Cursor :=
  ⟨c.offset + frame.before, c.rest ++ frame.behind⟩

namespace Reader

variable {α β γ δ : Type} {frame : Frame} {Q Q' R : List Char → Prop}
  {view : α → β} {view' : γ → δ} {p : Reader α} {q : Reader β}
  {f : α → Reader γ} {g : β → Reader δ}

/-- On the texts of a kind the second reader gives in the frame what the first
gives alone, and the first leaves a text of the other kind. -/
structure Mirrors (frame : Frame) (Q R : List Char → Prop) (view : α → β)
    (p : Reader α) (q : Reader β) : Prop where
  result : ∀ c : Cursor, Q c.rest →
    result? q (c.within frame) =
      (result? p c).map (Prod.map view (Cursor.within frame))
  rest : ∀ (c : Cursor) (a : α) (c' : Cursor),
    Q c.rest → result? p c = some (a, c') → R c'.rest

theorem Mirrors.mono (h : Mirrors frame Q Q' view p q) (hQ : ∀ cs, R cs → Q cs)
    {R' : List Char → Prop} (hQ' : ∀ cs, Q' cs → R' cs) :
    Mirrors frame R R' view p q where
  result c hc := h.result c (hQ _ hc)
  rest c a c' hc hresult := hQ' _ (h.rest c a c' (hQ _ hc) hresult)

theorem mirrors_fail : Mirrors frame Q R view fail fail where
  result _ _ := rfl
  rest := by rintro c a c' - ⟨⟩

theorem mirrors_pure {a : α} {b : β} (h : view a = b) :
    Mirrors frame Q Q view (pure a) (pure b) where
  result c _ := by
    rw [result?_pure, result?_pure, ← h]
    rfl
  rest c b c' hc hresult := by
    obtain ⟨-, rfl⟩ := result?_pure_eq_some_iff.mp hresult
    exact hc

theorem Mirrors.bind (h : Mirrors frame Q Q' view p q)
    (hf : ∀ a, Mirrors frame Q' R view' (f a) (g (view a))) :
    Mirrors frame Q R view' (p >>= f) (q >>= g) where
  result c hc := by
    rw [result?_bind, result?_bind, h.result c hc]
    cases hp : result? p c with
    | none => rfl
    | some r => exact (hf r.1).result r.2 (h.rest c r.1 r.2 hc hp)
  rest c b c' hc hresult := by
    obtain ⟨a, middle, ha, hb⟩ := result?_bind_eq_some_iff.mp hresult
    exact (hf a).rest middle b c' (h.rest c a middle hc ha) hb

variable {p' : Reader α} {q' : Reader β}

theorem Mirrors.orElse (h : Mirrors frame Q R view p q)
    (h' : Mirrors frame Q R view p' q') :
    Mirrors frame Q R view (orElse p p') (orElse q q') where
  result c hc := by
    rw [result?_orElse, result?_orElse, h.result c hc, h'.result c hc]
    cases result? p c <;> rfl
  rest c a c' hc hresult := by
    rcases result?_orElse_eq_some hresult with hresult | hresult
    · exact h.rest c a c' hc hresult
    · exact h'.rest c a c' hc hresult

/-- The second alternatives may be put before mirrored ones where the first are.
-/
def Precedes (frame : Frame) (Q R : List Char → Prop) (view : α → β)
    (ps : List (Reader α)) (qs : List (Reader β)) : Prop :=
  ∀ ps' qs', Mirrors frame Q R view (firstOf ps') (firstOf qs') →
    Mirrors frame Q R view (firstOf (ps ++ ps')) (firstOf (qs ++ qs'))

theorem precedes_of_forall₂ {ps : List (Reader α)} {qs : List (Reader β)}
    (h : List.Forall₂ (Mirrors frame Q R view) ps qs) :
    Precedes frame Q R view ps qs := by
  intro ps' qs' hrest
  induction h with
  | nil => exact hrest
  | cons h _ ih => exact h.orElse ih

theorem precedes_of_refuses {qs : List (Reader β)}
    (h : ∀ cs, Q cs → ∀ q ∈ qs, Refuses q (cs ++ frame.behind)) :
    Precedes frame Q R view [] qs := by
  intro ps' qs' hrest
  induction qs with
  | nil => exact hrest
  | cons q qs ih =>
      have hqs := ih fun cs hcs => (List.forall_mem_cons.mp (h cs hcs)).2
      refine ⟨fun c hc => ?_, hqs.rest⟩
      have hq : Refuses q (c.rest ++ frame.behind) :=
        h _ hc q List.mem_cons_self
      rw [List.cons_append, result?_firstOf_cons, Cursor.within, hq,
        Option.none_or]
      exact hqs.result c hc

theorem Precedes.append {ps ps' : List (Reader α)} {qs qs' : List (Reader β)}
    (h : Precedes frame Q R view ps qs) (h' : Precedes frame Q R view ps' qs') :
    Precedes frame Q R view (ps ++ ps') (qs ++ qs') := by
  intro ps'' qs'' hrest
  rw [List.append_assoc, List.append_assoc]
  exact h _ _ (h' _ _ hrest)

theorem Mirrors.optional (h : Mirrors frame Q R view p q)
    (hRQ : ∀ cs, Q cs → R cs) :
    Mirrors frame Q R (Option.map view) (optional p) (optional q) :=
  Mirrors.orElse (h.bind fun _ => mirrors_pure rfl)
    ((mirrors_pure rfl).mono (fun _ h => h) hRQ)

theorem Mirrors.check {ok : α → Bool} {ok' : β → Bool}
    (h : Mirrors frame Q R view p q)
    (hok : ∀ c a c', Q c.rest → result? p c = some (a, c') →
      ok' (view a) = ok a) :
    Mirrors frame Q R view (check p ok) (check q ok') where
  result c hc := by
    rw [result?_check, result?_check, h.result c hc]
    cases hp : result? p c with
    | none => rfl
    | some r =>
        have hr := hok c r.1 r.2 hc hp
        cases hfound : ok r.1 <;> simp [Option.filter, hr, hfound]
  rest c a c' hc hresult :=
    h.rest c a c' hc (result?_check_eq_some_iff.mp hresult).1

theorem Mirrors.located (h : Mirrors frame Q R view p q) :
    Mirrors frame Q R (Prod.map view (Span.shift frame.before)) (located p)
      (located q) where
  result c hc := by
    rw [result?_located, result?_located, h.result c hc]
    cases result? p c <;> rfl
  rest c found c' hc hresult :=
    h.rest c found.1 c' hc (result?_located_eq_some hresult)

theorem Mirrors.padded
    (hbefore : Mirrors frame Q Q id (run isBlank) (run isBlank))
    (h : Mirrors frame Q R view p q)
    (hafter : Mirrors frame R R id (run isBlank) (run isBlank)) :
    Mirrors frame Q R view (padded p) (padded q) :=
  hbefore.bind fun _ => h.bind fun _ => hafter.bind fun _ => mirrors_pure rfl

theorem Mirrors.upTo (h : Mirrors frame Q Q view p q) (n : Nat) :
    Mirrors frame Q Q (List.map view) (upTo p n) (upTo q n) := by
  induction n with
  | zero => exact mirrors_pure rfl
  | succ n ih =>
      apply (h.optional fun _ hc => hc).bind
      rintro (_ | a)
      · exact mirrors_pure rfl
      · exact ih.bind fun as => mirrors_pure rfl

theorem Mirrors.many (h : Mirrors frame Q Q view p q) (hp : Shortens p) :
    Mirrors frame Q Q (List.map view) (many p) (many q) where
  result c hc := by
    have hlength : c.rest.length ≤ (c.within frame).rest.length := by
      simp [Cursor.within]
    rw [result?_many, (h.upTo _).result c hc, hp.result?_upTo hlength]
  rest c as c' hc hresult := (h.upTo c.rest.length).rest c as c' hc hresult

theorem Mirrors.sepBy {separator : Reader Unit} (h : Mirrors frame Q Q view p q)
    (hseparator : Mirrors frame Q Q id separator separator)
    (hshort : Shortens separator) (hp : Advances p) :
    Mirrors frame Q Q (Prod.map view (List.map view)) (sepBy p separator)
      (sepBy q separator) := by
  refine h.bind fun first => ?_
  refine Mirrors.bind (Mirrors.many (hseparator.bind fun _ => h) ?_)
    fun others => mirrors_pure rfl
  exact hshort.bind fun _ => hp

/-- Where a text ends, the character behind it must be refused. -/
theorem mirrors_satisfy {ok : Char → Bool}
    (hnil : Q [] → ∀ x ∈ frame.behind.head?, ok x = false)
    (hcons : ∀ x cs, Q (x :: cs) → ok x = true → R cs) :
    Mirrors frame Q R id (satisfy ok) (satisfy ok) where
  result c hc := by
    obtain ⟨offset, rest⟩ := c
    cases rest with
    | nil =>
        rw [result?_satisfy_nil]
        exact refuses_satisfy (hnil hc) _
    | cons x rest =>
        simp only [Cursor.within, List.cons_append, result?_satisfy_cons]
        split
        · simp only [Option.map_some, Prod.map, Cursor.within, id_eq,
            Option.some.injEq, Prod.mk.injEq, Cursor.mk.injEq, true_and,
            and_true]
          omega
        · rfl
  rest c x c' hc hresult := by
    obtain ⟨hrest, hx⟩ := result?_satisfy_eq_some hresult
    exact hcons x c'.rest (hrest ▸ hc) hx

theorem mirrors_run {ok : Char → Bool}
    (hstop : ∀ cs, Q cs → (∃ x ∈ cs, ok x = false) ∨
      ∀ x ∈ frame.behind.head?, ok x = false)
    (hrest : ∀ s cs, Q (s ++ cs) → (∀ x ∈ s, ok x = true) → R cs) :
    Mirrors frame Q R id (run ok) (run ok) where
  result c hc := by
    obtain ⟨htake, hdrop⟩ := span_append (hstop c.rest hc)
    simp only [result?_run, Option.map_some, Prod.map, id_eq, Cursor.within,
      Cursor.advance, htake, hdrop, Option.some.injEq, Prod.mk.injEq,
      Cursor.mk.injEq, true_and, and_true]
    omega
  rest c s c' hc hresult := by
    cases hresult
    refine hrest (c.rest.takeWhile ok) _ ?_
      (List.all_eq_true.mp List.all_takeWhile)
    rwa [Cursor.advance, List.takeWhile_append_dropWhile]

theorem refuses_keyword_of_absent {word input : List Char}
    (h : ¬ word <:+: input) : Refuses (keyword word) input := by
  intro offset
  refine Option.eq_none_iff_forall_ne_some.mpr ?_
  rintro ⟨_, c'⟩ hresult
  obtain ⟨found, middle, hpadded, -⟩ := result?_bind_eq_some_iff.mp hresult
  obtain ⟨before, after, hbefore, hcheck, -⟩ := result?_padded_eq_some hpadded
  obtain ⟨hidentifier, hword⟩ := result?_check_eq_some_iff.mp hcheck
  obtain ⟨hrest, -⟩ := result?_identifier_eq_some hidentifier
  obtain rfl := eq_of_beq hword
  rw [hbefore] at hrest
  have hskip : found <:+: skip input := ⟨[], after.rest, hrest.symm⟩
  exact h (hskip.trans (List.dropWhile_suffix isBlank).isInfix)

theorem Mirrors.node {rule : Rule} {parts parts' : Reader (List Part)}
    (h : Mirrors frame Q R (List.map (.shift frame.before)) parts parts') :
    Mirrors frame Q R (.shift frame.before) (node rule parts)
      (node rule parts') :=
  h.located.bind fun _ => mirrors_pure (Tree.shift_node _ _ _)

theorem Mirrors.takes {view : Nat → α → α} {σ : Type} {shape : α → σ}
    {behind : List Char} {p q : Reader α}
    (hshape : ∀ n a, shape (view n a) = shape a)
    (halone : ∀ n, Mirrors ⟨n, []⟩ Q R (view n) p p)
    (hwithin : ∀ n, Mirrors ⟨n, behind⟩ Q R (view n) p q) {c c' : Cursor}
    {a : α} (hc : Q c.rest) (hresult : result? p c = some (a, c')) :
    Takes q (c.rest ++ behind) (fun b => shape b = shape a)
      (c'.rest ++ behind) := by
  obtain ⟨start, cs⟩ := c
  have hfront : ∃ b d, result? p ⟨0, cs⟩ = some (b, d) ∧ shape b = shape a ∧
      d.rest = c'.rest := by
    have hmoved := (halone start).result ⟨0, cs⟩ hc
    simp only [Cursor.within, Nat.zero_add, List.append_nil] at hmoved
    rw [hresult] at hmoved
    obtain ⟨⟨b, d⟩, hb, hbd⟩ := Option.map_eq_some_iff.mp hmoved.symm
    cases hbd
    exact ⟨b, d, hb, (hshape start b).symm, (List.append_nil d.rest).symm⟩
  obtain ⟨b, d, hb, hba, hd⟩ := hfront
  intro offset
  have hplaced := (hwithin offset).result ⟨0, cs⟩ hc
  simp only [Cursor.within, Nat.zero_add] at hplaced
  refine ⟨view offset b, d.offset + offset, ?_, (hshape offset b).trans hba⟩
  rw [hplaced, hb, ← hd]
  rfl

theorem result?_many_of_refuses {c : Cursor} (h : result? p c = none) :
    result? (many p) c = some ([], c) := by
  rw [result?_many]
  cases c.rest.length with
  | zero => rfl
  | succ n => rw [result?_upTo_succ, h]

end Reader

end LayeredLogic
