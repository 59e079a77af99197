import LayeredLogic.Proofs.Mirror
import LayeredLogic.Proofs.Operand

/-!
# A grammar mirrored by another

If single characters, quoted names and parentheses are read inside a longer text
as they are read alone, then so are all productions.  The grammar for the longer
text may also be that of a layer above, as long as what this layer adds does not
stand in the text.
-/

namespace LayeredLogic

private theorem Layer.keywords_subset {lower upper : Layer}
    (h : upper.includes lower = true) : lower.keywords ⊆ upper.keywords := by
  revert h
  cases lower <;> cases upper <;> decide

abbrev Reader.MirrorsTrees (frame : Frame) (Q : List Char → Prop)
    (p q : Reader Tree) : Prop :=
  Mirrors frame Q Q (Tree.shift frame.before) p q

private theorem Layer.new_keywords {lower upper feature : Layer}
    (h : upper.includes lower = true) (hupper : upper.includes feature = true)
    (hlower : lower.includes feature = false) :
    ∀ word ∈ feature.keywords, word ∈ upper.keywords ∧
    word ∉ lower.keywords := by
  revert h hupper hlower
  cases lower <;> cases upper <;> cases feature <;> decide

/-- Nothing stands in the text that is an operator of the second layer only. -/
structure Common (lower upper : Layer) (cs : List Char) : Prop where
  letters : upper.includes .ltl = true → lower.includes .ltl = false →
    ∀ x ∈ ['X', 'G', 'F', 'U'], x ∉ cs
  words : ∀ word ∈ upper.keywords, word ∉ lower.keywords → ¬ word <:+: cs

namespace Common

variable {lower upper : Layer} {cs word : List Char}

theorem of_piece (h : Common lower upper cs) (hword : word <:+: cs) :
    Common lower upper word where
  letters hupper hlower x hx hmem :=
    h.letters hupper hlower x hx (hword.subset hmem)
  words other hnew hold hother := h.words other hnew hold (hother.trans hword)

theorem mem_keywords_iff (h : Common lower upper word)
    (hincludes : upper.includes lower = true) :
    word ∈ upper.keywords ↔ word ∈ lower.keywords := by
  constructor
  · intro hupper
    by_contra hlower
    exact h.words word hupper hlower List.infix_rfl
  · exact fun hlower => Layer.keywords_subset hincludes hlower

end Common

/-! ## Lexemes -/

/-- What is needed of the texts and the frame for lexemes to be mirrored, but
for those with parentheses, quotes or a closing bracket.  The kinds of texts are
told apart by a bound on what is left. -/
structure Lexing (frame : Frame) (Q : Nat → List Char → Prop) : Prop where
  weaken : ∀ {j k : Nat} {cs : List Char}, j ≤ k → Q j cs → Q k cs
  run : ∀ {ok : Char → Bool} {k : Nat}, Inert ok →
    Reader.Mirrors frame (Q k) (Q k) id (.run ok) (.run ok)
  satisfy : ∀ {ok : Char → Bool} {k : Nat}, Inert ok →
    Reader.Mirrors frame (Q k) (Q (k - 1)) id (.satisfy ok) (.satisfy ok)

namespace Lexing

open Reader

variable {α β : Type} {frame : Frame} {Q : Nat → List Char → Prop}
  {R : List Char → Prop} {view : α → β} {p : Reader α} {q : Reader β}
  {j k : Nat}

theorem padded (h : Lexing frame Q) (hp : Mirrors frame (Q k) (Q j) view p q) :
    Mirrors frame (Q k) (Q j) view (padded p) (padded q) :=
  Mirrors.padded (h.run (by decide)) hp (h.run (by decide))

theorem shortened (h : Lexing frame Q)
    (hp : Mirrors frame R (Q (j - 1)) view p q) :
    Mirrors frame R (Q j) view p q :=
  hp.mono (fun _ hcs => hcs) fun _ => h.weaken (Nat.sub_le j 1)

theorem lengthen (h : Lexing frame Q) (hp : Mirrors frame R (Q j) view p q) :
    Mirrors frame R (Q (j + 1)) view p q :=
  hp.mono (fun _ hcs => hcs) fun _ => h.weaken (Nat.le_succ j)

theorem exactly (h : Lexing frame Q) {sign : List Char}
    (hsign : ∀ c ∈ sign, Inert (· == c)) :
    Mirrors frame (Q k) (Q k) id (exactly sign) (exactly sign) := by
  induction sign with
  | nil => exact mirrors_pure rfl
  | cons c sign ih =>
      obtain ⟨hc, hsign⟩ := List.forall_mem_cons.mp hsign
      exact (h.shortened (h.satisfy hc)).bind fun _ => ih hsign

theorem symbol (h : Lexing frame Q) {c : Char} {cs : List Char}
    (hsign : ∀ x ∈ c :: cs, Inert (· == x)) :
    Mirrors frame (Q k) (Q (k - 1)) id (symbol (c :: cs))
      (symbol (c :: cs)) := by
  obtain ⟨hc, hcs⟩ := List.forall_mem_cons.mp hsign
  exact h.padded ((h.satisfy hc).bind fun _ => h.exactly hcs)

theorem identifier (h : Lexing frame Q) :
    Mirrors frame (Q k) (Q (k - 1)) id identifier identifier :=
  (h.satisfy (by decide)).bind fun _ =>
    (h.run (by decide)).bind fun _ => mirrors_pure rfl

theorem keyword (h : Lexing frame Q) (word : List Char) :
    Mirrors frame (Q k) (Q (k - 1)) id (keyword word) (keyword word) := by
  have hword :
      Mirrors frame (Q k) (Q (k - 1)) id (check Reader.identifier (· == word))
      (check Reader.identifier (· == word)) :=
        h.identifier.check fun _ _ _ _ _ => rfl
  exact (h.padded hword).bind fun _ => mirrors_pure rfl

theorem digits (h : Lexing frame Q) :
    Mirrors frame (Q k) (Q (k - 1)) id digits digits := by
  apply (h.satisfy (by decide)).bind
  intro first
  rw [id_eq]
  split
  · exact mirrors_pure rfl
  · exact (h.run (by decide)).bind fun _ => mirrors_pure rfl

theorem token (h : Lexing frame Q) {kind : TokenKind}
    {lexeme lexeme' : Reader (List Char)}
    (hlexeme : Mirrors frame (Q k) (Q k) id lexeme lexeme') :
    Mirrors frame (Q k) (Q k) (Token.shift frame.before) (token kind lexeme)
      (token kind lexeme') :=
  h.padded (hlexeme.located.bind fun _ => mirrors_pure rfl)

theorem integer (h : Lexing frame Q) :
    Mirrors frame (Q k) (Q k) (Token.shift frame.before) integer integer := by
  have hsign :
      Mirrors frame (Q k) (Q k) id (.satisfy (· == '-'))
        (.satisfy (· == '-')) :=
    h.shortened (h.satisfy (by decide))
  apply h.token
  refine (hsign.optional fun _ hcs => hcs).bind fun sign => ?_
  refine (h.shortened h.digits).bind fun ds => mirrors_pure ?_
  cases sign <;> rfl

theorem graphList (h : Lexing frame Q) :
    MirrorsTrees frame (Q k) graphList graphList := by
  have hsymbol : ∀ {c : Char}, Inert (· == c) →
      Mirrors frame (Q k) (Q k) id (Reader.symbol [c]) (Reader.symbol [c]) :=
        fun hc =>
    h.shortened (h.symbol (List.forall_mem_singleton.mpr hc))
  have hname : Mirrors frame (Q k) (Q k) (Token.shift frame.before)
      (Reader.token .name Reader.identifier)
      (Reader.token .name Reader.identifier) :=
    h.token (h.shortened h.identifier)
  have hnames := hname.sepBy (hsymbol (by decide)) (shortens_symbol ',' [])
    (layout_true.token layout_true.identifier)
  refine Mirrors.bind (Mirrors.located (?_ : Mirrors frame (Q k) (Q k)
    (Prod.map (Token.shift frame.before) (List.map (Token.shift frame.before)))
      _ _))
    fun found => mirrors_pure ?_
  · refine (hsymbol (by decide)).bind fun _ => ?_
    refine hnames.bind fun names => ?_
    exact (hsymbol (by decide)).bind fun _ => mirrors_pure rfl
  · simp [Function.comp_def]

theorem literalAtom (h : Lexing frame Q) :
    MirrorsTrees frame (Q k) literalAtom literalAtom := by
  have hword : Mirrors frame (Q k) (Q k) id
      (check Reader.identifier literalWords.contains)
      (check Reader.identifier literalWords.contains) :=
    (h.shortened h.identifier).check fun _ _ _ _ _ => rfl
  have hdigit : Mirrors frame (Q k) (Q k) id
      (check Reader.digits fun ds => ds == ['0'] || ds == ['1'])
      (check Reader.digits fun ds => ds == ['0'] || ds == ['1']) :=
    (h.shortened h.digits).check fun _ _ _ _ _ => rfl
  refine (h.token (hword.orElse hdigit)).located.bind fun found =>
    mirrors_pure ?_
  simp

end Lexing

/-! ## Two grammars -/

/-- What is needed of the texts and the frame for the grammar of one layer to be
mirrored by that of a layer that includes it.  The kinds of texts are also told
apart by the number of parentheses that are open. -/
structure Simulation (lower upper : Layer) (frame : Frame)
    (Q : Nat → Nat → List Char → Prop) :
    Prop where
  includes : upper.includes lower = true
  lexing : ∀ n, Lexing frame (Q n)
  bracket : ∀ {n k : Nat}, Reader.Mirrors frame (Q n k) (Q n k) id
    (.satisfy (· == ']')) (.satisfy (· == ']'))
  quoted :
    ∀ {n k : Nat}, Reader.Mirrors frame (Q n k) (Q n k) id .quoted .quoted
  opening : ∀ {n k : Nat}, Reader.Mirrors frame (Q n k) (Q (n + 1) (k - 1)) id
    (.satisfy (· == '(')) (.satisfy (· == '('))
  closing : ∀ {n k : Nat}, Reader.Mirrors frame (Q (n + 1) k) (Q n k) id
    (.satisfy (· == ')')) (.satisfy (· == ')'))
  common : ∀ {n k : Nat} {cs : List Char},
    Q n k cs → Common lower upper (cs ++ frame.behind)

namespace Simulation

open Reader

variable {α β : Type} {lower upper : Layer} {frame : Frame}
  {Q : Nat → Nat → List Char → Prop} {view : α → β} {op op' : Reader Tree}
  {n k : Nat}

theorem sign (h : Simulation lower upper frame Q) {c : Char} {m j : Nat}
    (hc : Mirrors frame (Q n k) (Q m j) id (.satisfy (· == c))
      (.satisfy (· == c))) :
    Mirrors frame (Q n k) (Q m j) id (symbol [c]) (symbol [c]) :=
  Mirrors.padded ((h.lexing n).run (by decide))
    (hc.bind fun _ => mirrors_pure rfl)
    ((h.lexing m).run (by decide))

theorem interval (h : Simulation lower upper frame Q) :
    MirrorsTrees frame (Q n k) interval interval := by
  have hlexing := h.lexing n
  have hbound :
      Mirrors frame (Q n k) (Q n k) (Option.map (Token.shift frame.before))
      (optional integer) (optional integer) :=
        hlexing.integer.optional fun _ hcs => hcs
  refine Mirrors.node ?_
  refine (hlexing.shortened (hlexing.symbol (by decide))).bind fun _ => ?_
  refine hbound.bind fun start => ?_
  refine (hlexing.shortened (hlexing.symbol (by decide))).bind fun _ => ?_
  refine hbound.bind fun stop => ?_
  refine (h.sign h.bracket).bind fun _ => mirrors_pure ?_
  simp

theorem steps (h : Simulation lower upper frame Q) :
    Mirrors frame (Q n k) (Q n k) (Token.shift frame.before) steps steps := by
  refine ((h.lexing n).shortened ((h.lexing n).symbol (by decide))).bind
    fun _ => ?_
  refine (h.lexing n).integer.bind fun count => ?_
  exact (h.sign h.bracket).bind fun _ => mirrors_pure rfl

theorem reserves (h : Simulation lower upper frame Q) {cs word : List Char}
    (hcs : Q n k cs) (hword : word <:+: cs) :
    upper.reserves word = lower.reserves word := by
  have hframe : word <:+: cs ++ frame.behind :=
    hword.trans (List.infix_append' [] cs frame.behind)
  have hiff := ((h.common hcs).of_piece hframe).mem_keywords_iff h.includes
  simp only [Layer.reserves, List.contains_eq_mem, hiff]

theorem variableAtom (h : Simulation lower upper frame Q) :
    MirrorsTrees frame (Q n k) (variableAtom lower) (variableAtom upper) := by
  have hname :
      Mirrors frame (Q n k) (Q n k) id (nameLexeme lower)
        (nameLexeme upper) := by
    apply ((h.lexing n).shortened (h.lexing n).identifier).check
    intro c word c' hc hresult
    obtain ⟨hrest, -⟩ := result?_identifier_eq_some hresult
    have hword : word <:+: c.rest := ⟨[], c'.rest, hrest.symm⟩
    rw [id_eq, h.reserves hc hword]
  refine (((h.lexing n).token hname).orElse
    ((h.lexing n).token h.quoted)).located.bind fun found => mirrors_pure ?_
  simp

theorem parenthesized (h : Simulation lower upper frame Q)
    (hp : MirrorsTrees frame (Q (n + 1) k) op op') :
    MirrorsTrees frame (Q n (k + 1)) (parenthesized op)
      (parenthesized op') := by
  have hopening :
      Mirrors frame (Q n (k + 1)) (Q (n + 1) k) id (symbol ['('])
        (symbol ['(']) :=
    h.sign h.opening
  have hclosing :
      Mirrors frame (Q (n + 1) k) (Q n k) id (symbol [')']) (symbol [')']) :=
    h.sign h.closing
  exact hopening.bind fun _ => hp.bind fun _ =>
    ((h.lexing n).lengthen hclosing).bind fun _ => mirrors_pure rfl

theorem negation (h : Simulation lower upper frame Q)
    (hop : MirrorsTrees frame (Q n k) op op') :
    MirrorsTrees frame (Q n (k + 1)) (negation op) (negation op') := by
  have hsign : Mirrors frame (Q n (k + 1)) (Q n k) id
      (Reader.padded (.satisfy fun c => c == '!' || c == '~'))
      (Reader.padded (.satisfy fun c => c == '!' || c == '~')) :=
    (h.lexing n).padded ((h.lexing n).satisfy (by decide))
  refine Mirrors.node (hsign.bind fun _ => ?_)
  exact ((h.lexing n).lengthen hop).bind fun _ => mirrors_pure rfl

theorem next (h : Simulation lower upper frame Q)
    (hop : MirrorsTrees frame (Q n k) op op') :
    MirrorsTrees frame (Q n (k + 1)) (next op) (next op') := by
  have hsign : Mirrors frame (Q n (k + 1)) (Q n k) id (Reader.symbol ['X'])
      (Reader.symbol ['X']) :=
    (h.lexing n).symbol (by decide)
  refine Mirrors.node (hsign.bind fun _ => ?_)
  refine (h.steps.optional fun _ hcs => hcs).bind fun count => ?_
  refine ((h.lexing n).lengthen hop).bind fun _ => mirrors_pure ?_
  simp

theorem bounded (h : Simulation lower upper frame Q) {rule : Rule}
    {operator : Reader Unit}
    (hoperator : Mirrors frame (Q n (k + 1)) (Q n k) id operator operator)
    (hop : MirrorsTrees frame (Q n k) op op') :
    MirrorsTrees frame (Q n (k + 1)) (bounded rule operator op)
      (bounded rule operator op') := by
  refine Mirrors.node (hoperator.bind fun _ => ?_)
  refine (h.interval.optional fun _ hcs => hcs).bind fun bounds => ?_
  refine ((h.lexing n).lengthen hop).bind fun _ => mirrors_pure ?_
  simp

theorem graph (h : Simulation lower upper frame Q) (rule : Rule)
    (word : List Char) (hop : MirrorsTrees frame (Q n k) op op') :
    MirrorsTrees frame (Q n (k + 1)) (graph rule word op)
      (graph rule word op') := by
  have hword : Mirrors frame (Q n (k + 1)) (Q n k) id (Reader.keyword word)
      (Reader.keyword word) :=
    (h.lexing n).keyword word
  refine Mirrors.node (hword.bind fun _ => ?_)
  refine (h.lexing n).graphList.bind fun labels => ?_
  refine (h.interval.optional fun _ hcs => hcs).bind fun bounds => ?_
  refine ((h.lexing n).lengthen hop).bind fun _ => mirrors_pure ?_
  simp

theorem precedes (h : Simulation lower upper frame Q) (feature : Layer)
    {ps : List (Reader α)} {qs : List (Reader β)}
    (hboth : List.Forall₂ (Mirrors frame (Q n k) (Q n k) view) ps qs)
    (hrefuses : upper.includes feature = true → lower.includes feature = false →
      ∀ cs, Q n k cs → ∀ q ∈ qs, Refuses q (cs ++ frame.behind)) :
    Precedes frame (Q n k) (Q n k) view
      (if lower.includes feature then ps else [])
        (if upper.includes feature then qs else []) := by
  cases hlower : lower.includes feature with
  | true =>
      have hupper : upper.includes feature = true :=
        Layer.includes_trans h.includes hlower
      rw [hupper]
      exact precedes_of_forall₂ hboth
  | false =>
      cases hupper : upper.includes feature with
      | true => exact precedes_of_refuses (hrefuses hupper hlower)
      | false => exact precedes_of_forall₂ .nil

theorem refuses_new_words (h : Simulation lower upper frame Q) {feature : Layer}
    (hupper : upper.includes feature = true)
    (hlower : lower.includes feature = false) {cs : List Char}
    (hcs : Q n k cs) :
    ∀ word ∈ feature.keywords,
      Refuses (Reader.keyword word) (cs ++ frame.behind) := by
  intro word hword
  obtain ⟨hnew, hold⟩ := Layer.new_keywords h.includes hupper hlower word hword
  exact refuses_keyword_of_absent ((h.common hcs).words word hnew hold)

theorem prefixed (h : Simulation lower upper frame Q)
    (hop : MirrorsTrees frame (Q n k) op op') :
    Precedes frame (Q n (k + 1)) (Q n (k + 1)) (Tree.shift frame.before)
      (prefixed lower op)
      (prefixed upper op') := by
  have hletter : ∀ {x : Char}, Inert (· == x) →
      Mirrors frame (Q n (k + 1)) (Q n k) id (Reader.symbol [x])
        (Reader.symbol [x]) := fun hx =>
    (h.lexing n).symbol (List.forall_mem_singleton.mpr hx)
  have hword :
      ∀ word, Mirrors frame (Q n (k + 1)) (Q n k) id (Reader.keyword word)
      (Reader.keyword word) := (h.lexing n).keyword
  have hnegation :
      Precedes frame (Q n (k + 1)) (Q n (k + 1)) (Tree.shift frame.before)
      [Reader.negation op] [Reader.negation op'] :=
    precedes_of_forall₂ (.cons (h.negation hop) .nil)
  refine hnegation.append (Precedes.append (Precedes.append ?_ ?_) ?_)
  · apply h.precedes .ltl
    · exact .cons (h.next hop) (.cons (h.bounded (hletter (by decide)) hop)
        (.cons (h.bounded (hletter (by decide)) hop) .nil))
    · intro hupper hlower cs hcs
      apply refuses_temporal
      intro x hhead hx
      have hmem := mem_of_mem_skip (List.mem_of_mem_head? hhead)
      exact (h.common hcs).letters hupper hlower x
        (List.mem_append_left ['U'] hx) hmem
  · apply h.precedes .strel
    · exact .cons (h.bounded (hword _) hop) (.cons (h.bounded (hword _) hop)
        (.cons (h.bounded (hword _) hop) .nil))
    · intro hupper hlower cs hcs
      exact refuses_spatial (h.refuses_new_words hupper hlower hcs)
  · apply h.precedes .stlGo
    · exact .cons (h.graph _ _ hop) (.cons (h.graph _ _ hop) .nil)
    · intro hupper hlower cs hcs
      exact refuses_graphical (h.refuses_new_words hupper hlower hcs)

private theorem inert_of_mem_ladder {l : List Char × (Tree → List Tree → Tree)}
    (h : l ∈ ladder) :
    (∀ x ∈ l.1, Inert (· == x)) ∧
      ∀ n t ts,
        (l.2 t ts).shift n = l.2 (t.shift n) (ts.map (Tree.shift n)) := by
  simp only [ladder, List.mem_cons, List.not_mem_nil, or_false] at h
  rcases h with rfl | rfl | rfl | rfl | rfl
  · exact ⟨by decide, fun _ => Tree.shift_chain _⟩
  · exact ⟨by decide, fun _ => Tree.shift_chain _⟩
  · exact ⟨by decide, fun _ => Tree.shift_groupLeft _⟩
  · exact ⟨by decide, fun _ => Tree.shift_groupRight _⟩
  · exact ⟨by decide, fun _ => Tree.shift_groupLeft _⟩

theorem binaryModality (h : Simulation lower upper frame Q) :
    Mirrors frame (Q n k) (Q n k) id (binaryModality lower)
      (binaryModality upper) := by
  have huntil :
      Mirrors frame (Q n k) (Q n k) id (Reader.symbol ['U'])
        (Reader.symbol ['U']) :=
    (h.lexing n).shortened ((h.lexing n).symbol (by decide))
  have hreach : Mirrors frame (Q n k) (Q n k) id (Reader.keyword "reach".toList)
      (Reader.keyword "reach".toList) :=
        (h.lexing n).shortened ((h.lexing n).keyword _)
  have hwords : Mirrors frame (Q n k) (Q n k) id
      (do
        Reader.keyword "reach".toList
        return Rule.reach)
      (do
        Reader.keyword "reach".toList
        return Rule.reach) := hreach.bind fun _ => mirrors_pure rfl
  have hspatial := h.precedes .strel (.cons hwords .nil) ?_ [] [] mirrors_fail
  · rw [List.append_nil, List.append_nil] at hspatial
    exact Mirrors.orElse (huntil.bind fun _ => mirrors_pure rfl) hspatial
  · intro hupper hlower cs hcs q hq
    obtain rfl := List.mem_singleton.mp hq
    exact (h.refuses_new_words hupper hlower hcs _ (by decide)).bind

theorem refuses_binaryModality (h : Simulation lower upper frame Q)
    (hupper : upper.includes .ltl = true) (hlower : lower.includes .ltl = false)
    {cs : List Char} (hcs : Q n k cs) :
    Refuses (Reader.binaryModality upper) (cs ++ frame.behind) := by
  have huntil : Refuses (Reader.symbol ['U']) (cs ++ frame.behind) := by
    apply refuses_symbol
    rintro _ hhead rfl
    have hmem := mem_of_mem_skip (List.mem_of_mem_head? hhead)
    exact (h.common hcs).letters hupper hlower 'U' (by decide) hmem
  apply refuses_firstOf
  intro p hp
  rcases List.mem_cons.mp hp with rfl | hp
  · exact huntil.bind
  · split at hp
    · rename_i hstrel
      obtain rfl := List.mem_singleton.mp hp
      have hnot : lower.includes .strel = false :=
        Bool.eq_false_iff.mpr fun hincludes => by
          rw [Layer.includes_trans hincludes rfl] at hlower
          cases hlower
      exact (h.refuses_new_words hstrel hnot hcs _ (by decide)).bind
    · cases hp

private theorem shift_foldl_modal (n : Nat) (first : Tree)
    (others : List (Rule × Option Tree × Tree)) :
    (others.foldl (fun lhs (rule, bounds, rhs) => .modal rule lhs bounds rhs)
      first).shift n =
      (others.map
        (Prod.map id (Prod.map (Option.map (.shift n)) (.shift n)))).foldl
        (fun lhs (rule, bounds, rhs) => .modal rule lhs bounds rhs)
          (first.shift n) := by
  induction others generalizing first with
  | nil => rfl
  | cons other others ih =>
      rw [List.foldl_cons, ih, Tree.shift_modal, List.map_cons, List.foldl_cons]
      rfl

theorem modal (h : Simulation lower upper frame Q)
    (hop : MirrorsTrees frame (Q n k) op op') (hadvances : Advances op) :
    MirrorsTrees frame (Q n k) (modal lower op) (modal upper op') := by
  unfold Reader.modal
  cases hlower : lower.includes .ltl with
  | true =>
      have hupper : upper.includes .ltl = true :=
        Layer.includes_trans h.includes hlower
      rw [hupper]
      refine hop.bind fun first => ?_
      refine Mirrors.bind (Mirrors.many (?_ : Mirrors frame (Q n k) (Q n k)
        (Prod.map id
          (Prod.map (Option.map (.shift frame.before)) (.shift frame.before))) _
          _) ?_)
        fun others => mirrors_pure ?_
      · refine h.binaryModality.bind fun rule => ?_
        refine (h.interval.optional fun _ hcs => hcs).bind fun bounds => ?_
        exact hop.bind fun rhs => mirrors_pure rfl
      · refine shortens_binaryModality.bind fun rule => ?_
        refine layout_true.bind (layout_true.optional layout_true.interval)
          fun bounds => ?_
        exact layout_true.bind hadvances fun rhs => layout_true.pure _
      · exact shift_foldl_modal _ first others
  | false =>
      cases hupper : upper.includes .ltl with
      | false => exact hop
      | true =>
          refine ⟨fun c hc => ?_, hop.rest⟩
          have hstop : ∀ t c', result? op c = some (t, c') →
              Refuses (Reader.binaryModality upper) (c'.within frame).rest :=
                fun t c' hresult =>
            h.refuses_binaryModality hupper hlower (hop.rest c t c' hc hresult)
          simp only [reduceIte, Bool.false_eq_true, result?_bind,
            hop.result c hc]
          cases hresult : result? op c with
          | none => rfl
          | some r =>
              simp [Prod.map,
                result?_many_of_refuses ((hstop r.1 r.2 hresult).bind _)]

theorem level (h : Simulation lower upper frame Q) {c : Char} {cs : List Char}
    {group : Tree → List Tree → Tree} {tighter tighter' : Reader Tree}
    (hsign : ∀ x ∈ c :: cs, Inert (· == x))
    (hgroup : ∀ t ts, (group t ts).shift frame.before =
      group (t.shift frame.before) (ts.map (Tree.shift frame.before)))
    (hp : MirrorsTrees frame (Q n k) tighter tighter')
    (hadvances : Advances tighter) :
    MirrorsTrees frame (Q n k) (level (c :: cs) group tighter)
      (level (c :: cs) group tighter') := by
  have hsymbol :
      Mirrors frame (Q n k) (Q n k) id (symbol (c :: cs)) (symbol (c :: cs)) :=
    (h.lexing n).shortened ((h.lexing n).symbol hsign)
  refine (hp.sepBy hsymbol (shortens_symbol c cs) hadvances).bind
    fun found => ?_
  exact mirrors_pure (hgroup found.1 found.2)

theorem climb (h : Simulation lower upper frame Q)
    {levels : List (List Char × (Tree → List Tree → Tree))}
    (hlevels : ∀ l ∈ levels, l ∈ ladder)
    (hop : MirrorsTrees frame (Q n k) op op') (hadvances : Advances op) :
    MirrorsTrees frame (Q n k) (climb levels op) (climb levels op') := by
  induction levels generalizing op op' with
  | nil => exact hop
  | cons l levels ih =>
      obtain ⟨hl, hrest⟩ := List.forall_mem_cons.mp hlevels
      obtain ⟨sign, group⟩ := l
      obtain ⟨⟨c, cs, rfl⟩, -⟩ := level_of_mem_ladder hl
      obtain ⟨hsign, hgroup⟩ := inert_of_mem_ladder hl
      apply ih hrest
      · exact h.level hsign (hgroup _) hop hadvances
      · exact layout_true.level trivial hadvances

theorem formula (h : Simulation lower upper frame Q)
    (hop : MirrorsTrees frame (Q n k) op op') (hadvances : Advances op) :
    MirrorsTrees frame (Q n k) (formula lower op) (formula upper op') := by
  rw [formula_eq_climb, formula_eq_climb]
  exact h.climb (fun _ hl => hl) (h.modal hop hadvances)
    (layout_true.modal hadvances)

theorem operand (h : Simulation lower upper frame Q) {a b : Nat}
    (hop : ∀ n, MirrorsTrees frame (Q n k) (operand lower a) (operand upper b))
    (n : Nat) :
    MirrorsTrees frame (Q n (k + 1)) (operand lower (a + 1))
      (operand upper (b + 1)) := by
  have hliteral :
      Precedes frame (Q n (k + 1)) (Q n (k + 1)) (Tree.shift frame.before)
      [Reader.literalAtom] [Reader.literalAtom] :=
    precedes_of_forall₂ (.cons (h.lexing n).literalAtom .nil)
  have hformula := h.formula (hop (n + 1)) (layout_true.operand a)
  refine (hliteral.append (h.prefixed (hop n))) _ _ ?_
  exact (h.parenthesized hformula).orElse (h.variableAtom.orElse mirrors_fail)

end Simulation

end LayeredLogic
