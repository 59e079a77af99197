import LayeredLogic.Proofs.JoinedNesting
import LayeredLogic.Proofs.Placement
import Mathlib.Algebra.Order.BigOperators.Group.List
import Mathlib.Algebra.Order.Group.Nat

/-!
# The nesting of joined operands

An operand is a row of prefix operators in front of an atom or a group.  The
scan counts each of these operators once at most and forgets what stands in the
group.  So an operand of a chain is as deep as it is alone behind one negation
for each prefix operator of the operands before it, and the chain itself adds
nothing.
-/

namespace LayeredLogic

/-! ## Operands -/

def Rule.prefixes : List Rule :=
  [negation, next, always, eventually, everywhere, somewhere, escape,
    graphIncoming, graphOutgoing]

def isPrefixed (name : String) : Bool :=
  Rule.prefixes.any fun rule => rule.name == name

/-- One operand behind white space.  No text holds more parentheses and prefix
operators than characters. -/
def Reader.sole (layer : Layer) (source : String) : Reader Tree := do
  let _ ← run isBlank
  operand layer (source.toList.length + 1)

def Part.startsTemporal : Part → Bool
  | .token t => t.text.toList.head?.any isTemporalLetter
  | .tree _ | .absent => false

namespace Tree

mutual

/-- The right edge of a tree from the root down, as long as it reaches to the
offset.  If that is the end of a text, the edge leaves out what stands in
parentheses. -/
def edge (stop : Nat) : Tree → List Tree
  | node rule parts span =>
      if span.stop = stop then
        node rule parts span :: edgeOfParts stop parts
      else []

def edgeOfParts (stop : Nat) : List Part → List Tree
  | [] => []
  | [.tree t] => t.edge stop
  | _ :: rest => edgeOfParts stop rest

end

def prefixes (stop : Nat) (t : Tree) : Nat :=
  (t.edge stop).countP fun u => isPrefixed u.rule

/-- No name or literal at the end begins with a temporal letter. -/
def EndsPlain (stop : Nat) (t : Tree) : Prop :=
  ∀ u ∈ t.edge stop, ∀ part ∈ u.parts, part.startsTemporal = false

def operand? (layer : Layer) (source : String) : Option (Tree × Nat) :=
  match (Reader.sole layer source).result? (.ofText source.toList) with
  | some (t, ⟨stop, []⟩) => some (t, stop)
  | _ => none

/-- A text that is read alone and is one operand.  Where words may begin with
temporal operators, none of their letters begins the atom at its end. -/
def IsOperand (layer : Layer) (source : String) : Prop :=
  ∃ t stop, Tree.parse layer source = .ok t ∧
    operand? layer source = some (t, stop) ∧
    (layer.includes .ltl = true → t.EndsPlain stop)

/-- The number of prefix operators of an operand. -/
def prefixesOf (layer : Layer) (source : String) : Nat :=
  (operand? layer source).elim 0 fun (t, stop) => t.prefixes stop

/-- The text behind a number of negations. -/
def negated (n : Nat) (source : String) : String :=
  String.ofList (List.replicate n '!') ++ source

def TooDeep (layer : Layer) (source : String) : Prop :=
  ∃ d, Tree.parse layer source = .error (.tooDeep d)

private theorem edgeOfParts_append (stop : Nat) (parts : List Part) (t : Tree) :
    edgeOfParts stop (parts ++ [.tree t]) = t.edge stop := by
  induction parts with
  | nil => rfl
  | cons part parts ih =>
      have hne : parts ++ [.tree t] ≠ [] := by simp
      rw [← ih, List.cons_append]
      cases hparts : parts ++ [.tree t] with
      | nil => exact absurd hparts hne
      | cons => cases part <;> rfl

theorem edge_node {stop start : Nat} {rule : String} {parts : List Part}
    {t : Tree} : edge stop (node rule (parts ++ [.tree t]) ⟨start, stop⟩) =
      node rule (parts ++ [.tree t]) ⟨start, stop⟩ :: t.edge stop := by
  rw [edge, if_pos rfl, edgeOfParts_append]

private theorem edge_of_stop_lt {stop : Nat} {t : Tree}
    (h : t.span.stop < stop) : t.edge stop = [] := by
  obtain ⟨rule, parts, span⟩ := t
  exact if_neg h.ne

theorem edge_leaf {stop start : Nat} {rule : String} {token : Token} :
    edge stop (node rule [.token token] ⟨start, stop⟩) =
      [node rule [.token token] ⟨start, stop⟩] := by
  rw [edge, if_pos rfl]
  rfl

private theorem prefixes_node {stop start : Nat} {rule : Rule}
    {parts : List Part} {t : Tree} (h : rule ∈ Rule.prefixes) :
    prefixes stop (node rule.name (parts ++ [.tree t]) ⟨start, stop⟩) =
      1 + t.prefixes stop := by
  have hroot : isPrefixed rule.name = true :=
    List.any_eq_true.mpr ⟨rule, h, beq_self_eq_true _⟩
  rw [prefixes, edge_node, List.countP_cons, Tree.rule, hroot, Nat.add_comm]
  rfl

private theorem prefixes_leaf {stop start : Nat} {rule : Rule} {token : Token}
    (h : rule ∉ Rule.prefixes) :
    prefixes stop (node rule.name [.token token] ⟨start, stop⟩) = 0 := by
  have hroot : isPrefixed rule.name = false := by
    revert h
    cases rule <;> decide
  rw [prefixes, edge_leaf, List.countP_singleton, Tree.rule, hroot]
  rfl

end Tree

namespace Nesting

variable {layer : Layer} {word : Option (List Char)} {c : Char}
  {cs rest : List Char} {ms : List Mark} {k m n : Nat}

/-! ## What is left behind a text -/

/-- From here on the scan leaves no more operators than given, in a layer
without keywords just so many, and without groups it comes no deeper. -/
def Leaves (layer : Layer) (word : Option (List Char)) (cs : List Char)
    (k : Nat) : Prop :=
  ∃ peak load,
    (∀ limit, Raises limit (marksFrom layer word cs) peak load) ∧
    load ≤ k ∧ (layer.keywords = [] → load = k) ∧ ('(' ∉ cs → peak = load)

theorem Leaves.mono (h : Leaves layer word cs k) (hle : k ≤ m)
    (hwords : layer.keywords ≠ []) : Leaves layer word cs m := by
  obtain ⟨peak, load, hraises, hload, -, hflat⟩ := h
  exact ⟨peak, load, hraises, hload.trans hle, fun hnone => absurd hnone hwords,
    hflat⟩

theorem Leaves.operators (h : Leaves layer none rest k) (n : Nat)
    (hmarks : marksFrom layer word cs =
      .operators n :: marksFrom layer none rest)
    (hgroup : '(' ∈ rest → '(' ∈ cs) : Leaves layer word cs (n + k) := by
  obtain ⟨peak, load, hraises, hload, hexact, hflat⟩ := h
  refine ⟨n + peak, n + load, fun limit => ?_, by omega, fun hnone => ?_,
    fun hcs => ?_⟩
  · rw [hmarks]
    exact (hraises limit).operators n
  · rw [hexact hnone]
  · rw [hflat (mt hgroup hcs)]

theorem Leaves.emits (h : Leaves layer none rest k)
    (hcs : Emits layer cs rest []) : Leaves layer none (cs ++ rest) k := by
  obtain ⟨peak, load, hraises, hload, hexact, hflat⟩ := h
  refine ⟨peak, load, fun limit => ?_, hload, hexact, fun hmem => ?_⟩
  · rw [hcs.marksFrom_append]
    exact hraises limit
  · exact hflat fun hrest => hmem (List.mem_append_right _ hrest)

private theorem leaves_nil (layer : Layer) : Leaves layer none [] 0 :=
  ⟨0, 0, fun _ => raises_nil, Nat.le_refl 0, fun _ => rfl, fun _ => rfl⟩

def Lettered (layer : Layer) (word : Option (List Char)) : Prop :=
  ∀ letters ∈ word, layer.includes .ltl = true ∧ letters ≠ [] ∧
    ∀ c ∈ letters, isTemporalLetter c = true

private theorem lettered_none (layer : Layer) : Lettered layer none := nofun

theorem not_isTemporalLetter_of_keyword (layer : Layer) :
    ∀ word ∈ layer.keywords, ∀ c ∈ word.head?, isTemporalLetter c = false := by
  have hkeywords : ∀ word ∈ layer.keywords,
      word.head?.any isTemporalLetter = false := by
    cases layer <;> decide
  intro word hword c hc
  have hany := hkeywords word hword
  rw [hc] at hany
  exact hany

private theorem wordWeight_letters {letters : List Char}
    (hltl : layer.includes .ltl = true) (hne : letters ≠ [])
    (hletters : ∀ c ∈ letters, isTemporalLetter c = true)
    (hcs : ∀ c ∈ cs.head?, isTemporalLetter c = false) :
    wordWeight layer (letters ++ cs) = letters.length := by
  have hword : letters ++ cs ∉ layer.keywords := by
    intro hmem
    obtain ⟨c, rest, rfl⟩ := List.exists_cons_of_ne_nil hne
    have hplain := not_isTemporalLetter_of_keyword layer _ hmem c rfl
    rw [hletters c List.mem_cons_self] at hplain
    cases hplain
  have hkeyword : layer.keywords.contains (letters ++ cs) = false := by
    simpa using hword
  rw [wordWeight, hkeyword, hltl]
  exact congrArg List.length (takeWhile_append_of_ends hletters hcs).1

private theorem wordWeight_plain
    (hcs : layer.includes .ltl = true →
      ∀ c ∈ cs.head?, isTemporalLetter c = false)
    (hword : cs ∉ layer.keywords) : wordWeight layer cs = 0 := by
  have hkeyword : layer.keywords.contains cs = false := by simpa using hword
  rw [wordWeight, hkeyword]
  split
  · contradiction
  · split
    · rename_i hltl
      have hnone : ([] : List Char) ++ cs = cs := rfl
      rw [← hnone, (takeWhile_append_of_ends (by simp) (hcs hltl)).1]
      rfl
    · rfl

/-- Letters that are glued to what follows are counted apart from it. -/
private theorem Leaves.glued {letters : List Char}
    (h : Leaves layer none rest k) (hletters : Lettered layer (some letters))
    (hcs : ∀ c ∈ cs, isNameChar c = true)
    (hplain : layer.includes .ltl = true →
      ∀ c ∈ cs.head?, isTemporalLetter c = false) (hrest : EndsName rest) :
    Leaves layer (some letters) (cs ++ rest) (letters.length + k) := by
  obtain ⟨hltl, hne, hall⟩ := hletters letters rfl
  have hweight : wordWeight layer (letters.reverse ++ cs) = letters.length := by
    rw [wordWeight_letters hltl (by simpa using hne) (by simpa using hall)
      (hplain hltl), List.length_reverse]
  refine h.operators letters.length ?_ (List.mem_append_right cs)
  obtain ⟨span, stop, hmarks⟩ := marks_word layer hcs hrest 0 0 letters
  rw [marksFrom, modeOf, Option.elim_some, hmarks, hweight, List.map_cons,
    ← marksFrom_eq stop]

/-! ## Texts behind temporal letters -/

/-- Behind any temporal letters the text adds so many operators to them. -/
def Ready (layer : Layer) (cs : List Char) (k : Nat) : Prop :=
  ∀ word, Lettered layer word →
    Leaves layer word cs ((word.getD []).length + k)

theorem Ready.leaves (h : Ready layer cs k) : Leaves layer none cs k := by
  simpa using h none (lettered_none layer)

theorem ready_of_name (hnone : Leaves layer none (cs ++ rest) k)
    (h : Leaves layer none rest k) (hcs : ∀ c ∈ cs, isNameChar c = true)
    (hplain : layer.includes .ltl = true →
      ∀ c ∈ cs.head?, isTemporalLetter c = false)
    (hrest : EndsName rest) : Ready layer (cs ++ rest) k := by
  intro word hword
  cases word with
  | none => simpa using hnone
  | some letters => exact h.glued hword hcs hplain hrest

theorem ready_of_endsName (h : Leaves layer none cs k) (hcs : EndsName cs) :
    Ready layer cs k := by
  rw [← List.nil_append cs]
  exact ready_of_name h h (by simp) (by simp) hcs

theorem ready_nil (layer : Layer) : Ready layer [] 0 :=
  ready_of_endsName (leaves_nil layer) endsName_nil

theorem Ready.emits (h : Ready layer rest k) (hcs : Emits layer cs rest [])
    (hends : EndsName (cs ++ rest)) : Ready layer (cs ++ rest) k :=
  ready_of_endsName (h.leaves.emits hcs) hends

theorem Ready.blank (h : Ready layer rest k)
    (hcs : ∀ c ∈ cs, isBlank c = true) : Ready layer (cs ++ rest) k := by
  induction cs with
  | nil => exact h
  | cons c cs ih =>
      obtain ⟨hc, hcs⟩ := List.forall_mem_cons.mp hcs
      have hemits : Emits layer [c] (cs ++ rest) [] :=
        emits_nil.plain (plain_of_isBlank hc)
      refine (ih hcs).emits hemits ?_
      rintro _ ⟨⟩
      exact isNameChar_of_isBlank hc

theorem ready_of_skip (h : Ready layer (LayeredLogic.skip cs) k) :
    Ready layer cs k := by
  have hblank := h.blank (List.all_eq_true.mp (List.all_takeWhile (l := cs)))
  rwa [LayeredLogic.skip, List.takeWhile_append_dropWhile] at hblank

private theorem endsName_of_skip (h : LayeredLogic.skip cs = []) :
    EndsName cs := by
  intro c hc
  have hblank : ∀ x ∈ cs, isBlank x = true := List.dropWhile_eq_nil_iff.mp h
  exact isNameChar_of_isBlank (hblank c (List.mem_of_mem_head? hc))

theorem Ready.enclosed {opening close : Char} (h : Ready layer rest k)
    (hs : Enclosed opening close cs) (hopening : isNameChar opening = false)
    (hemits : ∀ inner rest : List Char, (∀ c ∈ inner, c ∉ delimiters) →
      Emits layer (opening :: (inner ++ [close])) rest []) :
    Ready layer (cs ++ rest) k := by
  obtain ⟨before, inner, after, hbefore, hinner, hafter, rfl⟩ := hs
  have hready :=
    ((h.blank hafter).emits (hemits inner _ hinner) ?_).blank hbefore
  · simpa using hready
  · rintro _ ⟨⟩
    exact hopening

theorem Ready.brackets (h : Ready layer rest k)
    (hs : Enclosed '[' ']' cs) : Ready layer (cs ++ rest) k :=
  h.enclosed hs rfl fun _ _ hinner =>
    emits_brackets fun hmem => hinner _ hmem (by decide)

theorem Ready.braces (h : Ready layer rest k)
    (hs : Enclosed '{' '}' cs) : Ready layer (cs ++ rest) k :=
  h.enclosed hs rfl fun _ _ hinner =>
    emits_braces fun hmem => hinner _ hmem (by decide)

theorem Ready.letter (h : Ready layer rest k)
    (hltl : layer.includes .ltl = true) (hc : isTemporalLetter c = true) :
    Ready layer (c :: rest) (1 + k) := by
  have hstart : isNameStart c = true ∧ isNameChar c = true := by
    simp only [isTemporalLetter, Bool.or_eq_true, beq_iff_eq] at hc
    rcases hc with ((rfl | rfl) | rfl) | rfl <;> decide
  intro word hword
  have hlettered : Lettered layer (some (c :: word.getD [])) := by
    rintro _ ⟨⟩
    refine ⟨hltl, List.cons_ne_nil _ _, List.forall_mem_cons.mpr ⟨hc, ?_⟩⟩
    cases word with
    | none => simp
    | some letters => exact (hword letters rfl).2.2
  have hmarks : marksFrom layer word (c :: rest) =
      marksFrom layer (some (c :: word.getD [])) rest := by
    cases word with
    | none => exact marksFrom_nameStart hstart.1 rest
    | some letters => exact marksFrom_word_cons letters hstart.2 rest
  obtain ⟨peak, load, hraises, hload, hexact, hflat⟩ := h _ hlettered
  have hlength : (word.getD []).length + (1 + k) =
      ((some (c :: word.getD [])).getD []).length + k := by
    simp [Nat.add_assoc]
  rw [hlength]
  refine ⟨peak, load, fun limit => ?_, hload, hexact,
    fun hmem => hflat (mt (List.mem_cons_of_mem c) hmem)⟩
  rw [hmarks]
  exact hraises limit

theorem Ready.sign (h : Ready layer rest k) (hc : c = '!' ∨ c = '~') :
    Ready layer (c :: rest) (1 + k) := by
  have hmark : Emits layer [c] rest [.operators 1] := by
    rcases hc with rfl | rfl <;> exact emits_char rfl (by decide) rest
  have hends : EndsName (c :: rest) := by
    rintro _ ⟨⟩
    rcases hc with rfl | rfl <;> rfl
  exact ready_of_endsName
    (h.leaves.operators 1 hmark.marksFrom_append (List.mem_cons_of_mem c)) hends

/-- A keyword that is glued to temporal letters is not counted at all. -/
theorem Ready.keyword (h : Ready layer rest k) (hcs : cs ∈ layer.keywords)
    (hidentifier : isIdentifier cs = true) (hrest : EndsName rest) :
    Ready layer (cs ++ rest) (1 + k) := by
  have hweight : wordWeight layer cs = 1 :=
    if_pos (List.contains_iff_mem.mpr hcs)
  have hwords : layer.keywords ≠ [] := List.ne_nil_of_mem hcs
  have hword : Emits layer cs rest [.operators 1] := by
    rw [← hweight]
    exact emits_word hidentifier hrest
  have hnone : Leaves layer none (cs ++ rest) (1 + k) :=
    h.leaves.operators 1 hword.marksFrom_append (List.mem_append_right cs)
  exact ready_of_name hnone (h.leaves.mono (by omega) hwords)
    (isNameChar_of_isIdentifier hidentifier)
    (fun _ => not_isTemporalLetter_of_keyword layer cs hcs) hrest

theorem Ready.name (h : Ready layer rest k) (hcs : cs ∉ layer.keywords)
    (hidentifier : isIdentifier cs = true)
    (hplain : layer.includes .ltl = true →
      ∀ c ∈ cs.head?, isTemporalLetter c = false)
    (hrest : EndsName rest) : Ready layer (cs ++ rest) k := by
  have hword : Emits layer cs rest [.operators 0] := by
    rw [← wordWeight_plain hplain hcs]
    exact emits_word hidentifier hrest
  have hnone : Leaves layer none (cs ++ rest) (0 + k) :=
    h.leaves.operators 0 hword.marksFrom_append (List.mem_append_right cs)
  rw [Nat.zero_add] at hnone
  exact ready_of_name hnone h.leaves (isNameChar_of_isIdentifier hidentifier)
    hplain hrest

theorem Ready.digits (h : Ready layer rest k)
    (hcs : ∀ c ∈ cs, c.isDigit = true) (hrest : EndsName rest) :
    Ready layer (cs ++ rest) k := by
  have hemits : ∀ ds : List Char, (∀ c ∈ ds, c.isDigit = true) →
      Emits layer ds rest [] := by
    intro ds hds
    induction ds with
    | nil => exact emits_nil
    | cons d ds ih =>
        obtain ⟨hd, hds⟩ := List.forall_mem_cons.mp hds
        exact (ih hds).plain (plain_of_isDigit hd)
  have hname : ∀ c ∈ cs, isNameChar c = true := by
    intro c hc
    simp [isNameChar, Char.isAlphanum, hcs c hc]
  have hplain : ∀ c ∈ cs.head?, isTemporalLetter c = false := by
    intro c hc
    have hdigit := hcs c (List.mem_of_mem_head? hc)
    by_contra hletter
    simp only [isTemporalLetter, Bool.not_eq_false, Bool.or_eq_true,
      beq_iff_eq] at hletter
    rcases hletter with ((rfl | rfl) | rfl) | rfl <;> cases hdigit
  exact ready_of_name (h.leaves.emits (hemits cs hcs)) h.leaves hname
    (fun _ => hplain) hrest

theorem Ready.group (h : Ready layer rest k) (hcs : Balanced layer cs) :
    Ready layer ('(' :: (cs ++ ')' :: rest)) k := by
  obtain ⟨peak, load, hraises, hload, hexact, -⟩ := h.leaves
  obtain ⟨ms, height, hms, hmarks⟩ := hcs.marksFrom_group
  have hjoined : ∀ limit, Raises limit
      (marksFrom layer none ('(' :: (cs ++ ')' :: rest)))
      (max height (0 + peak)) (0 + load) := by
    intro limit
    rw [hmarks rest]
    exact (hms limit).append (hraises limit)
  rw [Nat.zero_add load] at hjoined
  have hopening : '(' ∈ '(' :: (cs ++ ')' :: rest) := List.mem_cons_self
  refine ready_of_endsName
    ⟨_, load, hjoined, hload, hexact, fun hmem => absurd hopening hmem⟩ ?_
  rintro _ ⟨⟩
  rfl

end Nesting

/-! ## Readers of operands -/

private theorem Cursor.exists_in (c : Cursor) : ∃ source, c.In source := by
  refine ⟨String.ofList (List.replicate c.offset 'a' ++ c.rest),
    List.replicate c.offset 'a', String.toList_ofList, ?_⟩
  induction c.offset with
  | zero => rfl
  | succ n ih =>
      rw [List.replicate_succ, bytes, ← ih]
      exact Nat.add_comm n 1

private theorem Cursor.In.offset_lt {source : String} {c c' : Cursor}
    {taken : List Char} (h : c.In source) (h' : c'.In source)
    (hrest : c.rest = taken ++ c'.rest) (hne : taken ≠ []) :
    c.offset < c'.offset := by
  obtain ⟨before, hsource, hoffset⟩ := h
  obtain ⟨before', hsource', hoffset'⟩ := h'
  have hbefore : before' = before ++ taken := by
    rw [hrest, ← List.append_assoc] at hsource
    exact List.append_cancel_right (hsource'.symm.trans hsource)
  have hbytes : bytes taken ≠ 0 := mt eq_nil_of_bytes_eq_zero hne
  rw [hoffset, hoffset', hbefore, bytes_append]
  omega

namespace Reader

open Nesting

variable {α β : Type} {layer : Layer} {p : Reader α} {f : α → Reader β}
  {T : List Char → Prop} {op : Reader Tree} {c c' : Cursor} {t : Tree}
  {m n : Nat}

private theorem stop_lt_of_parenthesized
    (h : result? (parenthesized (formula layer (operand layer n))) c =
      some (t, c')) : t.span.stop < c'.offset := by
  obtain ⟨first, middle, hopening, ht, hclosing⟩ :=
    result?_parenthesized_eq_some h
  obtain ⟨source, hfirst⟩ := first.exists_in
  have hplants : Plants source (formula layer (operand layer n)) :=
    (plants_operand layer n).formula
  obtain ⟨hmiddle, hrow⟩ := hplants [] first.offset first t middle ht hfirst
    (.nil (Nat.le_refl _))
  have hstop : t.span.stop ≤ middle.offset :=
    ((Part.inOrder_singleton_iff.mp hrow).inside t.span rfl).2
  obtain ⟨hlast, -⟩ := silent_symbol [')'] [] middle.offset middle () c'
    hclosing hmiddle (.nil (Nat.le_refl _))
  obtain ⟨taken, hne, hrest⟩ := shortens_symbol ')' [] middle () c' hclosing
  have hlt := hmiddle.offset_lt hlast hrest hne
  omega

def Adds (layer : Layer) (n : Nat) (p : Reader α) : Prop :=
  Tells p fun c _ c' =>
    ∀ k, Ready layer c'.rest k → Ready layer c.rest (n + k)

theorem adds_of_consumes (h : Consumes T p)
    (hT : ∀ s rest k, T s → Ready layer rest k →
      Ready layer (s ++ rest) (n + k)) : Adds layer n p := by
  intro c a c' hresult k hready
  obtain ⟨taken, htaken, hrest⟩ := h c a c' hresult
  rw [hrest]
  exact hT taken c'.rest k htaken hready

private theorem adds_zero_of_consumes (h : Consumes T p)
    (hT : ∀ s rest k, T s → Ready layer rest k → Ready layer (s ++ rest) k) :
    Adds layer 0 p := by
  refine adds_of_consumes h fun s rest k hs hready => ?_
  rw [Nat.zero_add]
  exact hT s rest k hs hready

theorem Adds.optional (h : Adds layer 0 p) : Adds layer 0 (optional p) := by
  intro c a c' hresult k hready
  rw [result?_optional] at hresult
  split at hresult
  · rename_i b after hb
    cases hresult
    exact h c b c' hb k hready
  · cases hresult
    rwa [Nat.zero_add]

theorem adds_letter {letter : Char} (hltl : layer.includes .ltl = true)
    (hletter : isTemporalLetter letter = true) :
    Adds layer 1 (symbol [letter]) := by
  refine adds_of_consumes (consumes_symbol [letter]) ?_
  rintro _ rest k ⟨before, after, hblank, rfl⟩ hready
  obtain ⟨hbefore, hafter⟩ := List.forall_mem_append.mp hblank
  have hall := ((hready.blank hafter).letter hltl hletter).blank hbefore
  simpa using hall

private theorem adds_negation :
    Adds layer 1 (padded (satisfy fun c => c == '!' || c == '~')) := by
  intro c x c' hresult k hready
  obtain ⟨before, after, hbefore, hx, hafter⟩ := result?_padded_eq_some hresult
  obtain ⟨hrest, hsign⟩ := result?_satisfy_eq_some hx
  have hsign : x = '!' ∨ x = '~' := by simpa using hsign
  rw [hafter] at hready
  have hbehind := (ready_of_skip hready).sign hsign
  rw [← hrest, hbefore] at hbehind
  exact ready_of_skip hbehind

theorem adds_keyword {word : List Char} (hword : word ∈ layer.keywords) :
    Adds layer 1 (keyword word) := by
  intro c u c' hresult k hready
  obtain ⟨found, middle, hfound, hresult⟩ := result?_bind_eq_some_iff.mp hresult
  obtain ⟨-, rfl⟩ := result?_pure_eq_some_iff.mp hresult
  obtain ⟨before, after, hbefore, hfound, hafter⟩ :=
    result?_padded_eq_some hfound
  obtain ⟨hfound, heq⟩ := result?_check_eq_some_iff.mp hfound
  obtain ⟨hrest, hidentifier, hends⟩ := result?_identifier_eq_some hfound
  obtain rfl := eq_of_beq heq
  rw [hafter] at hready
  have hbehind := (ready_of_skip hready).keyword hword hidentifier hends
  rw [← hrest, hbefore] at hbehind
  exact ready_of_skip hbehind

theorem adds_interval : Adds layer 0 interval :=
  adds_zero_of_consumes consumes_interval fun _ _ _ hs hready =>
    hready.brackets hs

private theorem adds_steps : Adds layer 0 steps :=
  adds_zero_of_consumes consumes_steps fun _ _ _ hs hready => hready.brackets hs

private theorem adds_graphList : Adds layer 0 graphList :=
  adds_zero_of_consumes consumes_graphList fun _ _ _ hs hready =>
    hready.braces hs

def EndsIn (layer : Layer) (n : Nat) (op : Reader Tree)
    (p : Reader (List Part)) : Prop :=
  Tells p fun c parts c' => ∃ front u middle, parts = front ++ [.tree u] ∧
    result? op middle = some (u, c') ∧
    ∀ k, Ready layer middle.rest k → Ready layer c.rest (n + k)

theorem endsIn_operand (front : List Part) :
    EndsIn layer 0 op (do return front ++ [.tree (← op)]) := by
  intro c parts c' hresult
  obtain ⟨u, last, hu, hresult⟩ := result?_bind_eq_some_iff.mp hresult
  obtain ⟨rfl, rfl⟩ := result?_pure_eq_some_iff.mp hresult
  refine ⟨front, u, c, rfl, hu, fun k hready => ?_⟩
  rwa [Nat.zero_add]

theorem Adds.endsIn {f : α → Reader (List Part)} (h : Adds layer n p)
    (hf : ∀ a, EndsIn layer m op (f a)) :
    EndsIn layer (n + m) op (p >>= f) := by
  intro c parts c' hresult
  obtain ⟨a, after, ha, hresult⟩ := result?_bind_eq_some_iff.mp hresult
  obtain ⟨front, u, middle, hparts, hu, hready⟩ :=
    hf a after parts c' hresult
  refine ⟨front, u, middle, hparts, hu, fun k hk => ?_⟩
  rw [Nat.add_assoc]
  exact h c a after ha _ (hready k hk)

def Heads (layer : Layer) (op p : Reader Tree) : Prop :=
  Tells p fun c t c' => ∃ rule ∈ Rule.prefixes, ∃ front u middle,
    t = .node rule.name (front ++ [.tree u]) ⟨c.offset, c'.offset⟩ ∧
    result? op middle = some (u, c') ∧
    ∀ k, Ready layer middle.rest k → Ready layer c.rest (1 + k)

theorem EndsIn.heads {rule : Rule} {parts : Reader (List Part)}
    (hrule : rule ∈ Rule.prefixes) (h : EndsIn layer 1 op parts) :
    Heads layer op (node rule parts) := by
  intro c t c' hresult
  obtain ⟨⟨found, span⟩, last, hfound, hresult⟩ :=
    result?_bind_eq_some_iff.mp hresult
  obtain ⟨rfl, rfl⟩ := result?_pure_eq_some_iff.mp hresult
  rw [result?_located, Option.map_eq_some_iff] at hfound
  obtain ⟨⟨found, last⟩, hfound, heq⟩ := hfound
  cases heq
  obtain ⟨front, u, middle, rfl, hu, hready⟩ := h c found _ hfound
  exact ⟨rule, hrule, front, u, middle, rfl, hu, hready⟩

theorem heads_bounded {rule : Rule} {operator : Reader Unit}
    (hrule : rule ∈ Rule.prefixes) (h : Adds layer 1 operator) :
    Heads layer op (bounded rule operator op) :=
  EndsIn.heads hrule <| h.endsIn fun _ => adds_interval.optional.endsIn
    fun bounds => endsIn_operand [.ofTree? bounds]

theorem heads_graph {rule : Rule} {word : List Char}
    (hrule : rule ∈ Rule.prefixes) (hword : word ∈ layer.keywords) :
    Heads layer op (graph rule word op) :=
  EndsIn.heads hrule <| (adds_keyword hword).endsIn fun _ =>
    adds_graphList.endsIn fun labels => adds_interval.optional.endsIn
      fun edges => endsIn_operand [.tree labels, .ofTree? edges]

private theorem heads_prefixed : ∀ p ∈ prefixed layer op, Heads layer op p := by
  have hnegation : Heads layer op (negation op) :=
    EndsIn.heads (by decide) <| adds_negation.endsIn fun _ => endsIn_operand []
  refine forall_mem_prefixed hnegation (fun hltl => ⟨?_, ?_, ?_⟩)
    (fun hstrel => ?_) fun hgraph => ?_
  · exact EndsIn.heads (by decide) <| (adds_letter hltl rfl).endsIn fun _ =>
      adds_steps.optional.endsIn fun count => endsIn_operand [.ofToken? count]
  · exact heads_bounded (by decide) (adds_letter hltl rfl)
  · exact heads_bounded (by decide) (adds_letter hltl rfl)
  · obtain rfl := eq_strel_of_includes hstrel
    exact ⟨heads_bounded (by decide) (adds_keyword (by decide)),
      heads_bounded (by decide) (adds_keyword (by decide)),
      heads_bounded (by decide) (adds_keyword (by decide))⟩
  · obtain rfl := eq_stlGo_of_includes hgraph
    exact ⟨heads_graph (by decide) (by decide),
      heads_graph (by decide) (by decide)⟩

def Idle (layer : Layer) (lexeme : Reader (List Char)) : Prop :=
  Tells lexeme fun c cs c' => LayeredLogic.skip c'.rest = [] →
    (layer.includes .ltl = true →
      ∀ x ∈ cs.head?, isTemporalLetter x = false) →
    Ready layer c.rest 0

theorem idle_word {ok : List Char → Bool}
    (hok : ∀ word, ok word = true → word ∉ layer.keywords) :
    Idle layer (check identifier ok) := by
  intro c word c' hresult hend hplain
  obtain ⟨hword, hfree⟩ := result?_check_eq_some_iff.mp hresult
  obtain ⟨hrest, hidentifier, hends⟩ := result?_identifier_eq_some hword
  have hbehind : Ready layer c'.rest 0 := ready_of_skip (hend ▸ ready_nil layer)
  rw [hrest]
  exact hbehind.name (hok word hfree) hidentifier hplain hends

private theorem idle_digits {ok : List Char → Bool} :
    Idle layer (check digits ok) := by
  intro c ds c' hresult hend _
  obtain ⟨hrest, -, hdigits⟩ :=
    result?_digits_eq_some (result?_check_eq_some_iff.mp hresult).1
  have hbehind : Ready layer c'.rest 0 := ready_of_skip (hend ▸ ready_nil layer)
  rw [hrest]
  exact hbehind.digits hdigits (endsName_of_skip hend)

private theorem idle_quoted : Idle layer quoted := by
  intro c word c' hresult hend _
  obtain ⟨hrest, items, rfl, hitems⟩ := result?_quoted_eq_some hresult
  have hbehind : Ready layer c'.rest 0 := ready_of_skip (hend ▸ ready_nil layer)
  rw [hrest]
  refine hbehind.emits (emits_quoted hitems c'.rest) ?_
  rintro _ ⟨⟩
  rfl

/-- What the reader takes adds as many operators as its tree has prefix
operators, if it ends the text. -/
def Answers (layer : Layer) (p : Reader Tree) : Prop :=
  Tells p fun c t c' => c'.rest = [] →
    (layer.includes .ltl = true → t.EndsPlain c'.offset) →
    Ready layer c.rest (t.prefixes c'.offset)

theorem answers_leaf {rule : Rule} {q : Reader Token}
    (hrule : rule ∉ Rule.prefixes)
    (h : Tells q fun c x c' => c'.rest = [] →
      (layer.includes .ltl = true → (Part.token x).startsTemporal = false) →
      Ready layer c.rest 0) :
    Answers layer (do
      let (x, span) ← located q
      return .node rule.name [.token x] span) := by
  intro c t c' hresult hend hplain
  obtain ⟨⟨x, span⟩, last, hx, hresult⟩ := result?_bind_eq_some_iff.mp hresult
  obtain ⟨rfl, rfl⟩ := result?_pure_eq_some_iff.mp hresult
  rw [result?_located, Option.map_eq_some_iff] at hx
  obtain ⟨⟨x, last⟩, hx, heq⟩ := hx
  cases heq
  rw [Tree.prefixes_leaf hrule]
  refine h c x c' hx hend fun hltl => ?_
  have hedge := hplain hltl
  rw [Tree.EndsPlain, Tree.edge_leaf, List.forall_mem_singleton] at hedge
  exact hedge _ List.mem_cons_self

theorem Idle.token {lexeme : Reader (List Char)} (h : Idle layer lexeme)
    (kind : TokenKind) :
    Tells (token kind lexeme) fun c x c' => c'.rest = [] →
      (layer.includes .ltl = true → (Part.token x).startsTemporal = false) →
      Ready layer c.rest 0 := by
  intro c x c' hresult hend hplain
  obtain ⟨before, after, cs, hbefore, hlexeme, hafter, -, htext⟩ :=
    result?_token_eq_some hresult
  rw [hafter] at hend
  have hready := h before cs after hlexeme hend fun hltl y hy => by
    have hhead := hplain hltl
    rw [Part.startsTemporal, htext, String.toList_ofList, Option.any_eq_false]
      at hhead
    simpa using hhead y hy
  rw [hbefore] at hready
  exact ready_of_skip hready

private theorem answers_literalAtom : Answers layer literalAtom := by
  have hword : ∀ word, literalWords.contains word = true →
      word ∉ layer.keywords := by
    intro word hword
    rw [List.contains_iff_mem] at hword
    revert word
    cases layer <;> decide
  exact answers_leaf (by decide) (Idle.token
    (Tells.orElse (idle_word hword) idle_digits) .literal)

private theorem answers_variableAtom : Answers layer (variableAtom layer) := by
  have hfree : ∀ word, (!layer.reserves word) = true →
      word ∉ layer.keywords := by
    intro word hword
    rw [Bool.not_eq_true'] at hword
    exact (Layer.not_mem_of_reserves_eq_false hword).2
  exact answers_leaf (by decide)
    (Tells.orElse ((idle_word hfree).token .name) (idle_quoted.token .quoted))

private theorem answers_parenthesized :
    Answers layer (parenthesized (formula layer (operand layer n))) := by
  intro c t c' hresult hend _
  have hstop := stop_lt_of_parenthesized hresult
  rw [Tree.prefixes, Tree.edge_of_stop_lt hstop, List.countP_nil]
  obtain ⟨first, middle, hopening, ht, hclosing⟩ :=
    result?_parenthesized_eq_some hresult
  have hlayout := layout_balanced layer
  obtain ⟨s, hs, hfirst⟩ :=
    hlayout.formula (hlayout.operand n) first t middle ht
  obtain ⟨_, ⟨before, after, hblank, rfl⟩, hc⟩ :=
    consumes_symbol ['('] c () first hopening
  obtain ⟨_, ⟨before', after', hblank', rfl⟩, hmiddle⟩ :=
    consumes_symbol [')'] middle () c' hclosing
  obtain ⟨hbefore, hafter⟩ := List.forall_mem_append.mp hblank
  obtain ⟨hbefore', hafter'⟩ := List.forall_mem_append.mp hblank'
  have hinner : Balanced layer (after ++ s ++ before') :=
    hlayout.append (hlayout.append (hlayout.blank hafter) hs)
      (hlayout.blank hbefore')
  have hready := (((ready_nil layer).blank hafter').group hinner).blank hbefore
  rw [hc, hfirst, hmiddle, hend]
  simpa using hready

private theorem Heads.answers {p : Reader Tree} (h : Heads layer op p)
    (hop : Answers layer op) : Answers layer p := by
  intro c t c' hresult hend hplain
  obtain ⟨rule, hrule, front, u, middle, rfl, hu, hready⟩ :=
    h c t c' hresult
  rw [Tree.prefixes_node hrule]
  refine hready _ (hop middle u c' hu hend fun hltl => ?_)
  have hedge := hplain hltl
  rw [Tree.EndsPlain, Tree.edge_node, List.forall_mem_cons] at hedge
  exact hedge.2

private theorem answers_operand (layer : Layer) (n : Nat) :
    Answers layer (operand layer n) := by
  induction n with
  | zero => rintro c t c' ⟨⟩
  | succ n ih =>
      apply tells_firstOf
      intro p hp
      simp only [List.cons_append, List.mem_cons, List.mem_append,
        List.not_mem_nil, or_false] at hp
      rcases hp with rfl | hp | rfl | rfl
      · exact answers_literalAtom
      · exact (heads_prefixed p hp).answers ih
      · exact answers_parenthesized
      · exact answers_variableAtom

/-! ## Whole texts -/

theorem result?_level_alone {sign : List Char} {group : Tree → List Tree → Tree}
    {stop : Nat} (h : result? op c = some (t, ⟨stop, []⟩)) :
    result? (level sign group op) c = some (group t [], ⟨stop, []⟩) := by
  refine result?_bind_eq_some_iff.mpr ⟨(t, []), _, ?_, rfl⟩
  exact result?_bind_eq_some_iff.mpr ⟨t, _, h, rfl⟩

private theorem result?_formula_alone {stop : Nat}
    (h : result? op c = some (t, ⟨stop, []⟩)) :
    result? (formula layer op) c = some (t, ⟨stop, []⟩) := by
  have hmodal : result? (modal layer op) c = some (t, ⟨stop, []⟩) := by
    unfold modal
    split
    · exact result?_bind_eq_some_iff.mpr ⟨t, _, h, rfl⟩
    · exact h
  exact result?_level_alone <| result?_level_alone <| result?_level_alone <|
    result?_level_alone <| result?_level_alone hmodal

end Reader

namespace Tree

open Nesting

variable {layer : Layer} {k : Junction} {texts : List String}
  {source : String} {t : Tree} {n stop : Nat}

theorem result?_of_operand? (h : operand? layer source = some (t, stop)) :
    (Reader.sole layer source).result? (.ofText source.toList) =
      some (t, ⟨stop, []⟩) := by
  unfold operand? at h
  split at h
  · rename_i hresult
    cases h
    exact hresult
  · cases h

private theorem parse_of_operand? (h : operand? layer source = some (t, stop))
    (hnesting : excess? layer source.toList = none) :
    Tree.parse layer source = .ok t := by
  refine parse_eq_ok_iff.mpr ⟨hnesting, ⟨stop, []⟩, ?_⟩
  obtain ⟨blank, before, hblank, ht⟩ :=
    Reader.result?_bind_eq_some_iff.mp (result?_of_operand? h)
  have hformula : Reader.result? (Reader.formula layer
      (Reader.operand layer (source.toList.length + 1))) before = _ :=
    Reader.result?_formula_alone ht
  rw [Reader.result?_sentence]
  refine Reader.result?_bind_eq_some_iff.mpr ⟨t, ⟨stop, []⟩, ?_, rfl⟩
  refine Reader.result?_bind_eq_some_iff.mpr ⟨blank, before, hblank, ?_⟩
  exact Reader.result?_bind_eq_some_iff.mpr ⟨t, _, hformula, rfl⟩

theorem isOperand_iff : IsOperand layer source ↔
    excess? layer source.toList = none ∧ ∃ r ∈ operand? layer source,
      (layer.includes .ltl = true → r.1.EndsPlain r.2) := by
  constructor
  · rintro ⟨t, stop, hparse, hoperand, hplain⟩
    exact ⟨(parse_eq_ok_iff.mp hparse).1, (t, stop), hoperand, hplain⟩
  · rintro ⟨hnesting, ⟨t, stop⟩, hoperand, hplain⟩
    exact ⟨t, stop, parse_of_operand? hoperand hnesting, hoperand, hplain⟩

instance (stop : Nat) (t : Tree) : Decidable (t.EndsPlain stop) :=
  inferInstanceAs (Decidable (∀ u ∈ t.edge stop, ∀ part ∈ u.parts,
    part.startsTemporal = false))

instance (layer : Layer) (source : String) :
    Decidable (IsOperand layer source) :=
  have : Decidable (∃ r ∈ operand? layer source,
      (layer.includes .ltl = true → r.1.EndsPlain r.2)) :=
    Option.decidableExistsMem _
  decidable_of_iff _ isOperand_iff.symm

theorem IsOperand.scan (h : IsOperand layer source) :
    loadOf layer source ≤ prefixesOf layer source ∧
      (layer.keywords = [] → loadOf layer source = prefixesOf layer source) ∧
      ('(' ∉ source.toList → peakOf layer source = loadOf layer source) := by
  obtain ⟨t, stop, -, hoperand, hplain⟩ := h
  obtain ⟨blank, before, hblank, ht⟩ :=
    Reader.result?_bind_eq_some_iff.mp (result?_of_operand? hoperand)
  cases hblank
  have hready : Ready layer (skip source.toList) (t.prefixes stop) :=
    Reader.answers_operand layer _ _ t _ ht rfl hplain
  obtain ⟨peak, load, hraises, hload, hexact, hflat⟩ :=
    (ready_of_skip hready).leaves
  have hprefixes : prefixesOf layer source = t.prefixes stop := by
    rw [prefixesOf, hoperand]
    rfl
  have hpeak : peakOf layer source = peak := highest_of_raises hraises
  have hdepth : loadOf layer source = load := depth_of_raises hraises
  rw [hprefixes, hpeak, hdepth]
  exact ⟨hload, hexact, hflat⟩

theorem tooDeep_negated_iff (h : Balanced layer source.toList) (n : Nat) :
    TooDeep layer (negated n source) ↔
    maxNesting < n + peakOf layer source := by
  have hraises : Raises maxNesting
      (marksFrom layer none (List.replicate n '!' ++ source.toList))
      (n + peakOf layer source) (n + loadOf layer source) := by
    induction n with
    | zero =>
        rw [Nat.zero_add, Nat.zero_add]
        exact h.raises_source
    | succ n ih =>
        have hsign : ∀ rest, Emits layer ['!'] rest [.operators 1] :=
          emits_char rfl (by decide)
        have hmarks :=
          (hsign (List.replicate n '!' ++ source.toList)).marksFrom_append
        rw [List.singleton_append] at hmarks
        rw [List.replicate_succ, List.cons_append, hmarks, Nat.add_comm n 1,
          Nat.add_assoc, Nat.add_assoc]
        exact ih.operators 1
  have hclears := hraises.clears_iff ⟨0, []⟩ (Nat.zero_le _) []
  have htext : (negated n source).toList =
      List.replicate n '!' ++ source.toList := by
    rw [negated, String.toList_append, String.toList_ofList]
  rw [List.append_nil] at hclears
  rw [TooDeep, parse_eq_tooDeep_iff, ne_eq, excess?_eq_none_iff_clears, htext,
    hclears]
  simp [Clears, Levels.depth]

theorem IsOperand.read (h : IsOperand layer source) :
    ∃ t, Tree.parse layer source = .ok t := by
  obtain ⟨t, stop, hparse, -⟩ := h
  exact ⟨t, hparse⟩

private theorem IsOperand.peakOf_le (h : IsOperand layer source) :
    peakOf layer source ≤ maxNesting := by
  rw [peakOf, ← clears_iff_highest_le (Nat.zero_le _)]
  exact (excess?_eq_none_iff_clears _).mp (isOperand_iff.mp h).1

theorem negated_of_joined (h : ∀ s ∈ texts, IsOperand layer s)
    (hdeep : TooDeep layer (k.separator.intercalate texts)) :
    ∃ before s after, texts = before ++ s :: after ∧
      TooDeep layer (negated (before.map (prefixesOf layer)).sum s) := by
  obtain ⟨before, s, after, rfl, hlt⟩ :=
    (tooDeep_joined_iff fun s hs => (h s hs).read).mp hdeep
  have hs : IsOperand layer s := h s (by simp)
  have hsum : (before.map (loadOf layer)).sum ≤
      (before.map (prefixesOf layer)).sum :=
    List.sum_le_sum fun u hu => (h u (List.mem_append_left _ hu)).scan.1
  refine ⟨before, s, after, rfl, ?_⟩
  rw [tooDeep_negated_iff (balanced_of_parse hs.read)]
  omega

private theorem joined_of_negated (h : ∀ s ∈ texts, IsOperand layer s)
    (hkeywords : layer.keywords = []) {before after : List String} {s : String}
    (htexts : texts = before ++ s :: after)
    (hdeep : TooDeep layer (negated (before.map (prefixesOf layer)).sum s)) :
    TooDeep layer (k.separator.intercalate texts) := by
  have hs : IsOperand layer s := h s (by simp [htexts])
  have hsum : before.map (loadOf layer) = before.map (prefixesOf layer) :=
    List.map_congr_left fun u hu =>
      (h u (by simp [htexts, hu])).scan.2.1 hkeywords
  rw [tooDeep_negated_iff (balanced_of_parse hs.read), ← hsum] at hdeep
  exact (tooDeep_joined_iff fun s hs => (h s hs).read).mpr
    ⟨before, s, after, htexts, hdeep⟩

/-- An operand of a chain is refused for its nesting only if it is refused alone
behind one negation for every prefix operator of the operands before it, and
without keywords just then.  Operands without groups are refused only for more
prefix operators than the limit, and operands without prefix operators never,
however many they are. -/
theorem parse_joined (h : ∀ s ∈ texts, IsOperand layer s) :
    (TooDeep layer (k.separator.intercalate texts) →
      ∃ before s after, texts = before ++ s :: after ∧
        TooDeep layer (negated (before.map (prefixesOf layer)).sum s)) ∧
    (layer.keywords = [] → ∀ before s after, texts = before ++ s :: after →
      TooDeep layer (negated (before.map (prefixesOf layer)).sum s) →
      TooDeep layer (k.separator.intercalate texts)) ∧
    ((∀ s ∈ texts, '(' ∉ s.toList) →
      (texts.map (prefixesOf layer)).sum ≤ maxNesting →
      ¬ TooDeep layer (k.separator.intercalate texts)) ∧
    ((∀ s ∈ texts, prefixesOf layer s = 0) →
      ¬ TooDeep layer (k.separator.intercalate texts)) := by
  refine ⟨negated_of_joined h, ?_, ?_, ?_⟩
  · intro hkeywords before s after htexts hdeep
    exact joined_of_negated h hkeywords htexts hdeep
  · intro hgroups hsum hdeep
    obtain ⟨before, s, after, rfl, halone⟩ := negated_of_joined h hdeep
    have hs : IsOperand layer s := h s (by simp)
    obtain ⟨hload, -, hpeak⟩ := hs.scan
    have hflat := hpeak (hgroups s (by simp))
    rw [tooDeep_negated_iff (balanced_of_parse hs.read)] at halone
    rw [List.map_append, List.map_cons, List.sum_append, List.sum_cons] at hsum
    omega
  · intro hnone hdeep
    obtain ⟨before, s, after, rfl, halone⟩ := negated_of_joined h hdeep
    have hs : IsOperand layer s := h s (by simp)
    have hpeak := hs.peakOf_le
    have hsum : (before.map (prefixesOf layer)).sum = 0 := by
      rw [List.sum_eq_zero_iff_forall_eq_nat, List.forall_mem_map]
      exact fun u hu => hnone u (List.mem_append_left _ hu)
    rw [tooDeep_negated_iff (balanced_of_parse hs.read)] at halone
    omega

/-- The word `GFXp` counts for three operators and the quoted name for none. -/
theorem parse_joined_glued :
    (∀ s ∈ ["!a", "GFXp", "\"Xa & b\"", "F[0,5] ! q", "1"],
      IsOperand .ltl s) ∧
    ["!a", "GFXp", "\"Xa & b\"", "F[0,5] ! q", "1"].map (prefixesOf .ltl) =
      [1, 3, 0, 2, 0] ∧
    ¬ TooDeep .ltl
      (" & ".intercalate ["!a", "GFXp", "\"Xa & b\"", "F[0,5] ! q", "1"]) := by
  have hoperands : ∀ s ∈ ["!a", "GFXp", "\"Xa & b\"", "F[0,5] ! q", "1"],
      IsOperand .ltl s := by decide +kernel
  have hprefixes : ["!a", "GFXp", "\"Xa & b\"", "F[0,5] ! q", "1"].map
      (prefixesOf .ltl) = [1, 3, 0, 2, 0] := by decide +kernel
  refine ⟨hoperands, hprefixes,
    (parse_joined (k := .and) hoperands).2.2.1 (by decide +kernel) ?_⟩
  rw [hprefixes]
  decide

/-- A long chain of negated names is refused, although each of them is read and
is a negation. -/
theorem tooDeep_negations :
    (∀ s ∈ List.replicate 257 "!a",
      ∃ t, Tree.parse .base s = .ok t ∧ t.rule = Rule.negation.name) ∧
    ∃ d, Tree.parse .base (" & ".intercalate (List.replicate 257 "!a")) =
      .error (.tooDeep d) := by
  have hoperand : ∀ s ∈ List.replicate 257 "!a",
      ∃ t, Tree.parse .base s = .ok t ∧ t.rule = Rule.negation.name := by
    intro s hs
    rw [List.eq_of_mem_replicate hs]
    have hroot :
        (Tree.parse .base "!a").toOption.any (·.rule == Rule.negation.name) =
          true := by
      decide +kernel
    obtain ⟨t, ht, hrule⟩ := exists_parse_of_any hroot
    exact ⟨t, ht, eq_of_beq hrule⟩
  have hread :
      ∀ s ∈ List.replicate 257 "!a", ∃ t, Tree.parse .base s = .ok t := by
    intro s hs
    obtain ⟨t, ht, -⟩ := hoperand s hs
    exact ⟨t, ht⟩
  have hload : loadOf .base "!a" = 1 := by decide +kernel
  have hpeak : peakOf .base "!a" = 1 := by decide +kernel
  refine ⟨hoperand, (tooDeep_joined_iff (k := .and) hread).mpr ?_⟩
  refine ⟨List.replicate 256 "!a", "!a", [], List.replicate_succ', ?_⟩
  rw [List.map_replicate, hload, hpeak, List.sum_replicate_nat]
  decide

end Tree

end LayeredLogic
