import LayeredLogic.Proofs.Group

/-!
# Precedence and grouping

Operands in parentheses with operators between them, in a layer with the
temporal operators.  What tree such a row has is said without a grammar: the row
is split at the loosest operator, the parts at the next one, and so on down to
the runs of binary modalities.  The grammar reads every row to that tree.
-/

namespace LayeredLogic

/-- A text that is read as an interval to its end. -/
structure IntervalText where
  chars : List Char
  tree : Tree
  reads : ∃ c, Reader.result? Reader.interval (.ofText chars) = some (tree, c) ∧
    c.rest = []

def IntervalText.charsOf : Option IntervalText → List Char
  | some i => i.chars
  | none => []

theorem skip_append_of_mem {c : Char} {cs : List Char} (h : c ∈ skip cs)
    (rest : List Char) : skip (cs ++ rest) = skip cs ++ rest := by
  have happend : skip (cs ++ rest) = _ := List.dropWhile_append
  rw [happend, if_neg]
  · rfl
  · rw [List.isEmpty_iff]
    exact List.ne_nil_of_mem h

private theorem skip_append_of_nil {cs : List Char} (h : skip cs = [])
    (rest : List Char) : skip (cs ++ rest) = skip rest := by
  have happend : skip (cs ++ rest) = _ := List.dropWhile_append
  rw [happend, ← skip, h]
  rfl

private theorem lexing_of_bracket (frame : Frame) :
    Lexing frame fun _ cs => ']' ∈ cs where
  weaken _ h := h
  run hok := by
    apply Reader.mirrors_run
    · exact fun cs hcs => .inl ⟨']', hcs, hok.2.2.2⟩
    · intro s cs hcs hs
      refine (List.mem_append.mp hcs).resolve_left fun hmem => ?_
      exact absurd (hs _ hmem) (by simp [hok.2.2.2])
  satisfy hok := by
    apply Reader.mirrors_satisfy
    · rintro ⟨⟩
    · intro x cs hcs hx
      refine (List.mem_cons.mp hcs).resolve_left ?_
      rintro rfl
      exact absurd hx (by simp [hok.2.2.2])

namespace Outline

def modal (rule : Rule) (lhs : Outline) (bounds : Option Outline)
    (rhs : Outline) : Outline :=
  node rule.name [lhs, bounds.getD absent, rhs]

end Outline

namespace Tree

private theorem outline_modal (rule : Rule) (t : Tree) (bounds : Option Tree)
    (u : Tree) :
    (modal rule t bounds u).outline =
      .modal rule t.outline (bounds.map outline) u.outline := by
  cases bounds <;>
    simp only [modal, Part.ofTree?, outline, outlineOfParts] <;> rfl

theorem outlineOfParts_cons (part : Part) (parts : List Part) :
    outlineOfParts (part :: parts) =
      outlineOfParts [part] ++ outlineOfParts parts := by
  cases part <;> rfl

end Tree

namespace Reader

variable {c c' : Cursor} {rest : List Char}

theorem result?_symbol_eq_some {sign : List Char} {u : Unit}
    (h : result? (symbol sign) c = some (u, c')) :
    ∃ cs, skip c.rest = sign ++ cs ∧ c'.rest = skip cs := by
  obtain ⟨before, after, hbefore, hsign, hafter⟩ := result?_padded_eq_some h
  exact ⟨after.rest, hbefore ▸ result?_exactly_eq_some hsign, hafter⟩

theorem takes_symbol_append {x y : Char} {u : Unit} {input : List Char}
    (h : result? (symbol [x]) c = some (u, c')) (hmem : y ∈ c'.rest)
    (hinput : skip input = skip (c.rest ++ rest)) :
    Takes (symbol [x]) input (fun _ => True) (c'.rest ++ rest) := by
  obtain ⟨cs, hcs, hrest⟩ := result?_symbol_eq_some h
  rw [hrest] at hmem ⊢
  have hx : x ∈ skip c.rest := by simp [hcs]
  rw [← skip_append_of_mem hmem]
  apply takes_symbol
  rw [hinput, skip_append_of_mem hx, hcs, List.append_assoc]

theorem takes_bound_append {found : Option Token} (hc : ']' ∈ c.rest)
    (h : result? (optional integer) c = some (found, c')) :
    Takes (optional integer) (c.rest ++ rest)
      (fun bound => Tree.outlineOfParts [.ofToken? bound] =
        Tree.outlineOfParts [.ofToken? found])
      (c'.rest ++ rest) := by
  have hmirrors : ∀ frame : Frame, Mirrors frame (']' ∈ ·) (']' ∈ ·)
      (Option.map (Token.shift frame.before)) (optional integer)
      (optional integer) := fun frame =>
    ((lexing_of_bracket frame).integer (k := 0)).optional fun _ hcs => hcs
  apply Mirrors.takes _ (fun n => hmirrors ⟨n, []⟩)
    (fun n => hmirrors ⟨n, rest⟩) hc h
  intro n bound
  cases bound <;> rfl

theorem result?_interval_eq_some {t : Tree}
    (h : result? interval c = some (t, c')) :
    ∃ (c₁ c₂ c₃ c₄ : Cursor) (start stop : Option Token) (span : Span),
      result? (symbol ['[']) c = some ((), c₁) ∧ result? (optional integer) c₁ =
        some (start, c₂) ∧
      result? (symbol [',']) c₂ = some ((), c₃) ∧
      result? (optional integer) c₃ = some (stop, c₄) ∧
      result? (symbol [']']) c₄ = some ((), c') ∧
      t = .node Rule.interval.name [.ofToken? start, .ofToken? stop] span := by
  obtain ⟨⟨parts, span⟩, _, hparts, h⟩ := result?_bind_eq_some_iff.mp h
  obtain ⟨rfl, rfl⟩ := result?_pure_eq_some_iff.mp h
  obtain ⟨_, c₁, hopen, h⟩ :=
    result?_bind_eq_some_iff.mp (result?_located_eq_some hparts)
  obtain ⟨start, c₂, hstart, h⟩ := result?_bind_eq_some_iff.mp h
  obtain ⟨_, c₃, hcomma, h⟩ := result?_bind_eq_some_iff.mp h
  obtain ⟨stop, c₄, hstop, h⟩ := result?_bind_eq_some_iff.mp h
  obtain ⟨_, c₅, hclose, h⟩ := result?_bind_eq_some_iff.mp h
  obtain ⟨rfl, rfl⟩ := result?_pure_eq_some_iff.mp h
  exact ⟨c₁, c₂, c₃, c₄, start, stop, span, hopen, hstart, hcomma, hstop,
    hclose, rfl⟩

private theorem takes_intervalText (i : IntervalText) (rest : List Char) :
    Takes interval (skip (i.chars ++ rest))
      (fun t => t.outline = i.tree.outline) (skip rest) := by
  obtain ⟨last, hresult, hlast⟩ := i.reads
  obtain ⟨c₁, c₂, c₃, c₄, start, stop, span, hopen, hstart, hcomma, hstop,
      hclose, htree⟩ :=
    result?_interval_eq_some hresult
  have hadvances : Advances (optional integer) :=
    layout_true.optional layout_true.integer
  obtain ⟨_, -, h₁₂⟩ := hadvances c₁ start c₂ hstart
  obtain ⟨_, -, h₃₄⟩ := hadvances c₃ stop c₄ hstop
  obtain ⟨cs, hcs, hskip⟩ := result?_symbol_eq_some hclose
  -- The closing bracket is still to come at every place before it.
  have hmem₄ : ']' ∈ c₄.rest := mem_of_mem_skip (by simp [hcs])
  have hmem₃ : ']' ∈ c₃.rest := by simp [h₃₄, hmem₄]
  have hmem₂ : ']' ∈ c₂.rest := by
    obtain ⟨ds, hds, hc₃⟩ := result?_symbol_eq_some hcomma
    have hmem : ']' ∈ ds := mem_of_mem_skip (hc₃ ▸ hmem₃)
    exact mem_of_mem_skip (by simp [hds, hmem])
  have hmem₁ : ']' ∈ c₁.rest := by simp [h₁₂, hmem₂]
  have hlast' :
      Takes (symbol [']']) (c₄.rest ++ rest) (fun _ => True) (skip rest) := by
    rw [← skip_append_of_nil (hskip ▸ hlast) rest]
    apply takes_symbol
    rw [skip_append_of_mem (c := ']') (by simp [hcs]), hcs, List.append_assoc]
  have hparts : Takes (do
        symbol ['[']
        let start ← optional integer
        symbol [',']
        let stop ← optional integer
        symbol [']']
        return [Part.ofToken? start, Part.ofToken? stop])
          (skip (i.chars ++ rest))
      (fun parts => Tree.outlineOfParts parts =
        Tree.outlineOfParts [.ofToken? start, .ofToken? stop]) (skip rest) := by
    refine (takes_symbol_append hopen hmem₁ (skip_skip _)).bind fun _ _ => ?_
    refine (takes_bound_append hmem₁ hstart).bind fun start' hstart' => ?_
    refine (takes_symbol_append hcomma hmem₃ rfl).bind fun _ _ => ?_
    refine (takes_bound_append hmem₃ hstop).bind fun stop' hstop' => ?_
    refine hlast'.bind fun _ _ => takes_pure ?_
    rw [Tree.outlineOfParts_cons, hstart', hstop', ← Tree.outlineOfParts_cons]
  apply hparts.located.bind
  rintro ⟨parts, _⟩ hparts
  apply takes_pure
  rw [htree, Tree.outline, Tree.outline, hparts]

end Reader

/-! ## Rows -/

inductive Infix where
  | junction (k : Junction)
  | derived (c : Connective)
  | until (bounds : Option IntervalText)
  | reach (bounds : Option IntervalText)

namespace Infix

def layer : Infix → Layer
  | junction _ | derived _ => .base
  | .until _ => .ltl
  | reach _ => .strel

def sign : Infix → List Char
  | junction k => k.symbol
  | derived c => c.symbol
  | .until _ => ['U']
  | reach _ => "reach".toList

def bounds : Infix → Option IntervalText
  | junction _ | derived _ => none
  | .until i | reach i => i

def chars (x : Infix) : List Char := x.sign ++ IntervalText.charsOf x.bounds

def rule : Infix → Rule
  | junction k => k.rule
  | derived c => c.rule
  | .until _ => .until
  | reach _ => .reach

def join (lhs : Outline) (x : Infix) (rhs : Outline) : Outline :=
  match x with
  | junction _ | derived _ => .pair x.rule lhs rhs
  | .until i | reach i => .modal x.rule lhs (i.map (·.tree.outline)) rhs

end Infix

/-- An operand, and others with an operator before each of them. -/
structure Row (α : Type) where
  first : α
  others : List (Infix × α)

namespace Row

variable {α β : Type} {text : α → List Char} {sign : List Char}
  {A : Infix → Prop} {P : α → Prop}

def map (f : α → β) (row : Row α) : Row β :=
  ⟨f row.first, row.others.map (Prod.map id f)⟩

def chars (text : α → List Char) (row : Row α) : List Char :=
  text row.first ++ row.others.flatMap fun (x, a) =>
    ' ' :: x.chars ++ ' ' :: text a

def precede (a : α) (x : Infix) (row : Row α) : Row α :=
  ⟨a, (x, row.first) :: row.others⟩

def splitFrom (sign : List Char) : α → List (Infix × α) → Row α × List (Row α)
  | a, [] => (⟨a, []⟩, [])
  | a, (x, b) :: others =>
      let rest := splitFrom sign b others
      if x.sign = sign then (⟨a, []⟩, rest.1 :: rest.2)
        else (rest.1.precede a x, rest.2)

/-- The parts of the row between the operators with the sign. -/
def split (sign : List Char) (row : Row α) : Row α × List (Row α) :=
  splitFrom sign row.first row.others

def fold (row : Row Outline) : Outline :=
  row.others.foldl (fun lhs (x, rhs) => x.join lhs rhs) row.first

def level (sign : List Char) (group : Outline → List Outline → Outline)
    (tighter : Row Outline → Outline) (row : Row Outline) : Outline :=
  let (first, others) := row.split sign
  group (tighter first) (others.map tighter)

/-- The tree that the row stands for. -/
def reading : Row Outline → Outline :=
  fold
    |> level Junction.and.symbol (.chain .conjunction)
    |> level Junction.or.symbol (.chain .disjunction)
    |> level Connective.xor.symbol (.groupLeft .xor)
    |> level Connective.implies.symbol (.groupRight .implies)
    |> level Connective.equiv.symbol (.groupLeft .equiv)

theorem chars_precede (a : α) (x : Infix) (row : Row α) :
    (row.precede a x).chars text =
      text a ++ (' ' :: x.chars ++ ' ' :: row.chars text) := by
  simp [chars, precede]

def All (A : Infix → Prop) (P : α → Prop) (row : Row α) : Prop :=
  P row.first ∧ ∀ y ∈ row.others, A y.1 ∧ P y.2

theorem All.precede {row : Row α} (h : row.All A P) {a : α} {x : Infix}
    (ha : P a) (hx : A x) : (row.precede a x).All A P :=
  ⟨ha, List.forall_mem_cons.mpr ⟨⟨hx, h.1⟩, h.2⟩⟩

private theorem chars_split
    (hsign : ∀ x : Infix, x.sign = sign → x.chars = sign) (row : Row α) :
    row.chars text = (row.split sign).1.chars text ++
      (row.split sign).2.flatMap fun part =>
        ' ' :: sign ++ ' ' :: part.chars text := by
  obtain ⟨a, others⟩ := row
  show _ = (splitFrom sign a others).1.chars text ++
      (splitFrom sign a others).2.flatMap _
  induction others generalizing a with
  | nil => simp [splitFrom, chars]
  | cons y others ih =>
      obtain ⟨x, b⟩ := y
      have hrow :
          (⟨a, (x, b) :: others⟩ : Row α) = precede a x ⟨b, others⟩ := rfl
      rw [hrow, chars_precede, ih b, splitFrom]
      split
      · rename_i hx
        simp [hsign x hx, chars]
      · simp [chars_precede]

private theorem map_split (f : α → β) (row : Row α) :
    (row.map f).split sign =
      ((row.split sign).1.map f, (row.split sign).2.map (map f)) := by
  obtain ⟨a, others⟩ := row
  show splitFrom sign (f a) (others.map (Prod.map id f)) =
    ((splitFrom sign a others).1.map f, (splitFrom sign a others).2.map (map f))
  induction others generalizing a with
  | nil => rfl
  | cons y others ih =>
      obtain ⟨x, b⟩ := y
      rw [List.map_cons, Prod.map, splitFrom, splitFrom, ih b, id_eq]
      by_cases hx : x.sign = sign
      · rw [if_pos hx, if_pos hx]
        rfl
      · rw [if_neg hx, if_neg hx]
        rfl

theorem All.split {row : Row α} (h : row.All A P) :
    ∀ part ∈ (row.split sign).1 :: (row.split sign).2,
      part.All (fun x => A x ∧ x.sign ≠ sign) P := by
  obtain ⟨a, others⟩ := row
  obtain ⟨ha, hothers⟩ := h
  show ∀ part ∈ (splitFrom sign a others).1 :: (splitFrom sign a others).2, _
  induction others generalizing a with
  | nil => simpa [splitFrom, All] using ha
  | cons y others ih =>
      obtain ⟨x, b⟩ := y
      obtain ⟨⟨hx, hb⟩, hothers⟩ := List.forall_mem_cons.mp hothers
      have hparts := ih b hb hothers
      obtain ⟨hpart, hrest⟩ := List.forall_mem_cons.mp hparts
      rw [splitFrom]
      split
      · exact List.forall_mem_cons.mpr ⟨⟨ha, by simp⟩, hparts⟩
      · rename_i hne
        exact List.forall_mem_cons.mpr ⟨hpart.precede ha ⟨hx, hne⟩, hrest⟩

theorem All.mono {B : Infix → Prop} {row : Row α} (h : row.All A P)
    (hAB : ∀ x, A x → B x) : row.All B P :=
  ⟨h.1, fun y hy => ⟨hAB _ (h.2 y hy).1, (h.2 y hy).2⟩⟩

private theorem length_le_chars (text : α → List Char) (row : Row α) :
    (text row.first).length ≤ (row.chars text).length ∧
      ∀ y ∈ row.others, (text y.2).length ≤ (row.chars text).length := by
  constructor
  · simp [chars]
  · intro y hy
    obtain ⟨before, after, h⟩ := List.append_of_mem hy
    simp only [chars, h, List.flatMap_append, List.flatMap_cons,
      List.length_append, List.length_cons]
    omega

end Row

/-! ## Texts in a row -/

/-- A text that the layer reads, with its tree. -/
structure Sentence (layer : Layer) where
  source : String
  tree : Tree
  parses : Tree.parse layer source = .ok tree

namespace Sentence

variable {layer : Layer}

def enclosed (s : Sentence layer) : List Char := '(' :: s.source.toList ++ [')']

theorem opens_enclosed (s : Sentence layer) : Opens s.enclosed :=
  ⟨'(', s.source.toList ++ [')'], rfl, by decide, by decide⟩

theorem takes_operand (s : Sentence layer) {n : Nat}
    (hn : s.enclosed.length ≤ n) (tail : List Char) :
    Reader.Takes (.operand layer (n + 1)) (s.enclosed ++ tail)
      (fun t => t.outline = s.tree.outline) (skip tail) := by
  obtain ⟨-, c, hresult⟩ := Tree.parse_eq_ok_iff.mp s.parses
  have hshort : s.source.toList.length < n := by
    rw [enclosed, List.length_append, List.length_cons] at hn
    omega
  rw [enclosed, List.append_assoc]
  exact Reader.takes_operand_of_sentence hresult hshort

end Sentence

namespace Infix

theorem skip_chars (x : Infix) (rest : List Char) :
    skip (' ' :: x.chars ++ rest) = x.chars ++ rest := by
  cases x with
  | junction k => cases k <;> rfl
  | derived c => cases c <;> rfl
  | «until» i => rfl
  | reach i => rfl

private theorem chars_eq_sign {x : Infix}
    (h : x.sign ≠ ['U'] ∧ x.sign ≠ "reach".toList) : x.chars = x.sign := by
  cases x with
  | junction k => exact List.append_nil _
  | derived c => exact List.append_nil _
  | «until» i => exact absurd rfl h.1
  | reach i => exact absurd rfl h.2

theorem modal_of_not_mem {x : Infix} (h : x.sign ∉ Reader.ladder.map Prod.fst) :
    ∃ i, x = .until i ∨ x = .reach i := by
  cases x with
  | junction k => exact absurd (by cases k <;> decide) h
  | derived c => exact absurd (by cases c <;> decide) h
  | «until» i => exact ⟨i, .inl rfl⟩
  | reach i => exact ⟨i, .inr rfl⟩

end Infix

private theorem endsName_charsOf (i : Option IntervalText) (rest : List Char) :
    EndsName (IntervalText.charsOf i ++ ' ' :: rest) := by
  cases i with
  | none =>
      rintro _ ⟨⟩
      rfl
  | some i =>
      obtain ⟨last, hresult, -⟩ := i.reads
      obtain ⟨c₁, -, -, -, -, -, -, hopen, -⟩ :=
        Reader.result?_interval_eq_some hresult
      obtain ⟨cs, hcs, -⟩ := Reader.result?_symbol_eq_some hopen
      have hskip : skip i.chars = '[' :: cs := hcs
      show EndsName (i.chars ++ ' ' :: rest)
      cases hchars : i.chars with
      | nil =>
          rintro _ ⟨⟩
          rfl
      | cons c chars =>
          rintro _ ⟨⟩
          cases hblank : isBlank c with
          | true => exact isNameChar_of_isBlank hblank
          | false =>
              rw [hchars, skip_cons hblank] at hskip
              cases hskip
              rfl

namespace Reader

variable {layer : Layer} {n : Nat} {tail rest : List Char}

private theorem takes_charsOf (i : Option IntervalText)
    (hrest : ∀ c ∈ (skip rest).head?, c ≠ '[') :
    Takes (optional interval) (skip (IntervalText.charsOf i ++ rest))
      (fun t => t.map Tree.outline = i.map (·.tree.outline)) (skip rest) := by
  cases i with
  | none =>
      apply (takes_no_bounds hrest).mono
      rintro _ rfl
      rfl
  | some i =>
      apply (takes_intervalText i rest).optional.mono
      rintro _ ⟨t, rfl, ht⟩
      exact congrArg some ht

private theorem takes_modality {x : Infix}
    (hlayer : layer.includes x.layer = true)
    (hsign : x.sign ∉ ladder.map Prod.fst) (rest : List Char) :
    Takes (binaryModality layer) (x.chars ++ ' ' :: rest) (· = x.rule)
      (skip (IntervalText.charsOf x.bounds ++ ' ' :: rest)) := by
  obtain ⟨i, rfl | rfl⟩ := Infix.modal_of_not_mem hsign
  · exact takes_until _
  · rw [Infix.chars, List.append_assoc]
    exact takes_reach hlayer (endsName_charsOf i rest)

/-- A modality and its operand, ready to be put behind any other operand. -/
def Joins (y : Infix × Sentence layer) (found : Rule × Option Tree × Tree) :
    Prop :=
  ∀ t, (Tree.modal found.1 t found.2.1 found.2.2).outline =
    y.1.join t.outline y.2.tree.outline

private theorem takes_operator {y : Infix × Sentence layer}
    (hlayer : layer.includes y.1.layer = true)
    (hsign : y.1.sign ∉ ladder.map Prod.fst) (hn : y.2.enclosed.length ≤ n)
    (tail : List Char) :
    Takes (modalItem layer (operand layer (n + 1)))
      (skip (' ' :: y.1.chars ++ ' ' :: y.2.enclosed ++ tail)) (Joins y)
        (skip tail) := by
  obtain ⟨x, s⟩ := y
  have hopens := s.opens_enclosed
  have htext : skip (' ' :: x.chars ++ ' ' :: s.enclosed ++ tail) =
      x.chars ++ ' ' :: (s.enclosed ++ tail) := by
    rw [List.append_assoc, Infix.skip_chars, List.cons_append]
  rw [htext]
  refine (takes_modality hlayer hsign _).bind fun rule hrule => ?_
  refine (takes_charsOf x.bounds (hopens.head_ne tail)).bind
    fun bounds hbounds => ?_
  rw [skip_space, hopens.skip_append]
  refine (s.takes_operand hn tail).bind fun u hu => takes_pure fun t => ?_
  rw [hrule, Tree.outline_modal, hbounds, hu]
  obtain ⟨i, rfl | rfl⟩ := Infix.modal_of_not_mem hsign <;> rfl

private theorem outline_foldl_modal {others : List (Infix × Sentence layer)}
    {found : List (Rule × Option Tree × Tree)}
    (h : List.Forall₂ Joins others found) (first : Tree) :
    (found.foldl (fun lhs (rule, bounds, rhs) => .modal rule lhs bounds rhs)
      first).outline =
      (others.map (Prod.map id (·.tree.outline))).foldl
        (fun lhs (x, rhs) => x.join lhs rhs)
        first.outline := by
  induction h generalizing first with
  | nil => rfl
  | cons hfound _ ih =>
      rw [List.foldl_cons, ih, hfound first, List.map_cons, List.foldl_cons]
      rfl

/-! ## The levels -/

/-- The reader takes every row of short texts in which no looser sign stands to
its reading. -/
def Reads (layer : Layer) (n : Nat) (looser : List (List Char))
    (p : Reader Tree) (reading : Row Outline → Outline) : Prop :=
  ∀ (row : Row (Sentence layer)) (tail : List Char),
    row.All (fun x => layer.includes x.layer = true ∧ x.sign ∉ looser)
      (·.enclosed.length ≤ n) →
    Before (looser.filterMap List.head? ++ [')']) tail →
    Takes p (row.chars Sentence.enclosed ++ tail)
      (fun t => t.outline = reading (row.map (·.tree.outline))) (skip tail)

private theorem reads_modal (hltl : layer.includes .ltl = true) (n : Nat) :
    Reads layer n (ladder.map Prod.fst) (modal layer (operand layer (n + 1)))
      Row.fold := by
  rintro ⟨s, others⟩ tail ⟨hs, hothers⟩ htail
  have hsigns : ∀ c ∈ (ladder.map Prod.fst).filterMap List.head? ++ [')'],
      isNameStart c = false := by decide
  have hmany : TakesMany (modalItem layer (operand layer (n + 1)))
      (skip (others.flatMap
        (fun (x, s) => ' ' :: x.chars ++ ' ' :: s.enclosed) ++ tail))
      (List.Forall₂ Joins others) (skip tail) := by
    apply takesMany_of_items fun _ => True
    · intro y hy rest _
      obtain ⟨⟨hlayer, hsign⟩, hn⟩ := hothers y hy
      exact takes_operator hlayer hsign hn rest
    · exact fun _ _ _ => trivial
    · intro y hy rest
      have hlength := length_skip_le rest
      rw [List.append_assoc, Infix.skip_chars]
      simp only [List.length_append, List.length_cons]
      omega
    · trivial
    · exact refuses_modalItem htail hsigns
  rw [Row.chars, List.append_assoc]
  apply (takes_modal_many hltl (s.takes_operand hs _) hmany).mono
  rintro _ ⟨t, found, rfl, ht, hfound⟩
  rw [outline_foldl_modal hfound, ht]
  rfl

variable {c : Char} {cs : List Char} {looser : List (List Char)}
  {p : Reader Tree} {reading : Row Outline → Outline}
  {join : Tree → List Tree → Tree} {group : Outline → List Outline → Outline}

theorem Reads.level (h : Reads layer n ((c :: cs) :: looser) p reading)
    (hblank : isBlank c = false) (hc : c ∉ looser.filterMap List.head? ++ [')'])
    (hsign : c :: cs ≠ ['U'] ∧ c :: cs ≠ "reach".toList)
    (hjoin :
      ∀ t ts, (join t ts).outline = group t.outline (ts.map Tree.outline)) :
    Reads layer n looser (level (c :: cs) join p)
      (Row.level (c :: cs) group reading) := by
  intro row tail hrow htail
  have hchars : ∀ x : Infix, x.sign = c :: cs → x.chars = c :: cs := by
    intro x hx
    rw [Infix.chars_eq_sign (hx ▸ hsign), hx]
  have hparts : ∀ part ∈ (row.split (c :: cs)).1 :: (row.split (c :: cs)).2,
      ∀ rest,
      Before (c :: (looser.filterMap List.head? ++ [')'])) rest →
      Takes p (part.chars Sentence.enclosed ++ rest)
        (fun t => t.outline = reading (part.map (·.tree.outline)))
        (skip rest) := by
    intro part hpart rest hrest
    refine h part rest ((hrow.split part hpart).mono ?_) hrest
    rintro x ⟨⟨hlayer, hlooser⟩, hne⟩
    exact ⟨hlayer, List.not_mem_cons_of_ne_of_not_mem hne hlooser⟩
  have hstart : ∀ part ∈ (row.split (c :: cs)).2, ∀ rest,
      skip (part.chars Sentence.enclosed ++ rest) =
        part.chars Sentence.enclosed ++ rest :=
    fun part _ => (part.first.opens_enclosed.append _).skip_append
  rw [Row.chars_split hchars, List.append_assoc]
  apply (takes_level hblank hc hparts hstart htail).mono
  rintro _ ⟨u, us, rfl, hu, hus⟩
  have hmap : us.map Tree.outline =
      (row.split (c :: cs)).2.map fun part =>
        reading (part.map (·.tree.outline)) := by
    rw [← List.forall₂_eq_eq_eq, List.forall₂_map_left_iff,
      List.forall₂_map_right_iff]
    exact hus.flip
  rw [hjoin, hu, hmap, Row.level, Row.map_split]
  exact congrArg (group _) List.map_map.symm

private theorem reads_formula (hltl : layer.includes .ltl = true) (n : Nat) :
    Reads layer n [] (formula layer (operand layer (n + 1))) Row.reading := by
  have hmodal := reads_modal hltl n
  have hand :=
    hmodal.level rfl (by decide) (by decide) (Tree.outline_chain .conjunction)
  have hor :=
    hand.level rfl (by decide) (by decide) (Tree.outline_chain .disjunction)
  have hxor :=
    hor.level rfl (by decide) (by decide) (Tree.outline_groupLeft .xor)
  have himplies :=
    hxor.level rfl (by decide) (by decide) (Tree.outline_groupRight .implies)
  exact himplies.level rfl (by decide) (by decide)
    (Tree.outline_groupLeft .equiv)

end Reader

def Tree.letter (name : String) : Tree :=
  .node Rule.variable.name [.token ⟨TokenKind.name.tag, name, ⟨0, 1⟩⟩] ⟨0, 1⟩

def IntervalText.fromOne : IntervalText where
  chars := "[1,]".toList
  tree := .node Rule.interval.name [.token ⟨TokenKind.integer.tag, "1", ⟨1, 2⟩⟩,
    .absent] ⟨0, 4⟩
  reads := by
    have hchars : "[1,]".toList = ['[', '1', ',', ']'] := by decide
    rw [hchars]
    exact ⟨⟨4, []⟩, rfl, rfl⟩

def Row.mixed : Row (Sentence .strel) :=
  let p : Sentence .strel := ⟨"p", .letter "p", rfl⟩
  let q : Sentence .strel := ⟨"q", .letter "q", rfl⟩
  ⟨p, [(.derived .implies, q), (.derived .implies, p),
    (.until (some .fromOne), q),
    (.reach none, p), (.junction .and, q), (.derived .equiv, p)]⟩

/-- Texts that a layer with the temporal operators reads alone are read in
parentheses with operators between them, and the row gives the tree that it
stands for. -/
theorem Row.parse_eq_reading {layer : Layer} (hltl : layer.includes .ltl = true)
    (row : Row (Sentence layer))
    (hlayer : ∀ y ∈ row.others, layer.includes y.1.layer = true)
    (hnesting : Nesting.excess? layer (row.chars Sentence.enclosed) = none) :
    ∃ t, Tree.parse layer (String.ofList (row.chars Sentence.enclosed)) =
      .ok t ∧
      t.outline = (row.map (·.tree.outline)).reading := by
  obtain ⟨hfirst, hothers⟩ := row.length_le_chars Sentence.enclosed
  have hall :
      row.All (fun x => layer.includes x.layer = true ∧
        x.sign ∉ ([] : List (List Char)))
      (·.enclosed.length ≤ (row.chars Sentence.enclosed).length) :=
    ⟨hfirst, fun y hy => ⟨⟨hlayer y hy, List.not_mem_nil⟩, hothers y hy⟩⟩
  have hend : Before [')'] [] := ⟨by simp [EndsName], by simp⟩
  have hreads := Reader.reads_formula hltl _ row [] hall hend
  rw [List.append_nil] at hreads
  have hskip :
      skip (row.chars Sentence.enclosed) = row.chars Sentence.enclosed := by
    rw [Row.chars, row.first.opens_enclosed.skip_append]
  apply Tree.exists_parse_eq_ok
  · rwa [String.toList_ofList]
  · rw [String.toList_ofList]
    apply Reader.takes_sentence
    rwa [hskip]

/-- Implications group to the right, modalities to the left and tighter than the
conjunction. -/
theorem Row.parse_eq_reading_mixed :
    ∃ t, Tree.parse .strel
      "(p) -> (q) -> (p) U[1,] (q) reach (p) & (q) <-> (p)" = .ok t ∧
      let p := (Tree.letter "p").outline
      let q := (Tree.letter "q").outline
      let run := Outline.modal .reach
        (.modal .until p (some IntervalText.fromOne.tree.outline) q) none p
      t.outline = .pair .equiv
        (.pair .implies p (.pair .implies q (.chain .conjunction run [q])))
        p := by
  have hchars : mixed.chars Sentence.enclosed =
      "(p) -> (q) -> (p) U[1,] (q) reach (p) & (q) <-> (p)".toList := by
        decide +kernel
  have hnesting : Nesting.excess? .strel (mixed.chars Sentence.enclosed) =
      none := by
    decide +kernel
  have hlayer : ∀ y ∈ mixed.others, Layer.strel.includes y.1.layer = true := by
    decide +kernel
  have h := Row.parse_eq_reading rfl mixed hlayer hnesting
  rwa [hchars, String.ofList_toList] at h

end LayeredLogic
