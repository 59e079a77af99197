import LayeredLogic.Proofs.RoundTrip
import LayeredLogic.Proofs.Scan
import LayeredLogic.Proofs.Written

/-!
# The marks of a canonical text

The marks that the scan for nesting finds in a canonical text can be listed by
recursion on the formula.  A name has to be a word for this, so that it is told
from the operators around it.
-/

namespace LayeredLogic

namespace Nesting

/-! ## Marks of a text -/

variable {layer : Layer} {cs ds rest : List Char} {ms ns : List Mark}

/-- The scan finds the marks in the text, wherever it starts, and is between
words at its end. -/
def Emits (layer : Layer) (cs rest : List Char) (ms : List Mark) : Prop :=
  ∀ offset, ∃ found stop, marks layer .between offset (cs ++ rest) =
    found ++ marks layer .between stop rest ∧ found.map Prod.fst = ms

theorem emits_nil : Emits layer [] rest [] :=
  fun offset => ⟨[], offset, rfl, rfl⟩

theorem Emits.append (h : Emits layer cs (ds ++ rest) ms)
    (h' : Emits layer ds rest ns) : Emits layer (cs ++ ds) rest (ms ++ ns) := by
  intro offset
  obtain ⟨found, middle, hfound, rfl⟩ := h offset
  obtain ⟨found', stop, hfound', rfl⟩ := h' middle
  refine ⟨found ++ found', stop, ?_, List.map_append⟩
  rw [List.append_assoc, hfound, hfound', List.append_assoc]

theorem emits_char {c : Char} (hname : isNameStart c = false) (hc : c ∉ skipped)
    (rest : List Char) : Emits layer [c] rest (mark? c rest).toList := by
  intro offset
  refine ⟨((mark? c rest).map fun mark =>
    (mark, ⟨offset, offset + c.utf8Size⟩)).toList,
    offset + c.utf8Size, ?_, ?_⟩
  · rw [List.singleton_append, marks, enter_eq_between hname hc]
  · cases mark? c rest <;> rfl

theorem Emits.cons {c : Char} (h : Emits layer cs rest ms)
    (hname : isNameStart c = false) (hc : c ∉ skipped) :
    Emits layer (c :: cs) rest ((mark? c (cs ++ rest)).toList ++ ms) :=
  (emits_char hname hc (cs ++ rest)).append h

theorem Emits.plain {c : Char} (h : Emits layer cs rest ms) (hc : Plain c) :
    Emits layer (c :: cs) rest ms := by
  have hcons := h.cons hc.name hc.notSkipped
  rwa [hc.mark?_eq_none] at hcons

theorem Emits.space (h : Emits layer cs rest ms) :
    Emits layer (' ' :: cs) rest ms :=
  h.plain (plain_of_isBlank rfl)

theorem Emits.enclosed (h : Emits layer cs (')' :: rest) ms) :
    Emits layer ('(' :: (cs ++ [')'])) rest
      (.opening :: (ms ++ [.closing])) := by
  have hclose : Emits layer [')'] rest [.closing] :=
    emits_char rfl (by decide) rest
  exact (h.append hclose).cons rfl (by decide)

theorem emits_word (hword : isIdentifier cs = true) (hrest : EndsName rest) :
    Emits layer cs rest [.operators (wordWeight layer cs)] := by
  cases cs with
  | nil => cases hword
  | cons c cs =>
      simp only [isIdentifier, Bool.and_eq_true, List.all_eq_true] at hword
      intro offset
      obtain ⟨hmark, henter⟩ := mark?_of_isNameStart hword.1 (cs ++ rest) offset
      obtain ⟨span, stop, hmarks⟩ :=
        marks_word layer hword.2 hrest offset (offset + c.utf8Size) [c]
      refine ⟨[(.operators (wordWeight layer (c :: cs)), span)], stop, ?_, rfl⟩
      rw [List.cons_append, marks, hmark, henter, hmarks]
      rfl

private theorem marks_skipping {close : Char} (hquote : close ≠ '"')
    (hcs : close ∉ cs) (offset : Nat) :
    ∃ stop, marks layer (.skipping close false) offset (cs ++ close :: rest) =
      marks layer .between stop rest := by
  induction cs generalizing offset with
  | nil =>
      refine ⟨offset + close.utf8Size, ?_⟩
      rw [List.nil_append, marks, skip]
      simp [hquote]
  | cons c cs ih =>
      simp only [List.mem_cons, not_or] at hcs
      have hskip : skip close false c = .skipping close false := by
        simp [skip, hquote, Ne.symm hcs.1]
      obtain ⟨stop, hstop⟩ := ih hcs.2 (offset + c.utf8Size)
      exact ⟨stop, by rw [List.cons_append, marks, hskip, hstop]⟩

theorem emits_skipped {c close : Char}
    (henter : ∀ offset, enter offset c = .skipping close false)
    (hmark : ∀ cs, mark? c cs = none) (hquote : close ≠ '"')
    (hcs : close ∉ cs) : Emits layer (c :: (cs ++ [close])) rest [] := by
  intro offset
  obtain ⟨stop, hstop⟩ := marks_skipping hquote hcs (offset + c.utf8Size)
  have htext :
      c :: (cs ++ [close]) ++ rest = c :: (cs ++ close :: rest) := by simp
  refine ⟨[], stop, ?_, rfl⟩
  rw [htext, marks, hmark, henter, hstop]
  rfl

theorem emits_brackets (hcs : ']' ∉ cs) :
    Emits layer ('[' :: (cs ++ [']'])) rest [] :=
  emits_skipped (fun _ => rfl) (fun _ => rfl) (by decide) hcs

theorem emits_braces (hcs : '}' ∉ cs) :
    Emits layer ('{' :: (cs ++ ['}'])) rest [] :=
  emits_skipped (fun _ => rfl) (fun _ => rfl) (by decide) hcs

/-! ## Bounds and labels -/

theorem not_mem_boundText {c : Char} (hc : c.isDigit = false)
    (bound : Option UInt64) : c ∉ Interval.boundText bound := by
  cases bound with
  | none => exact List.not_mem_nil
  | some b =>
      intro hmem
      rw [isDigit_of_mem_toDigits hmem] at hc
      cases hc

theorem emits_bounds (i : Option Interval) :
    Emits layer (Interval.charsOf i) rest [] := by
  cases i with
  | none => exact emits_nil
  | some i =>
      have hbounds :
          ']' ∉ Interval.boundText i.start ++ ',' :: Interval.boundText
            i.stop := by
        simp [not_mem_boundText]
      have htext : Interval.charsOf (some i) =
          '[' :: (Interval.boundText i.start ++ ',' :: Interval.boundText
            i.stop ++ [']']) := by
        simp [Interval.charsOf, Interval.chars]
      rw [htext]
      exact emits_brackets hbounds

theorem emits_steps (count : Option UInt64) :
    Emits layer (stepsChars count) rest [] := by
  cases count with
  | none => exact emits_nil
  | some n => exact emits_brackets (not_mem_boundText rfl (some n))

theorem isNameChar_of_isIdentifier (h : isIdentifier cs = true) :
    ∀ c ∈ cs, isNameChar c = true := by
  cases cs with
  | nil => cases h
  | cons c cs =>
      simp only [isIdentifier, Bool.and_eq_true, List.all_eq_true] at h
      refine List.forall_mem_cons.mpr ⟨?_, h.2⟩
      have hstart := h.1
      simp only [isNameStart, Bool.or_eq_true] at hstart
      simp only [isNameChar, Char.isAlphanum, Bool.or_eq_true]
      exact hstart.imp_left Or.inl

private theorem emits_labels {labels : LabelSet}
    (h : ∀ label ∈ labels, isIdentifier label.toList = true) :
    Emits layer labels.chars rest [] := by
  have hlabel : ∀ label ∈ labels.names, '}' ∉ label.toList := by
    intro label hlabel hmem
    cases isNameChar_of_isIdentifier (h label hlabel) '}' hmem
  have hlabels : '}' ∉ [','].intercalate (labels.names.map String.toList) := by
    cases hnames : labels.names with
    | nil => simp [List.intercalate]
    | cons first others =>
        rw [hnames] at hlabel
        obtain ⟨hfirst, hothers⟩ := List.forall_mem_cons.mp hlabel
        rw [List.map_cons, intercalate_cons]
        simpa [hfirst] using hothers
  exact emits_braces hlabels

theorem Emits.operator (h : Emits layer ds rest []) {word : List Char}
    (hword : isIdentifier word = true) (hweight : wordWeight layer word = 1)
    (hends : EndsName (ds ++ rest)) :
    Emits layer (word ++ ds) rest [.operators 1] := by
  have hfirst : Emits layer word (ds ++ rest) _ := emits_word hword hends
  rw [hweight] at hfirst
  exact hfirst.append h

theorem Emits.letter (h : Emits layer ds rest []) {c : Char}
    (hltl : layer.includes .ltl = true) (hc : c ∈ ['X', 'G', 'F', 'U'])
    (hends : EndsName (ds ++ rest)) :
    Emits layer (c :: ds) rest [.operators 1] := by
  have hletter : isIdentifier [c] = true ∧ isTemporalLetter c = true := by
    simp only [List.mem_cons, List.not_mem_nil, or_false] at hc
    rcases hc with rfl | rfl | rfl | rfl <;> decide
  have hkeyword : [c] ∉ layer.keywords := by
    have hlong : ∀ word ∈ layer.keywords, word.length ≠ 1 := by
      cases layer <;> decide
    exact fun hmem => hlong [c] hmem rfl
  have hweight : wordWeight layer [c] = 1 := by
    simp [wordWeight, hkeyword, hltl, hletter.2]
  exact h.operator hletter.1 hweight hends

theorem Emits.keyword (h : Emits layer ds rest []) {word : List Char}
    (hword : word ∈ layer.keywords) (hends : EndsName (ds ++ rest)) :
    Emits layer (word ++ ds) rest [.operators 1] := by
  have hidentifier : isIdentifier word = true := by
    have hall : ∀ w ∈ layer.keywords, isIdentifier w = true := by
      cases layer <;> decide
    exact hall word hword
  exact h.operator hidentifier (if_pos (List.contains_iff_mem.mpr hword)) hends

theorem mem_keywords_of_strel {word : List Char}
    (hstrel : layer.includes .strel = true)
    (hword : word ∈ Layer.strel.keywords) : word ∈ layer.keywords := by
  rwa [Reader.eq_strel_of_includes hstrel]

private theorem emits_unary {m : UnaryModality}
    (hlayer : layer.includes m.operator.layer = true) (hm : m.Readable) :
    Emits layer m.chars (' ' :: rest) [.operators 1] := by
  cases m with
  | next steps =>
      exact (emits_steps steps).letter hlayer (by decide)
        (endsName_steps steps rest)
  | always i | eventually i =>
      exact (emits_bounds i).letter hlayer (by decide) (endsName_bounds i rest)
  | everywhere i | somewhere i | escape i =>
      exact (emits_bounds i).keyword (mem_keywords_of_strel hlayer (by decide))
        (endsName_bounds i rest)
  | graph direction labels edges =>
      have hgraph : layer.includes .stlGo = true := by
        cases direction <;> exact hlayer
      obtain rfl := Reader.eq_stlGo_of_includes hgraph
      have hkeyword : direction.keyword.toList ∈ Layer.stlGo.keywords := by
        cases direction <;> decide
      have hends :
          EndsName (labels.chars ++ Interval.charsOf edges ++ ' ' :: rest) := by
        rw [List.append_assoc]
        exact endsName_labels labels _
      exact ((emits_labels hm.1).append (emits_bounds edges)).keyword
        hkeyword hends

private theorem emits_binary {m : BinaryModality}
    (hlayer : layer.includes m.operator.layer = true) :
    Emits layer m.chars (' ' :: rest) [.operators 1] := by
  cases m with
  | «until» i =>
      exact (emits_bounds i).letter hlayer (by decide) (endsName_bounds i rest)
  | reach i =>
      exact (emits_bounds i).keyword (mem_keywords_of_strel hlayer (by decide))
        (endsName_bounds i rest)

end Nesting

/-! ## Marks of a formula -/

namespace Formula

open Nesting

def encloseMarks : Formula → List Nesting.Mark → List Nesting.Mark
  | derived _ _ _, ms => .opening :: (ms ++ [.closing])
  | _, ms => ms

mutual

def marks (layer : Layer) : Formula → List Nesting.Mark
  | literal _ => [.operators 0]
  | var name => [.operators (wordWeight layer name.toList)]
  | not a | unary _ a => .operators 1 :: encloseMarks a (a.marks layer)
  | junction _ args => .opening :: (marksAll layer args ++ [.closing])
  | derived _ a b =>
      encloseMarks a (a.marks layer) ++ .operators 1 :: encloseMarks b
        (b.marks layer)
  | binary _ a b =>
      .opening :: (encloseMarks a (a.marks layer) ++
        .operators 1 :: encloseMarks b (b.marks layer) ++ [.closing])

def marksAll (layer : Layer) : List Formula → List Nesting.Mark
  | [] => []
  | a :: rest => encloseMarks a (a.marks layer) ++ marksAll layer rest

end

def operandMarks (layer : Layer) (a : Formula) : List Nesting.Mark :=
  encloseMarks a (a.marks layer)

section

variable {layer : Layer} {a b : Formula} {cs rest : List Char}
  {ms : List Nesting.Mark}

def EmitsMarks (layer : Layer) (f : Formula) : Prop :=
  ∀ rest, EndsName rest → Emits layer f.chars rest (f.marks layer)

theorem EmitsMarks.operand (h : a.EmitsMarks layer) (hrest : EndsName rest) :
    Emits layer a.operandChars rest (a.operandMarks layer) := by
  cases a with
  | derived c a b =>
      have hend : EndsName (')' :: rest) := (before_close rest).1
      exact (h _ hend).enclosed
  | literal | var | not | junction | unary | binary => exact h rest hrest

theorem endsName_space (cs : List Char) : EndsName (' ' :: cs) := by
  rintro _ ⟨⟩
  rfl

theorem emits_connective (c : Connective) (h : Emits layer cs rest ms) :
    Emits layer (' ' :: c.symbol ++ ' ' :: cs) rest (.operators 1 :: ms) := by
  have hopen : Plain '<' := by decide
  have hclose : Plain '>' := by decide
  cases c with
  | implies => exact ((h.space.plain hclose).cons rfl (by decide)).space
  | equiv =>
      exact (((h.space.plain hclose).cons rfl (by decide)).plain hopen).space
  | xor => exact (h.space.cons rfl (by decide)).space

theorem emits_separator (k : Junction) (h : Emits layer cs rest ms) :
    Emits layer (' ' :: k.symbol ++ [' '] ++ cs) rest ms := by
  cases k with
  | and => exact (h.space.plain (by decide)).space
  | or => exact (h.space.plain (by decide)).space

private theorem emits_operands (k : Junction) {args : List Formula}
    (hargs : ∀ a ∈ args, a.EmitsMarks layer) (hrest : EndsName rest) :
    Emits layer
      (args.flatMap fun a => ' ' :: k.symbol ++ [' '] ++ a.operandChars) rest
      (marksAll layer args) := by
  induction args with
  | nil => exact emits_nil
  | cons a args ih =>
      obtain ⟨ha, hargs⟩ := List.forall_mem_cons.mp hargs
      have hends : EndsName
          ((args.flatMap fun a => ' ' :: k.symbol ++ [' '] ++ a.operandChars) ++
            rest) := by
        cases args with
        | nil => exact hrest
        | cons b args => exact endsName_space _
      exact (emits_separator k (ha.operand hends)).append (ih hargs)

private theorem emits_junction (k : Junction) {args : List Formula}
    (hargs : ∀ a ∈ args, a.EmitsMarks layer) :
    (junction k args).EmitsMarks layer := by
  intro rest hrest
  have htext : (junction k args).chars =
      '(' :: ((' ' :: k.symbol ++ [' ']).intercalate (args.map operandChars) ++
        [')']) :=
    operandChars_junction k args
  rw [htext]
  apply Emits.enclosed
  cases args with
  | nil => exact emits_nil
  | cons a args =>
      obtain ⟨ha, hargs⟩ := List.forall_mem_cons.mp hargs
      have hends : EndsName
          ((args.flatMap fun a => ' ' :: k.symbol ++ [' '] ++ a.operandChars) ++
            ')' :: rest) := by
        cases args with
        | nil => exact (before_close rest).1
        | cons b args => exact endsName_space _
      rw [List.map_cons, intercalate_cons, List.flatMap_map]
      exact (ha.operand hends).append
        (emits_operands k hargs (before_close rest).1)

private theorem emits_derived (c : Connective) (ha : a.EmitsMarks layer)
    (hb : b.EmitsMarks layer) : (derived c a b).EmitsMarks layer := by
  intro rest hrest
  have htext : (derived c a b).chars =
      a.operandChars ++ (' ' :: c.symbol ++ ' ' :: b.operandChars) := by
    show a.operandChars ++ ' ' :: c.symbol ++ ' ' :: b.operandChars = _
    simp
  rw [htext]
  exact (ha.operand (endsName_space _)).append
    (emits_connective c (hb.operand hrest))

private theorem emits_binaryNode {m : BinaryModality}
    (hlayer : layer.includes m.operator.layer = true) (ha : a.EmitsMarks layer)
    (hb : b.EmitsMarks layer) : (binary m a b).EmitsMarks layer := by
  intro rest hrest
  have htext : (binary m a b).chars = _ := operandChars_binary m a b
  have hlast := hb.operand (before_close rest).1
  rw [htext]
  exact ((ha.operand (endsName_space _)).append
    ((emits_binary hlayer).append hlast.space).space).enclosed

theorem emits_chars {quotes : Prop} (hquotes : ¬ quotes) {f : Formula}
    (hf : f.Written layer quotes) : f.EmitsMarks layer := by
  induction f using childInduct with
  | step f ih =>
      obtain ⟨hnode, hargs⟩ := written_iff.mp hf
      have hbelow : ∀ a ∈ f.children, a.EmitsMarks layer :=
        fun a ha => ih a ha (hargs a ha)
      cases f with
      | literal value =>
          intro rest hrest
          have hweight : wordWeight layer (literal value).chars = 0 := by
            cases layer <;> cases value <;> rfl
          have hword : isIdentifier (literal value).chars = true := by
            cases value <;> rfl
          rw [marks, ← hweight]
          exact emits_word hword hrest
      | var name =>
          intro rest hrest
          have hname := hnode.resolve_left hquotes
          exact emits_word hname.1 hrest
      | not a =>
          intro rest hrest
          have ha := hbelow a (by simp [children])
          exact (ha.operand hrest).cons rfl (by decide)
      | junction k args => exact emits_junction k hbelow
      | derived c a b =>
          exact emits_derived c (hbelow a (by simp [children]))
            (hbelow b (by simp [children]))
      | unary m a =>
          intro rest hrest
          have ha := hbelow a (by simp [children])
          exact (emits_unary hnode.1 hnode.2).append (ha.operand hrest).space
      | binary m a b =>
          exact emits_binaryNode hnode.1 (hbelow a (by simp [children]))
            (hbelow b (by simp [children]))

end

end Formula

end LayeredLogic
