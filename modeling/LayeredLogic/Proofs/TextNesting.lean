import LayeredLogic.Proofs.Reread
import LayeredLogic.Proofs.TextMarks

/-!
# The nesting of a canonical text

The depth that the marks of a canonical text come to is a number that can be
told from the formula, and the text is refused exactly when this number is over
the limit.  A chain of implications is read without parentheses but written with
them, so that its canonical text comes to nearly twice the depth of the text
that was read.
-/

namespace LayeredLogic

namespace Nesting

variable {limit : Nat} {levels : Levels} {ms ns : List Mark}

/-- No mark takes the depth over the limit. -/
def Clears (limit : Nat) (levels : Levels) : List Mark → Prop
  | [] => True
  | mark :: rest =>
      (levels.count mark).depth ≤ limit ∧ Clears limit (levels.count mark) rest

theorem firstBeyond_eq_none_iff {found : List (Mark × Span)} :
    firstBeyond limit levels found = none ↔
    Clears limit levels (found.map Prod.fst) := by
  induction found generalizing levels with
  | nil => exact ⟨fun _ => trivial, fun _ => rfl⟩
  | cons mark rest ih =>
      rw [firstBeyond_cons_eq_none_iff, ih]
      rfl

/-- The marks take the depth up by the peak at most and leave it higher by the
load. -/
structure Raises (limit : Nat) (ms : List Mark) (peak load : Nat) : Prop where
  load_le : load ≤ peak
  clears_iff : ∀ levels : Levels, levels.depth ≤ limit → ∀ rest,
    Clears limit levels (ms ++ rest) ↔
      levels.depth + peak ≤ limit ∧
        Clears limit (levels.count (.operators load)) rest

theorem raises_nil : Raises limit [] 0 0 where
  load_le := Nat.le_refl 0
  clears_iff := fun _ hdepth _ => ⟨fun h => ⟨hdepth, h⟩, fun h => h.2⟩

theorem raises_operators (n : Nat) : Raises limit [.operators n] n n where
  load_le := Nat.le_refl n
  clears_iff := by
    intro levels _ rest
    rw [List.singleton_append, Clears, depth_count_operators]

variable {peak load peak' load' : Nat}

theorem Raises.append (h : Raises limit ms peak load)
    (h' : Raises limit ns peak' load') :
    Raises limit (ms ++ ns) (max peak (load + peak')) (load + load') where
  load_le := by
    have hle := h'.load_le
    omega
  clears_iff := by
    intro levels hdepth rest
    have hle := h.load_le
    have hcount := depth_count_operators levels load
    rw [List.append_assoc, h.clears_iff levels hdepth, ← count_operators_count]
    constructor
    · rintro ⟨hpeak, hrest⟩
      obtain ⟨hpeak', hrest⟩ := (h'.clears_iff _ (by omega) rest).mp hrest
      exact ⟨by omega, hrest⟩
    · rintro ⟨hpeak, hrest⟩
      exact ⟨by omega, (h'.clears_iff _ (by omega) rest).mpr ⟨by omega, hrest⟩⟩

theorem Raises.operators (h : Raises limit ms peak load) (n : Nat) :
    Raises limit (.operators n :: ms) (n + peak) (n + load) := by
  have hfirst : Raises limit [.operators n] n n := raises_operators n
  have hcons := hfirst.append h
  rwa [Nat.max_eq_right (Nat.le_add_right n peak)] at hcons

theorem Raises.enclosed (h : Raises limit ms peak load) :
    Raises limit (.opening :: (ms ++ [.closing])) (1 + peak) 0 where
  load_le := Nat.zero_le _
  clears_iff := by
    intro levels hdepth rest
    have hopened := depth_count_opening levels
    have hclosed :
        ((levels.count .opening).count (.operators load)).count .closing =
        levels.count (.operators 0) := rfl
    have hkept : (levels.count (.operators 0)).depth ≤ limit := hdepth
    have htext : .opening :: (ms ++ [.closing]) ++ rest =
        .opening :: (ms ++ .closing :: rest) := by
      simp
    rw [htext, Clears]
    constructor
    · rintro ⟨hopen, hms⟩
      obtain ⟨hpeak, hclose⟩ := (h.clears_iff _ hopen _).mp hms
      rw [Clears, hclosed] at hclose
      exact ⟨by omega, hclose.2⟩
    · rintro ⟨hpeak, hrest⟩
      have hopen : (levels.count .opening).depth ≤ limit := by omega
      refine ⟨hopen, (h.clears_iff _ hopen _).mpr ⟨by omega, ?_⟩⟩
      rw [Clears, hclosed]
      exact ⟨hkept, hrest⟩

theorem Emits.excess?_eq_none_iff {layer : Layer} {cs : List Char}
    (h : Emits layer cs [] ms) (hms : Raises maxNesting ms peak load) :
    excess? layer cs = none ↔ peak ≤ maxNesting := by
  obtain ⟨found, stop, hfound, rfl⟩ := h 0
  have hdepth : (⟨0, []⟩ : Levels).depth ≤ maxNesting := Nat.zero_le _
  have hclears := hms.clears_iff ⟨0, []⟩ hdepth []
  have hnone : marks layer .between stop [] = [] := rfl
  rw [List.append_nil, hnone, List.append_nil] at hfound
  rw [List.append_nil] at hclears
  rw [excess?, hfound, firstBeyond_eq_none_iff, hclears]
  simp [Clears, Levels.depth]

end Nesting

namespace Formula

open Nesting

/-! ## The peak of a formula -/

def encloseLoad : Formula → Nat → Nat
  | derived _ _ _, _ => 0
  | _, n => n

def enclosePeak : Formula → Nat → Nat
  | derived _ _ _, n => 1 + n
  | _, n => n

/-- How many operators the canonical text leaves counted behind it.  Those
between parentheses are forgotten at the closing one. -/
def load (layer : Layer) : Formula → Nat
  | literal _ | junction _ _ | binary _ _ _ => 0
  | var name => wordWeight layer name.toList
  | not a | unary _ a => 1 + encloseLoad a (a.load layer)
  | derived _ a b =>
      encloseLoad a (a.load layer) + (1 + encloseLoad b (b.load layer))

mutual

/-- The depth that the canonical text comes to.  An operand stands behind all
that is counted of the operands before it. -/
def peak (layer : Layer) : Formula → Nat
  | literal _ => 0
  | var name => wordWeight layer name.toList
  | not a | unary _ a => 1 + enclosePeak a (a.peak layer)
  | junction _ args => 1 + peakAll layer args
  | derived _ a b =>
      max (enclosePeak a (a.peak layer))
        (encloseLoad a (a.load layer) + (1 + enclosePeak b (b.peak layer)))
  | binary _ a b =>
      1 + max (enclosePeak a (a.peak layer))
        (encloseLoad a (a.load layer) + (1 + enclosePeak b (b.peak layer)))

def peakAll (layer : Layer) : List Formula → Nat
  | [] => 0
  | a :: rest =>
      max (enclosePeak a (a.peak layer))
        (encloseLoad a (a.load layer) + peakAll layer rest)

end

variable {layer : Layer} {limit : Nat} {a f : Formula}

theorem raises_operand
    (h : Raises limit (a.marks layer) (a.peak layer) (a.load layer)) :
    Raises limit (encloseMarks a (a.marks layer)) (enclosePeak a (a.peak layer))
      (encloseLoad a (a.load layer)) := by
  cases a with
  | derived c a b => exact h.enclosed
  | literal | var | not | junction | unary | binary => exact h

private theorem raises_marksAll {args : List Formula}
    (h : ∀ a ∈ args,
      Raises limit (a.marks layer) (a.peak layer) (a.load layer)) :
    ∃ load, Raises limit (marksAll layer args) (peakAll layer args) load := by
  induction args with
  | nil => exact ⟨0, raises_nil⟩
  | cons a rest ih =>
      obtain ⟨ha, hrest⟩ := List.forall_mem_cons.mp h
      obtain ⟨load, hload⟩ := ih hrest
      exact ⟨_, (raises_operand ha).append hload⟩

theorem raises_marks (limit : Nat) (layer : Layer) (f : Formula) :
    Raises limit (f.marks layer) (f.peak layer) (f.load layer) := by
  induction f using induct with
  | literal value => exact raises_operators 0
  | var name => exact raises_operators _
  | not a ih => exact (raises_operand ih).operators 1
  | junction k args ih =>
      obtain ⟨load, hload⟩ := raises_marksAll ih
      exact hload.enclosed
  | derived c a b iha ihb =>
      exact (raises_operand iha).append ((raises_operand ihb).operators 1)
  | unary m a ih => exact (raises_operand ih).operators 1
  | binary m a b iha ihb =>
      exact ((raises_operand iha).append
        ((raises_operand ihb).operators 1)).enclosed

theorem excess?_text_iff {quotes : Prop} (hquotes : ¬ quotes)
    (hf : f.Written layer quotes) :
    excess? layer f.text.toList = none ↔ f.peak layer ≤ maxNesting := by
  rw [text, String.toList_ofList]
  exact (emits_chars hquotes hf [] endsName_nil).excess?_eq_none_iff
    (raises_marks _ layer f)

/-- The canonical text of what was read is refused for its nesting just if its
peak is too high, whatever the depth of the text that was read. -/
theorem excess?_text_of_parse {source : String} (hquotes : '"' ∉ source.toList)
    (h : parse layer source = .ok f) :
    excess? layer f.text.toList = none ↔ f.peak layer ≤ maxNesting :=
  excess?_text_iff hquotes (written_of_parse h)

theorem excess?_text_of_parse_until :
    ∃ f, parse .ltl "a U (b U c) -> !(d -> e)" = .ok f ∧ f.peak .ltl = 4 ∧
      excess? .ltl f.text.toList = none := by
  have hparse : parse .ltl "a U (b U c) -> !(d -> e)" = .ok
      (derived .implies
        (binary (.until none) (var "a")
          (binary (.until none) (var "b") (var "c")))
        (not (derived .implies (var "d") (var "e")))) := by
    decide +kernel
  exact ⟨_, hparse, by decide,
    (excess?_text_of_parse (by decide +kernel) hparse).mpr (by decide)⟩

end Formula

/-! ## Chains of implications -/

namespace Formula

open Nesting

def impliesAll (first : Formula) : List Formula → Formula
  | [] => first
  | second :: others => derived .implies first (impliesAll second others)

def impliesAllChars (first : Formula) (others : List Formula) : List Char :=
  first.operandChars ++
    others.flatMap fun a =>
      ' ' :: Connective.implies.symbol ++ ' ' :: a.operandChars

variable {layer : Layer} {first : Formula} {others : List Formula}

private theorem means_groupRight {t : Tree} {ts : List Tree}
    (ht : Tree.Means layer (.formula first) t)
    (hts : List.Forall₂ (fun a => Tree.Means layer (.formula a)) others ts) :
    Tree.Means layer (.formula (impliesAll first others))
      (Tree.groupRight .implies t ts) := by
  induction hts generalizing first t with
  | nil => exact ht
  | cons hu _ ih => exact Reader.means_pair ht (ih hu)

private theorem length_operandChars_le {a : Formula}
    (ha : a ∈ first :: others) :
    a.operandChars.length ≤ (impliesAllChars first others).length := by
  have htext : impliesAllChars first others =
      (' ' :: Connective.implies.symbol ++ [' ']).intercalate
        ((first :: others).map operandChars) := by
    rw [List.map_cons, intercalate_cons, List.flatMap_map, impliesAllChars]
    simp only [List.append_assoc, List.cons_append, List.nil_append]
  rw [htext]
  exact length_le_intercalate _ (List.mem_map_of_mem ha)

private theorem takes_impliesAll
    (hcanonical : ∀ a ∈ first :: others, a.Canonical layer) :
    Reader.Takes (Reader.sentence layer) (impliesAllChars first others)
      (Tree.Means layer (.formula (impliesAll first others))) [] := by
  have hrecovers : ∀ a ∈ first :: others,
      (Reader.operand layer
        ((impliesAllChars first others).length + 1)).Recovers layer a := by
    intro a ha
    have hdepth := depth_le_length (hcanonical a ha)
    have hchars := length_chars_le a
    have hlength := length_operandChars_le ha
    exact recovers_operand (hcanonical a ha) (by omega)
  have hfirst := (hrecovers first List.mem_cons_self).opens
  have hformula : Reader.Takes (Reader.formula layer _) _ _ _ :=
    Reader.takes_formula_chain (Reader.rung_connective .implies)
      (fun a ha => (hrecovers a ha).takes)
      (fun a ha => (hrecovers a (List.mem_cons_of_mem _ ha)).opens.skip_append)
      before_nil
  apply Reader.takes_sentence
  rw [impliesAllChars, hfirst.skip_append]
  rw [List.append_nil] at hformula
  apply hformula.mono
  rintro _ ⟨t, ts, rfl, ht, hts⟩
  exact means_groupRight ht hts

theorem written_of_canonical {f : Formula} (h : f.Canonical layer) :
    f.Written layer False := by
  intro g hg
  obtain ⟨-, hbelongs, hreadable⟩ := h g hg
  cases g with
  | literal value => exact absurd hreadable id
  | var name => exact Or.inr ⟨hreadable.identifier, hreadable.free⟩
  | unary m a => exact ⟨hbelongs, hreadable⟩
  | binary m a b => exact ⟨hbelongs, hreadable⟩
  | not | junction | derived => trivial

def Flat (layer : Layer) (a : Formula) : Prop :=
  enclosePeak a (a.peak layer) = 0

theorem Flat.raises {a : Formula} (h : a.Flat layer) (limit : Nat) :
    encloseLoad a (a.load layer) = 0 ∧
    Raises limit (a.operandMarks layer) 0 0 := by
  have hraises := raises_operand (raises_marks limit layer a)
  rw [Flat] at h
  have hload : encloseLoad a (a.load layer) = 0 := by
    have hle := hraises.load_le
    omega
  rw [h, hload] at hraises
  exact ⟨hload, hraises⟩

theorem endsName_implications (others : List Formula) {rest : List Char}
    (hrest : EndsName rest) :
    EndsName
      ((others.flatMap fun a =>
      ' ' :: Connective.implies.symbol ++ ' ' :: a.operandChars) ++
      rest) := by
  cases others with
  | nil => exact hrest
  | cons a others => exact endsName_space _

private theorem emits_implications {quotes : Prop} (hquotes : ¬ quotes)
    (hwritten : ∀ a ∈ others, a.Written layer quotes) {rest : List Char}
    (hrest : EndsName rest) :
    Emits layer
      (others.flatMap fun a =>
      ' ' :: Connective.implies.symbol ++ ' ' :: a.operandChars)
      rest (others.flatMap fun a => .operators 1 :: a.operandMarks layer) := by
  induction others with
  | nil => exact emits_nil
  | cons a others ih =>
      obtain ⟨ha, hothers⟩ := List.forall_mem_cons.mp hwritten
      have hoperand :=
        (emits_chars hquotes ha).operand (endsName_implications others hrest)
      exact (emits_connective .implies hoperand).append (ih hothers)

private theorem raises_implications {limit : Nat}
    (h : ∀ a ∈ others, Raises limit (a.operandMarks layer) 0 0) :
    Raises limit (others.flatMap fun a => .operators 1 :: a.operandMarks layer)
      others.length
      others.length := by
  induction others with
  | nil => exact raises_nil
  | cons a others ih =>
      obtain ⟨ha, hothers⟩ := List.forall_mem_cons.mp h
      have hcons := (ha.operators 1).append (ih hothers)
      rw [Nat.max_eq_right (Nat.le_add_right _ _)] at hcons
      rw [List.flatMap_cons, List.length_cons, Nat.add_comm]
      exact hcons

theorem excess?_impliesAll
    (hcanonical : ∀ a ∈ first :: others, a.Canonical layer)
    (hflat : ∀ a ∈ first :: others, a.Flat layer) :
    excess? layer (impliesAllChars first others) = none ↔
    others.length ≤ maxNesting := by
  have hquotes : ¬ False := id
  obtain ⟨hfirst, hothers⟩ := List.forall_mem_cons.mp
    fun a ha => written_of_canonical (hcanonical a ha)
  obtain ⟨hflat, hflats⟩ := List.forall_mem_cons.mp hflat
  have hoperand :=
    (emits_chars hquotes hfirst).operand
      (endsName_implications others endsName_nil)
  have hemits :=
    hoperand.append (emits_implications hquotes hothers endsName_nil)
  have hraises := (hflat.raises maxNesting).2.append
    (raises_implications fun a ha => ((hflats a ha).raises maxNesting).2)
  rw [Nat.zero_add, Nat.zero_max] at hraises
  exact hemits.excess?_eq_none_iff hraises

/-- Every implication but the last stands between parentheses in the canonical
text. -/
private theorem peak_impliesAll (hflat : ∀ a ∈ first :: others, a.Flat layer)
    (hne : others ≠ []) :
    (impliesAll first others).peak layer + 1 = 2 * others.length := by
  induction others generalizing first with
  | nil => exact absurd rfl hne
  | cons second others ih =>
      obtain ⟨hfirst, hothers⟩ := List.forall_mem_cons.mp hflat
      have hload := (hfirst.raises 0).1
      rw [Flat] at hfirst
      rw [impliesAll, peak, hfirst, hload]
      cases others with
      | nil =>
          have hsecond : enclosePeak second (second.peak layer) = 0 :=
            hothers second List.mem_cons_self
          simp [impliesAll, hsecond]
      | cons third others =>
          have hrest := ih hothers (List.cons_ne_nil _ _)
          have henclose : enclosePeak (impliesAll second (third :: others))
              ((impliesAll second (third :: others)).peak layer) =
              1 + (impliesAll second (third :: others)).peak layer := rfl
          rw [henclose, List.length_cons]
          rw [List.length_cons] at hrest ⊢
          omega

private theorem parse_impliesAll
    (hcanonical : ∀ a ∈ first :: others, a.Canonical layer)
    (hflat : ∀ a ∈ first :: others, a.Flat layer)
    (hlength : others.length ≤ maxNesting) :
    parse layer (String.ofList (impliesAllChars first others)) =
      .ok (impliesAll first others) := by
  apply parse_of_takes
  · rw [String.toList_ofList]
    exact (excess?_impliesAll hcanonical hflat).mpr hlength
  · rw [String.toList_ofList]
    exact takes_impliesAll hcanonical

def arrows (n : Nat) : Formula :=
  impliesAll (var "a") (List.replicate n (var "a"))

def arrowsText (n : Nat) : String :=
  String.ofList (impliesAllChars (var "a") (List.replicate n (var "a")))

theorem flat_a : (var "a").Flat .base := rfl

theorem forall_mem_arrows {P : Formula → Prop} (h : P (var "a")) (n : Nat) :
    ∀ a ∈ var "a" :: List.replicate n (var "a"), P a := by
  rw [← List.replicate_succ]
  intro a ha
  rwa [List.eq_of_mem_replicate ha]

private theorem written_impliesAll {quotes : Prop}
    (h : ∀ a ∈ first :: others, a.Written layer quotes) :
    (impliesAll first others).Written layer quotes := by
  induction others generalizing first with
  | nil => exact h first List.mem_cons_self
  | cons second others ih =>
      obtain ⟨hfirst, hothers⟩ := List.forall_mem_cons.mp h
      exact written_derived .implies hfirst (ih hothers)

private theorem peak_arrows (n : Nat) : (arrows n).peak .base = 2 * n - 1 := by
  cases n with
  | zero => rfl
  | succ n =>
      have hflat : ∀ a ∈ var "a" :: List.replicate (n + 1) (var "a"),
          a.Flat .base :=
        forall_mem_arrows flat_a (n + 1)
      have hpeak := peak_impliesAll hflat (by simp)
      rw [List.length_replicate] at hpeak
      rw [arrows]
      omega

/-- The text of the chain is read as long as it has no more arrows than the
limit, the canonical text of what was read only up to about half as many. -/
private theorem parse_arrows_iff (n : Nat) :
    (parse .base (arrowsText n) = .ok (arrows n) ↔ n ≤ maxNesting) ∧
      (excess? .base (arrows n).text.toList = none ↔
        2 * n - 1 ≤ maxNesting) := by
  have hvar : (var "a").Canonical .base :=
    canonical_iff.mpr ⟨⟨trivial, rfl, by decide⟩, by simp [children]⟩
  have hcanonical := forall_mem_arrows hvar n
  have hflat := forall_mem_arrows flat_a n
  have hwritten : (arrows n).Written .base False :=
    written_impliesAll fun a ha => written_of_canonical (hcanonical a ha)
  constructor
  · constructor
    · intro h
      obtain ⟨t, ht, -⟩ := parse_eq_ok_iff.mp h
      have hnesting := (Tree.parse_eq_ok_iff.mp ht).1
      rw [arrowsText, String.toList_ofList, excess?_impliesAll hcanonical hflat]
        at hnesting
      rwa [List.length_replicate] at hnesting
    · intro h
      exact parse_impliesAll hcanonical hflat (by rwa [List.length_replicate])
  · rw [excess?_text_iff id hwritten]
    exact iff_of_eq (congrArg (· ≤ maxNesting) (peak_arrows n))

/-- A chain of 129 arrows is read, but its canonical text is refused. -/
theorem excess?_text_arrows :
    parse .base (arrowsText 129) = .ok (arrows 129) ∧
    '"' ∉ (arrowsText 129).toList ∧
      excess? .base (arrows 129).text.toList ≠ none := by
  obtain ⟨hparse, hexcess⟩ := parse_arrows_iff 129
  have hquotes :
      '"' ∉ impliesAllChars (var "a") (List.replicate 129 (var "a")) := by
    decide +kernel
  refine ⟨hparse.mpr (by decide), by rwa [arrowsText, String.toList_ofList], ?_⟩
  rw [ne_eq, hexcess]
  decide

end Formula

end LayeredLogic
