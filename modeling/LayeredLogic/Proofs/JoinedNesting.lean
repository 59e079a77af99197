import LayeredLogic.Proofs.Consumption
import LayeredLogic.Proofs.TextNesting
import Mathlib.Algebra.GroupWithZero.Nat

/-!
# The nesting of joined texts

A text that is read alone closes the parentheses and brackets that it opens, so
the scan of texts joined by `&` or `|` comes back to the outermost level after
each of them.  The signs between them count for nothing, but what the scan
counts outside parentheses stays counted up to the end, and every operand stands
behind the counts of all the operands before it.
-/

namespace LayeredLogic

namespace Junction

def separator : Junction → String
  | and => " & "
  | or => " | "

theorem toList_separator (k : Junction) :
    k.separator.toList = ' ' :: k.symbol ++ [' '] := by
  cases k <;> rfl

end Junction

namespace Nesting

variable {layer : Layer} {c : Char} {s t cs rest : List Char}
  {ms ns : List Mark}

/-! ## Marks without their places -/

def Mode.startingAt (start : Nat) : Mode → Mode
  | .word _ reversed => .word start reversed
  | mode => mode

private theorem enter_eq_startingAt (start : Nat) (c : Char) :
    enter start c = (enter 0 c).startingAt start := by
  unfold enter
  repeat' split
  all_goals rfl

theorem map_fst_marks (mode : Mode) (start offset : Nat) (cs : List Char) :
    (marks layer (mode.startingAt start) offset cs).map Prod.fst =
      (marks layer (mode.startingAt 0) 0 cs).map Prod.fst := by
  induction cs generalizing mode start offset with
  | nil => cases mode <;> rfl
  | cons c cs ih =>
      have henter :
          ∀ start offset, (marks layer (enter start c) offset cs).map Prod.fst =
          (marks layer ((enter 0 c).startingAt 0) 0 cs).map Prod.fst := by
        intro start offset
        rw [enter_eq_startingAt]
        exact ih _ _ _
      have hmark : ∀ start stop, ((mark? c cs).map fun mark =>
          (mark, (⟨start, stop⟩ : Span))).toList.map Prod.fst =
            (mark? c cs).toList := by
        intro start stop
        cases mark? c cs <;> rfl
      cases mode with
      | between =>
          simp only [Mode.startingAt, marks, List.map_append, hmark, henter]
      | word _ reversed =>
          by_cases hc : isNameChar c
          · have hword : ∀ start offset,
                (marks layer (.word start (c :: reversed)) offset cs).map
                Prod.fst =
                  (marks layer (.word 0 (c :: reversed)) 0 cs).map Prod.fst :=
              fun start offset => ih (.word 0 (c :: reversed)) start offset
            simp only [Mode.startingAt, marks, hc, if_true, hword]
          · simp only [Mode.startingAt, marks, hc, Bool.false_eq_true, if_false,
              List.map_cons, List.map_append, hmark, henter]
      | skipping close escaped =>
          have hskip : ∀ offset,
              (marks layer (skip close escaped c) offset cs).map Prod.fst =
              (marks layer (skip close escaped c) 0 cs).map Prod.fst := by
            intro offset
            have hmode : (skip close escaped c).startingAt 0 =
                skip close escaped c := by
              unfold skip
              repeat' split
              all_goals rfl
            rw [← hmode]
            exact ih _ _ _
          simp only [Mode.startingAt, marks, hskip]

def modeOf (word : Option (List Char)) : Mode := word.elim .between (.word 0)

def marksFrom (layer : Layer) (word : Option (List Char)) (cs : List Char) :
    List Mark :=
  (marks layer (modeOf word) 0 cs).map Prod.fst

theorem marksFrom_eq (offset : Nat) (cs : List Char) :
    marksFrom layer none cs = (marks layer .between offset cs).map Prod.fst :=
  (map_fst_marks .between 0 offset cs).symm

theorem Emits.marksFrom_append (h : Emits layer cs rest ms) :
    marksFrom layer none (cs ++ rest) = ms ++ marksFrom layer none rest := by
  obtain ⟨found, stop, hfound, rfl⟩ := h 0
  rw [marksFrom_eq 0, hfound, List.map_append, marksFrom_eq stop]

def wordMarks (layer : Layer) : Option (List Char) → List Mark
  | none => []
  | some reversed => [.operators (wordWeight layer reversed.reverse)]

theorem marksFrom_of_endsName (word : Option (List Char)) (hcs : EndsName cs) :
    marksFrom layer word cs =
      wordMarks layer word ++ marksFrom layer none cs := by
  cases word with
  | none => rfl
  | some reversed =>
      have hempty : ∀ c ∈ ([] : List Char), isNameChar c = true := by simp
      obtain ⟨span, stop, hmarks⟩ := marks_word layer hempty hcs 0 0 reversed
      rw [List.nil_append, List.append_nil] at hmarks
      rw [marksFrom, modeOf, Option.elim_some, hmarks, List.map_cons,
        ← marksFrom_eq stop]
      rfl

theorem marksFrom_word_cons (reversed : List Char) (hc : isNameChar c = true)
    (cs : List Char) :
    marksFrom layer (some reversed) (c :: cs) =
      marksFrom layer (some (c :: reversed)) cs := by
  rw [marksFrom, modeOf, Option.elim_some, marks, if_pos hc]
  exact map_fst_marks (.word 0 (c :: reversed)) 0 _ cs

theorem marksFrom_nameStart (hc : isNameStart c = true) (cs : List Char) :
    marksFrom layer none (c :: cs) = marksFrom layer (some [c]) cs := by
  obtain ⟨hmark, henter⟩ := mark?_of_isNameStart hc cs 0
  rw [marksFrom, modeOf, Option.elim_none, marks, hmark, henter]
  exact map_fst_marks (.word 0 [c]) 0 _ cs

/-! ## Balanced texts -/

/-- From between words or from inside a word, the text closes all that it opens,
so that its marks take the depth up to some peak and leave it higher by some
load.  They hang on what follows only in so far as it may begin with the head of
an arrow. -/
def Balanced (layer : Layer) (s : List Char) : Prop :=
  ∀ (word : Option (List Char)) (arrow : Bool), ∃ ms word' peak load,
    (∀ limit, Raises limit ms peak load) ∧
    ∀ rest, (rest.head? == some '>') = arrow →
      marksFrom layer word (s ++ rest) = ms ++ marksFrom layer word' rest

theorem raises_wordMarks (layer : Layer) (word : Option (List Char)) :
    ∃ n, ∀ limit, Raises limit (wordMarks layer word) n n := by
  cases word with
  | none => exact ⟨0, fun _ => raises_nil⟩
  | some reversed => exact ⟨_, fun _ => raises_operators _⟩

theorem balanced_cons (hc : isNameChar c = false)
    (h : ∀ arrow, ∃ ms word' peak load, (∀ limit, Raises limit ms peak load) ∧
      ∀ rest, (rest.head? == some '>') = arrow →
        marksFrom layer none (c :: s ++ rest) =
          ms ++ marksFrom layer word' rest) : Balanced layer (c :: s) := by
  intro word arrow
  obtain ⟨ms, word', peak, load, hraises, hmarks⟩ := h arrow
  obtain ⟨n, hn⟩ := raises_wordMarks layer word
  refine ⟨wordMarks layer word ++ ms, word', _, _,
    fun limit => (hn limit).append (hraises limit),
    fun rest hrest => ?_⟩
  have hends : EndsName (c :: s ++ rest) := by
    rintro _ ⟨⟩
    exact hc
  rw [marksFrom_of_endsName word hends, hmarks rest hrest, List.append_assoc]

theorem balanced_of_emits (hc : isNameChar c = false)
    (h : ∀ rest, Emits layer (c :: s) rest []) : Balanced layer (c :: s) :=
  balanced_cons hc fun _ => ⟨[], none, 0, 0, fun _ => raises_nil,
    fun rest _ => (h rest).marksFrom_append⟩

private theorem mark?_congr
    (h : (s.head? == some '>') = (t.head? == some '>')) :
    mark? c s = mark? c t := by
  have hhead : s.head? = some '>' ↔ t.head? = some '>' := by
    rw [← beq_iff_eq, h, beq_iff_eq]
  simp only [mark?, hhead]

private theorem raises_mark? (hc : c ∉ delimiters) (rest : List Char) :
    ∃ n, ∀ limit, Raises limit (mark? c rest).toList n n := by
  simp only [delimiters, List.mem_cons, not_or] at hc
  obtain ⟨hopening, hclosing, -⟩ := hc
  unfold mark?
  rw [if_neg hopening, if_neg hclosing]
  repeat' split
  · exact ⟨1, fun _ => raises_operators 1⟩
  · exact ⟨1, fun _ => raises_operators 1⟩
  · exact ⟨0, fun _ => raises_nil⟩

private theorem balanced_plain (hc : c ∉ delimiters) : Balanced layer [c] := by
  have hskipped : c ∉ skipped := by
    simp only [delimiters, skipped, List.mem_cons, List.not_mem_nil, or_false,
      not_or] at hc ⊢
    exact ⟨hc.2.2.2.1, hc.2.2.2.2.2.1, hc.2.2.1⟩
  have hbetween :
      ∀ arrow, ∃ ms word' peak load, (∀ limit, Raises limit ms peak load) ∧
      ∀ rest, (rest.head? == some '>') = arrow →
        marksFrom layer none (c :: rest) =
          ms ++ marksFrom layer word' rest := by
    intro arrow
    by_cases hstart : isNameStart c = true
    · exact ⟨[], some [c], 0, 0, fun _ => raises_nil,
        fun rest _ => marksFrom_nameStart hstart rest⟩
    · obtain ⟨follower, hfollower⟩ : ∃ follower : List Char,
          (follower.head? == some '>') = arrow := by
        cases arrow with
        | false => exact ⟨[], rfl⟩
        | true => exact ⟨['>'], rfl⟩
      obtain ⟨n, hn⟩ := raises_mark? hc follower
      refine ⟨_, none, n, n, hn, fun rest hrest => ?_⟩
      rw [mark?_congr (hfollower.trans hrest.symm)]
      exact (emits_char (Bool.eq_false_iff.mpr hstart) hskipped
        rest).marksFrom_append
  by_cases hname : isNameChar c = true
  · intro word arrow
    cases word with
    | none => exact hbetween arrow
    | some reversed =>
        exact ⟨[], some (c :: reversed), 0, 0, fun _ => raises_nil,
          fun rest _ => marksFrom_word_cons reversed hname rest⟩
  · exact balanced_cons (Bool.eq_false_iff.mpr hname) hbetween

theorem emits_quoted {items : List (List Char)}
    (hitems : ∀ item ∈ items, QuotedItem item) (rest : List Char) :
    Emits layer ('"' :: items.flatten ++ ['"']) rest [] := by
  intro offset
  obtain ⟨stop, hstop⟩ :
      ∃ stop, marks layer (.skipping '"' false) (offset + '"'.utf8Size)
      (items.flatten ++ '"' :: rest) = marks layer .between stop rest :=
    marks_quoted layer hitems _
  have htext : '"' :: items.flatten ++ ['"'] ++ rest =
      '"' :: (items.flatten ++ '"' :: rest) := by
    simp
  refine ⟨[], stop, ?_, rfl⟩
  rw [htext, List.nil_append, ← hstop]
  rfl

theorem Balanced.marksFrom_group (hs : Balanced layer s) :
    ∃ ms peak, (∀ limit, Raises limit ms peak 0) ∧ ∀ rest,
      marksFrom layer none ('(' :: (s ++ ')' :: rest)) =
        ms ++ marksFrom layer none rest := by
  obtain ⟨ms, word, peak, load, hms, hmarks⟩ := hs none false
  obtain ⟨n, hn⟩ := raises_wordMarks layer word
  refine ⟨.opening :: (ms ++ wordMarks layer word ++ [.closing]), _,
    fun limit => ((hms limit).append (hn limit)).enclosed, fun rest => ?_⟩
  have hopen : Emits layer ['('] (s ++ ')' :: rest) [.opening] :=
    emits_char rfl (by decide) _
  have hclose : Emits layer [')'] rest [.closing] :=
    emits_char rfl (by decide) _
  have hopened := hopen.marksFrom_append
  have hclosed := hclose.marksFrom_append
  have hword : marksFrom layer word (')' :: rest) = _ :=
    marksFrom_of_endsName word (before_close rest).1
  rw [List.singleton_append] at hopened hclosed
  rw [hopened, hmarks _ rfl, hword, hclosed]
  simp

private theorem balanced_group (hs : Balanced layer s) :
    Balanced layer ('(' :: (s ++ [')'])) := by
  refine balanced_cons (by decide) fun _ => ?_
  obtain ⟨ms, peak, hms, hmarks⟩ := hs.marksFrom_group
  refine ⟨ms, none, peak, 0, hms, fun rest _ => ?_⟩
  rw [← hmarks rest]
  simp

theorem layout_balanced (layer : Layer) : Layout (Balanced layer) where
  nil word _ := ⟨[], word, 0, 0, fun _ => raises_nil, fun _ _ => rfl⟩
  append := by
    intro s t hs ht word arrow
    obtain ⟨ms, word', _, _, hms, hmarks⟩ :=
      hs word (if t = [] then arrow else t.head? == some '>')
    obtain ⟨ns, word'', _, _, hns, hmarks'⟩ := ht word' arrow
    refine ⟨ms ++ ns, word'', _, _, fun limit => (hms limit).append (hns limit),
      fun rest hrest => ?_⟩
    have hfollows : ((t ++ rest).head? == some '>') =
        if t = [] then arrow else t.head? == some '>' := by
      cases t with
      | nil => exact hrest
      | cons d t => rfl
    rw [List.append_assoc, hmarks _ hfollows, hmarks' rest hrest,
      List.append_assoc]
  plain := balanced_plain
  quoted hitems := balanced_of_emits (by decide) (emits_quoted hitems)
  brackets hs := balanced_of_emits (by decide) fun _ =>
    emits_brackets fun hmem => hs _ hmem (by decide)
  braces hs := balanced_of_emits (by decide) fun _ =>
    emits_braces fun hmem => hs _ hmem (by decide)
  group := balanced_group

private theorem balanced_of_sentence {c c' : Cursor} {t : Tree}
    (h : Reader.result? (Reader.sentence layer) c = some (t, c')) :
    Balanced layer c.rest := by
  obtain ⟨before, after, hbefore, hformula, hafter⟩ :=
    Reader.result?_sentence_eq_some h
  have hlayout := layout_balanced layer
  obtain ⟨taken, htaken, hrest⟩ :=
    hlayout.formula (hlayout.operand _) before t after hformula
  have hblank : ∀ cs : List Char, Balanced layer (cs.takeWhile isBlank) :=
    fun cs =>
    hlayout.blank (List.all_eq_true.mp List.all_takeWhile)
  have htext : c.rest =
      c.rest.takeWhile isBlank ++ (taken ++ after.rest.takeWhile isBlank) := by
    have hend : after.rest =
        after.rest.takeWhile isBlank ++ LayeredLogic.skip after.rest :=
      List.takeWhile_append_dropWhile.symm
    rw [hafter, List.append_nil] at hend
    rw [← hend, ← hrest, hbefore, LayeredLogic.skip,
      List.takeWhile_append_dropWhile]
  rw [htext]
  exact hlayout.append (hblank _) (hlayout.append htaken (hblank _))

/-- The marks of what follows a balanced text come behind those of the text,
unless it goes on with its last word or sign. -/
theorem Balanced.marksFrom_append (h : Balanced layer s) (hrest : EndsName rest)
    (harrow : rest.head? ≠ some '>') :
    marksFrom layer none (s ++ rest) =
      marksFrom layer none s ++ marksFrom layer none rest := by
  obtain ⟨ms, word, _, _, -, hmarks⟩ := h none false
  have halone := hmarks [] rfl
  have hjoined := hmarks rest (beq_eq_false_iff_ne.mpr harrow)
  rw [List.append_nil, marksFrom_of_endsName word endsName_nil] at halone
  rw [marksFrom_of_endsName word hrest] at hjoined
  have hnil : marksFrom layer none [] = [] := rfl
  rw [hjoined, halone, hnil]
  simp

theorem Balanced.raises (h : Balanced layer s) :
    ∃ peak load, ∀ limit, Raises limit (marksFrom layer none s) peak load := by
  obtain ⟨ms, word, _, _, hms, hmarks⟩ := h none false
  obtain ⟨n, hn⟩ := raises_wordMarks layer word
  have halone := hmarks [] rfl
  have hnil : marksFrom layer none [] = [] := rfl
  rw [List.append_nil, marksFrom_of_endsName word endsName_nil, hnil,
    List.append_nil] at halone
  rw [halone]
  exact ⟨_, _, fun limit => (hms limit).append (hn limit)⟩

/-! ## Peak and load of a text -/

def Levels.highest : Levels → List Mark → Nat
  | levels, [] => levels.depth
  | levels, mark :: ms => max levels.depth ((levels.count mark).highest ms)

def peakOf (layer : Layer) (source : String) : Nat :=
  Levels.highest ⟨0, []⟩ ((marks layer .between 0 source.toList).map Prod.fst)

/-- The depth that the scan of a text ends at. -/
def loadOf (layer : Layer) (source : String) : Nat :=
  (((marks layer .between 0 source.toList).map Prod.fst).foldl Levels.count
    ⟨0, []⟩).depth

variable {levels : Levels} {limit peak load : Nat}

theorem clears_iff_highest_le (hdepth : levels.depth ≤ limit) :
    Clears limit levels ms ↔ levels.highest ms ≤ limit := by
  induction ms generalizing levels with
  | nil => exact ⟨fun _ => hdepth, fun _ => trivial⟩
  | cons mark ms ih =>
      rw [Clears, Levels.highest, Nat.max_le]
      constructor
      · rintro ⟨hmark, hms⟩
        exact ⟨hdepth, (ih hmark).mp hms⟩
      · rintro ⟨-, hms⟩
        have hmark : (levels.count mark).depth ≤ limit := by
          cases ms with
          | nil => exact hms
          | cons => exact (Nat.le_max_left _ _).trans hms
        exact ⟨hmark, (ih hmark).mpr hms⟩

private theorem highest_append (levels : Levels) (ms ns : List Mark) :
    levels.highest (ms ++ ns) =
      max (levels.highest ms) ((ms.foldl Levels.count levels).highest ns) := by
  induction ms generalizing levels with
  | nil =>
      have hle : levels.depth ≤ levels.highest ns := by
        cases ns with
        | nil => exact Nat.le_refl _
        | cons => exact Nat.le_max_left _ _
      exact (Nat.max_eq_right hle).symm
  | cons mark ms ih =>
      rw [List.cons_append, Levels.highest, ih, Levels.highest, List.foldl_cons,
        Nat.max_assoc]

theorem highest_of_raises (h : ∀ limit, Raises limit ms peak load) :
    Levels.highest ⟨0, []⟩ ms = peak := by
  have hiff : ∀ limit, Levels.highest ⟨0, []⟩ ms ≤ limit ↔ peak ≤ limit := by
    intro limit
    have hdepth : (⟨0, []⟩ : Levels).depth ≤ limit := Nat.zero_le limit
    have hclears := (h limit).clears_iff ⟨0, []⟩ hdepth []
    rw [List.append_nil] at hclears
    rw [← clears_iff_highest_le hdepth, hclears]
    simp [Clears, Levels.depth]
  exact Nat.le_antisymm ((hiff _).mpr (Nat.le_refl _))
    ((hiff _).mp (Nat.le_refl _))

/-- The depth at the end shows if some more operators follow, so many that they
are the peak. -/
theorem depth_of_raises (h : ∀ limit, Raises limit ms peak load) :
    (ms.foldl Levels.count ⟨0, []⟩).depth = load := by
  have hlonger : Levels.highest ⟨0, []⟩ (ms ++ [.operators peak]) =
      load + peak := by
    rw [highest_of_raises fun limit => (h limit).append (raises_operators peak)]
    exact Nat.max_eq_right (Nat.le_add_left _ _)
  rw [highest_append, highest_of_raises h, Levels.highest, Levels.highest,
    depth_count_operators] at hlonger
  omega

theorem Balanced.raises_source {source : String}
    (h : Balanced layer source.toList) :
    Raises limit (marksFrom layer none source.toList) (peakOf layer source)
      (loadOf layer source) := by
  obtain ⟨peak, load, hraises⟩ := h.raises
  have hpeak : peakOf layer source = peak := highest_of_raises hraises
  have hload : loadOf layer source = load := depth_of_raises hraises
  rw [hpeak, hload]
  exact hraises limit

/-! ## Joined texts -/

private theorem marksFrom_flatMap (k : Junction) {texts : List (List Char)}
    (h : ∀ s ∈ texts, Balanced layer s) (hs : Balanced layer s) :
    marksFrom layer none (s ++ texts.flatMap fun t => k.separator.toList ++ t) =
      marksFrom layer none s ++ texts.flatMap (marksFrom layer none) := by
  induction texts generalizing s with
  | nil => simp
  | cons t texts ih =>
      obtain ⟨ht, htexts⟩ := List.forall_mem_cons.mp h
      have hseparator : ∀ rest, Emits layer k.separator.toList rest [] := by
        intro rest
        have hemits : Emits layer (' ' :: k.symbol ++ [' '] ++ []) rest [] :=
          Formula.emits_separator k emits_nil
        rwa [List.append_nil, ← k.toList_separator] at hemits
      have hends : ∀ rest, EndsName (k.separator.toList ++ rest) ∧
          (k.separator.toList ++ rest).head? ≠ some '>' := by
        intro rest
        rw [k.toList_separator]
        exact ⟨Formula.endsName_space _, by simp⟩
      have hnext := (hseparator (t ++ texts.flatMap fun t =>
        k.separator.toList ++ t)).marksFrom_append
      rw [List.nil_append, ih htexts ht] at hnext
      rw [List.flatMap_cons, List.flatMap_cons, List.append_assoc,
        hs.marksFrom_append (hends _).1 (hends _).2, hnext]

private theorem marksFrom_joined (k : Junction) {texts : List String}
    (h : ∀ s ∈ texts, Balanced layer s.toList) :
    marksFrom layer none (k.separator.intercalate texts).toList =
      texts.flatMap fun s => marksFrom layer none s.toList := by
  rw [String.toList_intercalate]
  cases texts with
  | nil => rfl
  | cons s texts =>
      obtain ⟨hs, htexts⟩ := List.forall_mem_cons.mp h
      rw [List.map_cons, intercalate_cons, marksFrom_flatMap k _ hs,
        List.flatMap_map, List.flatMap_cons]
      simpa using htexts

private theorem clears_flatMap_iff {texts : List String}
    (h : ∀ s ∈ texts, Balanced layer s.toList) (hdepth : levels.depth ≤ limit) :
    Clears limit levels (texts.flatMap fun s => marksFrom layer none s.toList) ↔
      ∀ before s after, texts = before ++ s :: after →
        levels.depth + (before.map (loadOf layer)).sum + peakOf layer s ≤
          limit := by
  induction texts generalizing levels with
  | nil =>
      refine ⟨fun _ before s after htexts => ?_, fun _ => trivial⟩
      cases before <;> cases htexts
  | cons t texts ih =>
      obtain ⟨ht, htexts⟩ := List.forall_mem_cons.mp h
      have hraises : Raises limit _ _ _ := ht.raises_source
      have hload := hraises.load_le
      have hcount := depth_count_operators levels (loadOf layer t)
      rw [List.flatMap_cons, hraises.clears_iff levels hdepth]
      constructor
      · rintro ⟨hpeak, hrest⟩ before s after heq
        cases before with
        | nil =>
            obtain ⟨rfl, rfl⟩ := List.cons.inj heq
            simpa using hpeak
        | cons u before =>
            obtain ⟨rfl, rfl⟩ := List.cons.inj heq
            have hle := (ih htexts (by omega)).mp hrest before s after rfl
            rw [List.map_cons, List.sum_cons]
            omega
      · intro hall
        have hpeak : levels.depth + peakOf layer t ≤ limit := by
          simpa using hall [] t texts rfl
        refine ⟨hpeak, (ih htexts (by omega)).mpr fun before s after heq => ?_⟩
        have hle := hall (t :: before) s after (by rw [heq]; rfl)
        rw [List.map_cons, List.sum_cons] at hle
        omega

theorem excess?_eq_none_iff_clears (cs : List Char) :
    excess? layer cs = none ↔
    Clears maxNesting ⟨0, []⟩ (marksFrom layer none cs) :=
  firstBeyond_eq_none_iff

end Nesting

namespace Tree

open Nesting

variable {layer : Layer} {k : Junction} {texts : List String}

theorem parse_eq_tooDeep_iff {source : String} :
    (∃ d, Tree.parse layer source = .error (.tooDeep d)) ↔
      excess? layer source.toList ≠ none := by
  unfold Tree.parse
  cases hexcess : excess? layer source.toList with
  | some span => simp [SyntaxError.nesting]
  | none =>
      cases hresult :
        (Reader.sentence layer (.ofText source.toList)).result? with
      | none => simp [hresult, SyntaxError.refusal]
      | some r => simp [hresult]

theorem exists_parse_of_any {source : String} {P : Tree → Bool}
    (h : (Tree.parse layer source).toOption.any P = true) :
    ∃ t, Tree.parse layer source = .ok t ∧ P t = true := by
  cases ht : Tree.parse layer source with
  | error e =>
      rw [ht] at h
      cases h
  | ok t =>
      rw [ht] at h
      exact ⟨t, rfl, h⟩

theorem balanced_of_parse {source : String}
    (h : ∃ t, Tree.parse layer source = .ok t) :
    Balanced layer source.toList := by
  obtain ⟨t, ht⟩ := h
  obtain ⟨-, c', hresult⟩ := parse_eq_ok_iff.mp ht
  exact balanced_of_sentence hresult

theorem tooDeep_joined_iff (h : ∀ s ∈ texts, ∃ t, Tree.parse layer s = .ok t) :
    (∃ d, Tree.parse layer (k.separator.intercalate texts) =
      .error (.tooDeep d)) ↔
      ∃ before s after, texts = before ++ s :: after ∧
        maxNesting < (before.map (loadOf layer)).sum + peakOf layer s := by
  have hbalanced : ∀ s ∈ texts, Balanced layer s.toList :=
    fun s hs => balanced_of_parse (h s hs)
  have hdepth : (⟨0, []⟩ : Levels).depth ≤ maxNesting := Nat.zero_le _
  rw [parse_eq_tooDeep_iff, ne_eq, excess?_eq_none_iff_clears,
    marksFrom_joined k hbalanced, clears_flatMap_iff hbalanced hdepth]
  simp [Levels.depth]

end Tree

end LayeredLogic
