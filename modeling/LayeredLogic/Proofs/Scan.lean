import LayeredLogic.Proofs.Lexeme
import LayeredLogic.Grammar.Parse

/-!
# The scan for nesting

How deeply a tree nests, and what the scan of a text still allows from some
place on.  In the base layer only signs and parentheses are marked, so that the
scan can be taken up between any two lexemes.
-/

namespace LayeredLogic

def Rule.counted : List Rule :=
  [negation, next, always, eventually, everywhere, somewhere, escape,
    graphIncoming,
    graphOutgoing, .until, reach, implies, equiv, xor]

def isCounted (name : String) : Bool :=
  Rule.counted.any fun rule => rule.name == name

namespace Tree

mutual

/-- The greatest number of counted operators on the way from the root to a leaf.
-/
def nesting : Tree → Nat
  | node rule parts _ => (isCounted rule).toNat + nestingOfParts parts

def nestingOfParts : List Part → Nat
  | [] => 0
  | .tree t :: rest => max t.nesting (nestingOfParts rest)
  | .token _ :: rest | .absent :: rest => nestingOfParts rest

end

theorem nestingOfParts_trees_le {ts : List Tree} {n : Nat}
    (h : ∀ t ∈ ts, t.nesting ≤ n) : nestingOfParts (ts.map .tree) ≤ n := by
  induction ts with
  | nil => exact Nat.zero_le n
  | cons t ts ih =>
      have ht := h t List.mem_cons_self
      have hts := ih fun u hu => h u (List.mem_cons_of_mem _ hu)
      rw [List.map_cons, nestingOfParts]
      omega

theorem nesting_leaf {rule : Rule} (h : isCounted rule.name = false)
    (token : Token) (span : Span) :
    (node rule.name [.token token] span).nesting = 0 := by
  rw [nesting, h]
  rfl

theorem nesting_pair {rule : Rule} (h : isCounted rule.name = true)
    (t u : Tree) : (pair rule t u).nesting = 1 + max t.nesting u.nesting := by
  rw [pair, nesting, h]
  simp [nestingOfParts]

end Tree

namespace Nesting

variable {levels : Levels} {cs rest : List Char}

/-! ## Marks -/

theorem count_operators_count (levels : Levels) (a b : Nat) :
    (levels.count (.operators a)).count (.operators b) =
      levels.count (.operators (a + b)) := by
  simp [Levels.count, Nat.add_assoc]

theorem depth_count_operators (levels : Levels) (n : Nat) :
    (levels.count (.operators n)).depth = levels.depth + n := by
  simp only [Levels.depth, Levels.count]
  omega

theorem depth_count_opening (levels : Levels) :
    (levels.count .opening).depth = levels.depth + 1 := by
  simp only [Levels.depth, Levels.count, List.length_cons, List.foldr_cons]
  omega

theorem firstBeyond_cons_eq_none_iff {limit : Nat} {mark : Mark} {span : Span}
    {rest : List (Mark × Span)} :
    firstBeyond limit levels ((mark, span) :: rest) = none ↔
      (levels.count mark).depth ≤ limit ∧
      firstBeyond limit (levels.count mark) rest = none := by
  rw [firstBeyond]
  split
  · rename_i h
    simp only [reduceCtorEq, false_iff, not_and]
    omega
  · rename_i h
    constructor
    · exact fun hrest => ⟨by omega, hrest⟩
    · exact fun hrest => hrest.2

/-- The scan of the base layer gets through the text without going over the
limit. -/
def Within (levels : Levels) (cs : List Char) : Prop :=
  levels.depth ≤ maxNesting ∧
    ∃ offset,
      firstBeyond maxNesting levels (marks .base .between offset cs) = none

def Levels.after (levels : Levels) (c : Char) (cs : List Char) : Levels :=
  (mark? c cs).elim levels levels.count

def skipped : List Char := ['[', '{', '"']

def marked : List Char := ['(', ')', '!', '~', '^', '-']

theorem enter_eq_between {c : Char} (hname : isNameStart c = false)
    (hc : c ∉ skipped) (offset : Nat) : enter offset c = .between := by
  simp only [skipped, List.mem_cons, List.not_mem_nil, or_false, not_or] at hc
  simp [enter, hname, hc]

theorem Within.after {c : Char} (h : Within levels (c :: cs))
    (hname : isNameStart c = false) (hc : c ∉ skipped) :
    Within (levels.after c cs) cs := by
  obtain ⟨hdepth, offset, hnone⟩ := h
  rw [marks, enter_eq_between hname hc] at hnone
  unfold Levels.after
  cases hmark : mark? c cs with
  | none =>
      rw [hmark] at hnone
      exact ⟨hdepth, _, hnone⟩
  | some mark =>
      rw [hmark] at hnone
      obtain ⟨hcount, hrest⟩ := firstBeyond_cons_eq_none_iff.mp hnone
      exact ⟨hcount, _, hrest⟩

def Passes (levels : Levels) (cs : List Char) : Prop :=
  ∀ offset,
    firstBeyond maxNesting levels (marks .base .between offset cs) = none

theorem Passes.before {levels' : Levels} {c : Char} (h : Passes levels' cs)
    (levels : Levels) (hafter : levels.after c cs = levels')
    (hdepth : levels'.depth ≤ maxNesting) (hname : isNameStart c = false)
    (hc : c ∉ skipped) : Passes levels (c :: cs) := by
  intro offset
  rw [marks, enter_eq_between hname hc]
  unfold Levels.after at hafter
  cases hmark : mark? c cs with
  | none =>
      rw [hmark] at hafter
      rw [← hafter] at h
      exact h _
  | some mark =>
      rw [hmark] at hafter
      rw [← hafter] at h hdepth
      exact firstBeyond_cons_eq_none_iff.mpr ⟨hdepth, h _⟩

structure Plain (c : Char) : Prop where
  name : isNameStart c = false
  notSkipped : c ∉ skipped
  notMarked : c ∉ marked

instance (c : Char) : Decidable (Plain c) :=
  decidable_of_iff (isNameStart c = false ∧ c ∉ skipped ∧ c ∉ marked)
    ⟨fun h => ⟨h.1, h.2.1, h.2.2⟩, fun h => ⟨h.name, h.notSkipped, h.notMarked⟩⟩

theorem Plain.mark?_eq_none {c : Char} (hc : Plain c) (cs : List Char) :
    mark? c cs = none := by
  have hmarked := hc.notMarked
  simp only [marked, List.mem_cons, List.not_mem_nil, or_false, not_or]
    at hmarked
  simp [mark?, hmarked]

theorem Plain.after {c : Char} (hc : Plain c) (levels : Levels)
    (cs : List Char) : levels.after c cs = levels := by
  rw [Levels.after, hc.mark?_eq_none]
  rfl

theorem Within.plain {c : Char} (h : Within levels (c :: cs)) (hc : Plain c) :
    Within levels cs := by
  have hafter := h.after hc.name hc.notSkipped
  rwa [hc.after] at hafter

theorem Passes.plain {c : Char} (h : Passes levels cs)
    (hdepth : levels.depth ≤ maxNesting) (hc : Plain c) :
    Passes levels (c :: cs) :=
  h.before levels (hc.after levels cs) hdepth hc.name hc.notSkipped

theorem Within.plains (h : Within levels (cs ++ rest))
    (hcs : ∀ c ∈ cs, Plain c) : Within levels rest := by
  induction cs with
  | nil => exact h
  | cons c cs ih =>
      apply ih (Within.plain h (hcs c List.mem_cons_self))
      exact fun d hd => hcs d (List.mem_cons_of_mem _ hd)

theorem plain_of_class {ok : Char → Bool}
    (hname : ∀ c, isNameStart c = true → ok c = false)
    (hsigns : (skipped ++ marked).all (!ok ·) = true) {c : Char}
    (h : ok c = true) : Plain c := by
  have hmem : c ∉ skipped ++ marked := by
    intro hc
    have hsign := List.all_eq_true.mp hsigns c hc
    rw [h] at hsign
    cases hsign
  constructor
  · apply Bool.eq_false_iff.mpr
    intro hc
    rw [hname c hc] at h
    cases h
  · exact fun hc => hmem (List.mem_append_left _ hc)
  · exact fun hc => hmem (List.mem_append_right _ hc)

theorem plain_of_isBlank {c : Char} (h : isBlank c = true) : Plain c :=
  plain_of_class (fun _ => isBlank_of_isNameStart) (by decide) h

theorem plain_of_isDigit {c : Char} (h : c.isDigit = true) : Plain c :=
  plain_of_class (fun _ => isDigit_of_isNameStart) (by decide) h

theorem Within.skip (h : Within levels cs) :
    Within levels (LayeredLogic.skip cs) := by
  have hblank : ∀ c ∈ cs.takeWhile isBlank, Plain c :=
    fun c hc => plain_of_isBlank (List.all_eq_true.mp List.all_takeWhile c hc)
  rw [← List.takeWhile_append_dropWhile (p := isBlank) (l := cs)] at h
  exact h.plains hblank

/-! ## Words and quoted names -/

/-- The first character of a word counts for nothing by itself. -/
theorem mark?_of_isNameStart {c : Char} (h : isNameStart c = true)
    (cs : List Char) (offset : Nat) :
    mark? c cs = none ∧ enter offset c = .word offset [c] := by
  have hsigns : (skipped ++ marked).all (!isNameStart ·) = true := by decide
  have hc : c ∉ skipped ++ marked := by
    intro hc
    have hsign := List.all_eq_true.mp hsigns c hc
    rw [h] at hsign
    cases hsign
  simp only [skipped, marked, List.mem_append, List.mem_cons, List.not_mem_nil,
    or_false, not_or] at hc
  obtain ⟨⟨hopen, hbrace, hquote⟩, hmarked⟩ := hc
  constructor
  · simp [mark?, hmarked]
  · simp [enter, hopen, hbrace, hquote, h]

theorem marks_word (layer : Layer) (hcs : ∀ c ∈ cs, isNameChar c = true)
    (hrest : EndsName rest) (start offset : Nat) (reversed : List Char) :
    ∃ span stop, marks layer (.word start reversed) offset (cs ++ rest) =
      (.operators (wordWeight layer (reversed.reverse ++ cs)), span) ::
        marks layer .between stop rest := by
  induction cs generalizing offset reversed with
  | nil =>
      rw [List.append_nil, List.nil_append]
      cases rest with
      | nil => exact ⟨⟨start, offset⟩, offset, rfl⟩
      | cons d rest =>
          have hd : isNameChar d = false := hrest d rfl
          refine ⟨⟨start, offset⟩, offset, ?_⟩
          simp only [marks, hd, Bool.false_eq_true, if_false]
  | cons c cs ih =>
      have hword :
          (c :: reversed).reverse ++ cs = reversed.reverse ++ c :: cs := by simp
      rw [List.cons_append, marks, if_pos (hcs c List.mem_cons_self), ← hword]
      exact ih (fun d hd => hcs d (List.mem_cons_of_mem _ hd)) _ (c :: reversed)

theorem Within.word (h : Within levels (cs ++ rest))
    (hcs : isIdentifier cs = true) (hrest : EndsName rest) :
    Within levels rest := by
  cases cs with
  | nil => cases hcs
  | cons c cs =>
      simp only [isIdentifier, Bool.and_eq_true, List.all_eq_true] at hcs
      obtain ⟨hdepth, offset, hnone⟩ := h
      obtain ⟨hmark, henter⟩ := mark?_of_isNameStart hcs.1 (cs ++ rest) offset
      obtain ⟨_, stop, hmarks⟩ :=
        marks_word .base hcs.2 hrest offset (offset + c.utf8Size) [c]
      have hweight : ∀ word, wordWeight .base word = 0 := fun _ => rfl
      rw [List.cons_append, marks, hmark, henter, hmarks, hweight] at hnone
      exact ⟨hdepth, stop, (firstBeyond_cons_eq_none_iff.mp hnone).2⟩

def QuotedItem (item : List Char) : Prop :=
  (∃ c, item = ['\\', c]) ∨ ∃ c, item = [c] ∧ c ≠ '\\' ∧ c ≠ '"'

theorem marks_quoted (layer : Layer) {items : List (List Char)}
    (hitems : ∀ item ∈ items, QuotedItem item) (offset : Nat) :
    ∃ stop, marks layer (.skipping '"' false) offset
      (items.flatten ++ '"' :: rest) =
      marks layer .between stop rest := by
  induction items generalizing offset with
  | nil => exact ⟨_, rfl⟩
  | cons item items ih =>
      obtain ⟨hitem, hrest⟩ := List.forall_mem_cons.mp hitems
      rcases hitem with ⟨c, rfl⟩ | ⟨c, rfl, hslash, hquote⟩
      · exact ih hrest _
      · have hskip : Nesting.skip '"' false c = .skipping '"' false := by
          simp [Nesting.skip, hslash, hquote]
        rw [List.flatten_cons, List.append_assoc, List.cons_append, marks,
          hskip]
        exact ih hrest _

theorem Within.quoted {items : List (List Char)}
    (h : Within levels ('"' :: (items.flatten ++ '"' :: rest)))
    (hitems : ∀ item ∈ items, QuotedItem item) : Within levels rest := by
  obtain ⟨hdepth, offset, hnone⟩ := h
  obtain ⟨stop, hmarks⟩ := marks_quoted .base hitems (offset + '"'.utf8Size)
  exact ⟨hdepth, stop, hmarks ▸ hnone⟩

end Nesting

end LayeredLogic
