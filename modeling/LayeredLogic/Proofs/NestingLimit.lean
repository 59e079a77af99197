import LayeredLogic.Proofs.BaseNesting
import LayeredLogic.Proofs.Operand

/-!
# What the nesting limit bounds

The triangular bound of the base layer is reached, by a text that closes one
group after the other as the first operand of a longer and longer chain.  With
the temporal operators there is no bound: a word that begins with one of them
counts once, but the grammar reads digits and more operators out of it.
-/

namespace LayeredLogic

namespace Reader

variable {layer : Layer} {input tail : List Char} {n : Nat}

private theorem takes_literalAtom_one
    (h : ∀ c ∈ tail.head?, c.isDigit = false) :
    Takes literalAtom ('1' :: tail) (·.nesting = 0) (skip tail) := by
  have hlexeme : Takes literalLexeme (skip ('1' :: tail)) (· = ['1']) tail :=
    takes_literalLexeme_digit (Or.inr rfl) h
  apply (takes_token hlexeme).located.bind
  rintro ⟨token, span⟩ -
  apply takes_pure
  exact Tree.nesting_leaf (by decide) token span

theorem takes_operand_one (h : ∀ c ∈ tail.head?, c.isDigit = false) :
    Takes (operand layer (n + 1)) ('1' :: tail) (·.nesting = 0) (skip tail) :=
  (takes_literalAtom_one h).orElse

private theorem isDigit_of_endsName (h : EndsName tail) :
    ∀ c ∈ tail.head?, c.isDigit = false := by
  intro c hc
  have hname := h c hc
  simp only [isNameChar, Char.isAlphanum, Bool.or_eq_false_iff] at hname
  exact hname.1.2

end Reader

/-! ## A staircase of groups -/

/-- A text with the depth to which its tree nests. -/
structure Sample where
  text : List Char
  nesting : Nat

namespace Sample

def one : Sample := ⟨['1'], 0⟩

def group (inner : Sample) : Sample :=
  ⟨'(' :: (inner.text ++ [')']), inner.nesting⟩

def xors (first : Sample) (n : Nat) : Sample where
  text := first.text ++
    (List.replicate n one).flatMap fun x =>
      ' ' :: Connective.xor.symbol ++ ' ' :: x.text
  nesting := n + first.nesting

/-- Every group is the first operand of a chain that is longer by one than the
chain inside it. -/
def stairs : Nat → Sample
  | 0 => one
  | n + 1 => (stairs n).group.xors (n + 1)

private theorem nesting_stairs (n : Nat) : (stairs n).nesting = triangle n := by
  induction n with
  | zero => rfl
  | succ n ih =>
      rw [triangle, ← ih]
      rfl

theorem opens_stairs (n : Nat) : Opens (stairs n).text := by
  cases n with
  | zero => exact ⟨'1', [], rfl, by decide, by decide⟩
  | succ n => exact ⟨'(', _, rfl, by decide, by decide⟩

end Sample

private theorem Tree.nesting_groupLeft {rule : Rule}
    (h : isCounted rule.name = true) {others : List Tree}
    (hothers : ∀ t ∈ others, t.nesting = 0) (first : Tree) :
    (groupLeft rule first others).nesting = others.length + first.nesting := by
  induction others generalizing first with
  | nil => exact (Nat.zero_add _).symm
  | cons second others ih =>
      have hsecond := hothers second List.mem_cons_self
      have hgroup :=
        ih (fun t ht => hothers t (List.mem_cons_of_mem _ ht))
          (pair rule first second)
      have hfold : groupLeft rule first (second :: others) =
          groupLeft rule (pair rule first second) others := rfl
      rw [hfold, hgroup, nesting_pair h, List.length_cons]
      omega

theorem forall_of_forall₂_replicate {ι κ : Type} {S : ι → κ → Prop} {x : ι}
    {n : Nat} {ys : List κ} (h : List.Forall₂ S (List.replicate n x) ys) :
    ∀ y ∈ ys, S x y := by
  induction n generalizing ys with
  | zero =>
      cases h
      simp
  | succ n ih =>
      cases h with
      | cons hy hys =>
          intro z hz
          rcases List.mem_cons.mp hz with rfl | hz
          · exact hy
          · exact ih hys z hz

namespace Reader

variable {layer : Layer} {op : Reader Tree} {tail : List Char} {n : Nat}

def TakesOperand (op : Reader Tree) (x : Sample) : Prop :=
  ∀ tail, EndsName tail →
    Takes op (x.text ++ tail) (·.nesting = x.nesting) (skip tail)

theorem takesOperand_one (layer : Layer) (n : Nat) :
    TakesOperand (operand layer (n + 1)) .one :=
  fun _ htail => takes_operand_one (isDigit_of_endsName htail)

private theorem takes_formula_xors {first : Sample}
    (hfirst : TakesOperand op first) (hone : TakesOperand op .one)
    (htail : Before [')'] tail) :
    Takes (formula layer op) ((first.xors n).text ++ tail)
      (·.nesting = (first.xors n).nesting)
      (skip tail) := by
  have hitem : ∀ x ∈ first :: List.replicate n .one, ∀ rest, EndsName rest →
      Takes op (x.text ++ rest) (·.nesting = x.nesting) (skip rest) := by
    intro x hx
    rcases List.mem_cons.mp hx with rfl | hx
    · exact hfirst
    · obtain rfl := List.eq_of_mem_replicate hx
      exact hone
  have hstart : ∀ x ∈ List.replicate n Sample.one, ∀ rest,
      skip (x.text ++ rest) = x.text ++ rest := by
    intro x hx rest
    obtain rfl := List.eq_of_mem_replicate hx
    rfl
  rw [Sample.xors, List.append_assoc]
  apply (takes_formula_chain (rung_connective .xor) hitem hstart htail).mono
  rintro _ ⟨t, ts, rfl, ht, hts⟩
  have hlength := hts.length_eq
  rw [List.length_replicate] at hlength
  rw [Connective.group,
    Tree.nesting_groupLeft (by decide) (forall_of_forall₂_replicate hts), ht,
    hlength]

private theorem takesOperand_group {inner : Sample} (hopens : Opens inner.text)
    (h : ∀ tail, Before [')'] tail → Takes (formula layer (operand layer n))
      (inner.text ++ tail) (·.nesting = inner.nesting) (skip tail)) :
    TakesOperand (operand layer (n + 1)) inner.group := by
  intro tail _
  have htext :
      inner.group.text ++ tail = '(' :: (inner.text ++ ')' :: tail) := by
    simp [Sample.group]
  rw [htext]
  exact takes_operand_parenthesized hopens (h _ (before_close tail))

private theorem takes_formula_stairs {depth : Nat} (hdepth : n < depth)
    (htail : Before [')'] tail) :
    Takes (formula layer (operand layer depth)) ((Sample.stairs n).text ++ tail)
      (·.nesting = (Sample.stairs n).nesting) (skip tail) := by
  induction n generalizing depth tail with
  | zero =>
      obtain ⟨depth, rfl⟩ : ∃ m, depth = m + 1 := ⟨depth - 1, by omega⟩
      exact takes_formula_operand
        (takesOperand_one layer depth tail htail.1) htail
  | succ n ih =>
      obtain ⟨depth, rfl⟩ : ∃ m, depth = m + 1 := ⟨depth - 1, by omega⟩
      have hgroup :
          TakesOperand (operand layer (depth + 1)) (Sample.stairs n).group := by
        apply takesOperand_group (Sample.opens_stairs n)
        exact fun rest hrest => ih (by omega) hrest
      exact takes_formula_xors hgroup (takesOperand_one layer depth) htail

end Reader

namespace Nesting

variable {levels : Levels} {rest : List Char} {n : Nat}

private theorem passes_ones (hdepth : levels.depth + n ≤ maxNesting)
    (h : Passes (levels.count (.operators n)) rest) :
    Passes levels ((List.replicate n Sample.one).flatMap
      (fun x => ' ' :: Connective.xor.symbol ++ ' ' :: x.text) ++ rest) := by
  induction n generalizing levels with
  | zero => exact h
  | succ n ih =>
      have hcount := depth_count_operators levels 1
      have hlast :
          Passes ((levels.count (.operators 1)).count (.operators n)) rest := by
        rwa [count_operators_count, Nat.add_comm 1 n]
      have hrest := ih (by omega) hlast
      have hone : Passes _ ('1' :: _) :=
        hrest.plain (by omega) (plain_of_isDigit rfl)
      have hblank : Passes _ (' ' :: _) :=
        hone.plain (by omega) (plain_of_isBlank rfl)
      have hxor : Passes levels ('^' :: _) :=
        hblank.before levels rfl (by omega) rfl (by decide)
      exact hxor.plain (by omega) (plain_of_isBlank rfl)

private theorem passes_stairs (hdepth : levels.depth + n ≤ maxNesting)
    (h : Passes (levels.count (.operators n)) rest) :
    Passes levels ((Sample.stairs n).text ++ rest) := by
  induction n generalizing levels rest with
  | zero =>
      have hrest : Passes levels rest := h
      exact hrest.plain (by omega) (plain_of_isDigit rfl)
  | succ n ih =>
      have hopened := depth_count_opening levels
      have hones := passes_ones hdepth h
      have hclosed :
          Passes ((levels.count .opening).count (.operators n)) (')' :: _) :=
        hones.before _ rfl (by omega) rfl (by decide)
      have hinner := ih (by omega) hclosed
      have hgroup : Passes levels ('(' :: _) :=
        hinner.before levels rfl (by omega) rfl (by decide)
      simpa [Sample.stairs, Sample.xors, Sample.group] using hgroup

private theorem excess?_stairs (h : n ≤ maxNesting) :
    excess? .base (Sample.stairs n).text = none := by
  have hstart : Passes ⟨0, []⟩ ((Sample.stairs n).text ++ []) := by
    apply passes_stairs
    · exact (Nat.zero_add n).symm ▸ h
    · exact fun _ => rfl
  rw [List.append_nil] at hstart
  exact hstart 0

end Nesting

private theorem Sample.le_length_stairs (n : Nat) :
    n ≤ (stairs n).text.length := by
  induction n with
  | zero => exact Nat.zero_le _
  | succ n ih =>
      simp only [stairs, xors, group, List.length_append, List.length_cons]
      omega

private theorem Tree.parse_stairs {n : Nat} (h : n ≤ maxNesting) :
    ∃ t, Tree.parse .base (String.ofList (Sample.stairs n).text) = .ok t ∧
      t.nesting = triangle n := by
  have hdepth : n < (Sample.stairs n).text.length + 1 := by
    have hlength := Sample.le_length_stairs n
    omega
  have htakes : Reader.Takes (Reader.sentence .base) (Sample.stairs n).text
      (·.nesting = (Sample.stairs n).nesting) [] := by
    apply Reader.takes_sentence
    have hformula : Reader.Takes (Reader.formula .base _) _ _ _ :=
      Reader.takes_formula_stairs hdepth before_nil
    rwa [← (Sample.opens_stairs n).skip_append, List.append_nil] at hformula
  rw [← Sample.nesting_stairs]
  apply Tree.exists_parse_eq_ok
  · rw [String.toList_ofList]
    exact Nesting.excess?_stairs h
  · rwa [String.toList_ofList]

/-! ## Temporal operators in a row -/

namespace Sample

/-- The operators stand between ones without white space, all in one word. -/
def untils (n : Nat) : Sample where
  text := '1' :: (List.replicate n 'U').flatMap fun c => [c, '1']
  nesting := n

end Sample

private theorem Tree.nesting_modal {rule : Rule}
    (h : isCounted rule.name = true) (t u : Tree) :
    (modal rule t none u).nesting = 1 + max t.nesting u.nesting := by
  rw [modal, nesting, h]
  simp [Part.ofTree?, nestingOfParts]

def UntilLeaf (x : Rule × Option Tree × Tree) : Prop :=
  ∃ t, x = (.until, none, t) ∧ t.nesting = 0

private theorem Tree.nesting_foldl_modal
    {others : List (Rule × Option Tree × Tree)} (h : ∀ x ∈ others, UntilLeaf x)
    (first : Tree) :
    (others.foldl (fun lhs (rule, bounds, rhs) => modal rule lhs bounds rhs)
      first).nesting =
      others.length + first.nesting := by
  induction others generalizing first with
  | nil => exact (Nat.zero_add _).symm
  | cons x others ih =>
      obtain ⟨t, rfl, ht⟩ := h x List.mem_cons_self
      have hmodal : (modal .until first none t).nesting =
          1 + max first.nesting t.nesting :=
        nesting_modal (by decide) first t
      have hfold :=
        ih (fun y hy => h y (List.mem_cons_of_mem _ hy))
          (modal .until first none t)
      rw [List.foldl_cons, hfold, hmodal, List.length_cons]
      omega

namespace Reader

variable {layer : Layer} {op : Reader Tree} {tail : List Char} {n : Nat}

private theorem takes_until_leaf
    (hone : Takes op ('1' :: tail) (·.nesting = 0) (skip tail)) :
    Takes (modalItem layer op) ('U' :: '1' :: tail) UntilLeaf (skip tail) := by
  apply (takes_until ('1' :: tail)).bind
  rintro _ rfl
  have hinterval : Refuses interval ('1' :: tail) := by
    apply refuses_interval
    rintro _ ⟨⟩
    decide
  apply hinterval.optional.bind
  rintro _ rfl
  apply hone.bind
  intro t ht
  exact takes_pure ⟨t, rfl, ht⟩

private theorem takes_modal_untils (hltl : layer.includes .ltl = true)
    (hone : ∀ tail, (∀ c ∈ tail.head?, c.isDigit = false) →
      Takes op ('1' :: tail) (·.nesting = 0) (skip tail)) :
    Takes (modal layer op) (Sample.untils n).text
      (·.nesting = (Sample.untils n).nesting) [] := by
  have hmany : TakesMany (modalItem layer op)
      (skip ((List.replicate n 'U').flatMap (fun c => [c, '1']) ++ []))
      (List.Forall₂ (fun _ => UntilLeaf) (List.replicate n 'U')) (skip []) := by
    apply takesMany_of_items fun tail => ∀ c ∈ tail.head?, c.isDigit = false
    · intro x hx tail htail
      obtain rfl := List.eq_of_mem_replicate hx
      exact takes_until_leaf (hone tail htail)
    · intro x hx tail
      obtain rfl := List.eq_of_mem_replicate hx
      rintro _ ⟨⟩
      rfl
    · intro x hx tail
      obtain rfl := List.eq_of_mem_replicate hx
      have hlength := length_skip_le tail
      have htext : skip (['U', '1'] ++ tail) = 'U' :: '1' :: tail := rfl
      rw [htext, List.length_cons, List.length_cons]
      omega
    · simp
    · exact refuses_modalItem before_nil (by decide)
  have hhead : ∀ c ∈ ((List.replicate n 'U').flatMap (fun c => [c, '1'])).head?,
      c.isDigit = false := by
    cases n with
    | zero => simp
    | succ n =>
        rintro _ ⟨⟩
        rfl
  rw [List.append_nil] at hmany
  apply (takes_modal_many hltl (hone _ hhead) hmany).mono
  rintro _ ⟨t, others, rfl, ht, hothers⟩
  have hlength := hothers.length_eq
  rw [List.length_replicate] at hlength
  rw [Tree.nesting_foldl_modal (forall_of_forall₂_replicate hothers), ht,
    ← hlength]
  rfl

private theorem takes_sentence_untils (hltl : layer.includes .ltl = true)
    (n : Nat) :
    Takes (sentence layer) (Sample.untils n).text
      (·.nesting = (Sample.untils n).nesting) [] := by
  have hone : ∀ tail, (∀ c ∈ tail.head?, c.isDigit = false) →
      Takes (operand layer ((Sample.untils n).text.length + 1)) ('1' :: tail)
        (·.nesting = 0)
        (skip tail) := fun _ htail => takes_operand_one htail
  have hmodal : Takes _ _ _ (skip []) := takes_modal_untils (n := n) hltl hone
  apply takes_sentence
  exact takes_climb (fun _ hl => hl) (by decide) hmodal before_nil

end Reader

namespace Nesting

private theorem wordWeight_until_le (layer : Layer) (cs : List Char) :
    wordWeight layer ('U' :: '1' :: cs) ≤ 1 := by
  unfold wordWeight
  split
  · exact Nat.le_refl 1
  · split
    -- The digit ends the run of operators at the front of the word.
    · exact Nat.le_refl 1
    · exact Nat.zero_le 1

private theorem excess?_untils (layer : Layer) (n : Nat) :
    excess? layer (Sample.untils n).text = none := by
  cases n with
  | zero => rfl
  | succ n =>
      have hname :
          ∀ c ∈ '1' :: (List.replicate n 'U').flatMap (fun c => [c, '1']),
          isNameChar c = true := by
        intro c hc
        simp only [List.mem_cons, List.mem_flatMap, List.mem_replicate,
          List.not_mem_nil, or_false] at hc
        rcases hc with rfl | ⟨_, ⟨-, rfl⟩, rfl | rfl⟩ <;> rfl
      obtain ⟨span, stop, hmarks⟩ :=
        marks_word layer hname endsName_nil 1 2 ['U']
      have hweight :=
        wordWeight_until_le layer
          ((List.replicate n 'U').flatMap fun c => [c, '1'])
      have htext : marks layer .between 0 (Sample.untils (n + 1)).text =
          marks layer (.word 1 ['U']) 2
            ('1' :: (List.replicate n 'U').flatMap fun c => [c, '1']) := rfl
      rw [List.append_nil] at hmarks
      rw [excess?, htext, hmarks]
      apply firstBeyond_cons_eq_none_iff.mpr
      constructor
      · have hstart : (⟨0, []⟩ : Levels).depth = 0 := rfl
        rw [depth_count_operators, hstart, Nat.zero_add]
        exact Nat.le_trans hweight (by decide)
      · rfl

end Nesting

theorem Tree.parse_untils {layer : Layer} (hltl : layer.includes .ltl = true)
    (n : Nat) :
    ∃ t, Tree.parse layer (String.ofList (Sample.untils n).text) = .ok t ∧
    t.nesting = n := by
  apply Tree.exists_parse_eq_ok
  · rw [String.toList_ofList]
    exact Nesting.excess?_untils layer n
  · rw [String.toList_ofList]
    exact Reader.takes_sentence_untils hltl n

/-- Which depths no tree of a layer nests deeper than.  The limit of the scan
itself is among them for no layer. -/
theorem Tree.nesting_le_iff (layer : Layer) (limit : Nat) :
    (∀ source t, Tree.parse layer source = .ok t → t.nesting ≤ limit) ↔
      layer = .base ∧ maxNesting * (maxNesting + 1) / 2 ≤ limit := by
  rw [← triangle_eq]
  constructor
  · intro h
    have hbase : layer = .base := by
      by_contra hne
      have hltl : layer.includes .ltl = true := by
        revert hne
        cases layer <;> decide
      obtain ⟨t, hparse, hnesting⟩ := Tree.parse_untils hltl (limit + 1)
      have hle := h _ t hparse
      omega
    subst hbase
    obtain ⟨t, hparse, hnesting⟩ := Tree.parse_stairs (Nat.le_refl maxNesting)
    have hle := h _ t hparse
    rw [hnesting] at hle
    exact ⟨rfl, hle⟩
  · rintro ⟨rfl, hlimit⟩ source t hparse
    exact Nat.le_trans (Tree.nesting_le_triangle hparse) hlimit

theorem Tree.maxNesting_lt_untils :
    ∃ t, Tree.parse .ltl (String.ofList (Sample.untils (maxNesting + 1)).text) =
      .ok t ∧
      maxNesting < t.nesting := by
  have hltl : Layer.ltl.includes .ltl = true := rfl
  obtain ⟨t, hparse, hnesting⟩ := Tree.parse_untils hltl (maxNesting + 1)
  exact ⟨t, hparse, by omega⟩

end LayeredLogic
