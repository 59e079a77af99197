/-!
# Ranges of code points

A class of characters is written as a list of closed ranges of code points,
ascending and apart, so that a look-up ends at the first range that begins
beyond the character.
-/

namespace LayeredLogic

/-- A property of all characters of a text is decided along the text, not over
all code points. -/
instance decidableForallMemText {P : Char → Prop} [DecidablePred P]
    (text : List Char) : Decidable (∀ c ∈ text, P c) :=
  List.decidableBAll P text

def inRanges (n : Nat) : List (Nat × Nat) → Bool
  | [] => false
  | (first, last) :: rest => first ≤ n && (n ≤ last || inRanges n rest)

def ascending : List (Nat × Nat) → Bool
  | [] => true
  | [range] => range.1 ≤ range.2
  | range :: next :: rest =>
      range.1 ≤ range.2 && range.2 < next.1 && ascending (next :: rest)

theorem first_le_of_ascending {range : Nat × Nat} {rest : List (Nat × Nat)}
    (h : ascending (range :: rest) = true) :
    ∀ r ∈ range :: rest, range.1 ≤ r.1 := by
  induction rest generalizing range with
  | nil => simp
  | cons next rest ih =>
      simp only [ascending, Bool.and_eq_true, decide_eq_true_eq] at h
      intro r hr
      rcases List.mem_cons.1 hr with rfl | hr
      · exact Nat.le_refl _
      · have := ih h.2 r hr
        omega

theorem inRanges_iff {n : Nat} {ranges : List (Nat × Nat)}
    (h : ascending ranges = true) :
    inRanges n ranges = true ↔ ∃ r ∈ ranges, r.1 ≤ n ∧ n ≤ r.2 := by
  induction ranges with
  | nil => simp [inRanges]
  | cons range rest ih =>
      have le := first_le_of_ascending h
      have tail : ascending rest = true := by
        cases rest with
        | nil => rfl
        | cons next rest =>
            simp only [ascending, Bool.and_eq_true] at h
            exact h.2
      simp only [inRanges, Bool.and_eq_true, Bool.or_eq_true, decide_eq_true_eq,
        ih tail]
      constructor
      · rintro ⟨lo, hi | ⟨r, mem, within⟩⟩
        · exact ⟨range, List.mem_cons_self, lo, hi⟩
        · exact ⟨r, List.mem_cons_of_mem _ mem, within⟩
      · rintro ⟨r, mem, lo, hi⟩
        refine ⟨Nat.le_trans (le r mem) lo, ?_⟩
        rcases List.mem_cons.1 mem with rfl | mem
        · exact .inl hi
        · exact .inr ⟨r, mem, lo, hi⟩

/-! ## White space -/

/-- The code points with the Unicode property White_Space. -/
def blankRanges : List (Nat × Nat) :=
  [(0x09, 0x0D), (0x20, 0x20), (0x85, 0x85), (0xA0, 0xA0), (0x1680, 0x1680),
    (0x2000, 0x200A),
    (0x2028, 0x2029), (0x202F, 0x202F), (0x205F, 0x205F), (0x3000, 0x3000)]

theorem ascending_blankRanges : ascending blankRanges = true := by decide

def isBlank (c : Char) : Bool := inRanges c.toNat blankRanges

theorem isBlank_of_isWhitespace {c : Char} (h : c.isWhitespace = true) :
    isBlank c = true := by
  simp only [Char.isWhitespace, Bool.or_eq_true, decide_eq_true_eq] at h
  rcases h with ((rfl | rfl) | rfl) | rfl <;> decide

end LayeredLogic
