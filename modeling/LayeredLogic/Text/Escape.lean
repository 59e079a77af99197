import LayeredLogic.Text.Printable

/-!
# Escaped names

A name between double quotes in which every character can be seen: what would
not show, a quote and a backslash are written with a backslash before them.
-/

namespace LayeredLogic.Escape

def letter? : Char → Option Char
  | '"' => some '"'
  | '\\' => some '\\'
  | '\n' => some 'n'
  | '\r' => some 'r'
  | '\t' => some 't'
  | '\x00' => some '0'
  | _ => none

/-- A character by its letter, by itself if it is printable, or by its number in
base sixteen. -/
def char (c : Char) : List Char :=
  match letter? c with
  | some letter => ['\\', letter]
  | none =>
      if isPrintable c then [c]
        else ['\\', 'u', '\x7b'] ++ Nat.toDigits 16 c.toNat ++ ['\x7d']

def quote (name : String) : String :=
  "\"" ++ String.ofList (name.toList.flatMap char) ++ "\""

theorem isPrintable_of_mem_toDigits {n : Nat} {d : Char}
    (h : d ∈ Nat.toDigits 16 n) : isPrintable d = true := by
  have digit : ∀ k < 16, isPrintable (Nat.digitChar k) = true := by
    decide +kernel
  induction n using Nat.strongRecOn with
  | _ n ih =>
      by_cases small : n < 16
      · rw [Nat.toDigits_of_lt_base small, List.mem_singleton] at h
        exact h ▸ digit n small
      · rw [Nat.toDigits_of_base_le (by decide) (Nat.le_of_not_lt small),
          List.mem_append,
          List.mem_singleton] at h
        rcases h with h | rfl
        · exact ih (n / 16) (by omega) h
        · exact digit _ (Nat.mod_lt n (by decide))

theorem isPrintable_of_mem_char {c d : Char} (h : d ∈ char c) :
    isPrintable d = true := by
  unfold char at h
  split at h
  · rename_i letter eq
    have shows : isPrintable letter = true := by
      unfold letter? at eq
      split at eq <;> cases eq <;> decide +kernel
    simp only [List.mem_cons, List.not_mem_nil, or_false] at h
    rcases h with rfl | rfl
    · decide +kernel
    · exact shows
  · split at h
    · rename_i shows
      exact List.mem_singleton.1 h ▸ shows
    · simp only [List.mem_append, List.mem_cons, List.not_mem_nil, or_false]
        at h
      rcases h with ((rfl | rfl | rfl) | h) | rfl
      · decide +kernel
      · decide +kernel
      · decide +kernel
      · exact isPrintable_of_mem_toDigits h
      · decide +kernel

end LayeredLogic.Escape
