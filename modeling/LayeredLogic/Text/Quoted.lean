/-!
# Quoted names

A quoted name stands between double quotes; in it a backslash gives the next
character, where `n`, `t` and `r` stand for the control characters.
-/

namespace LayeredLogic.Quoted

def escaped : Char → Char
  | 'n' => '\n'
  | 't' => '\t'
  | 'r' => '\r'
  | c => c

/-- Resolves the escapes.  A backslash at the very end stands for itself. -/
def unescape : List Char → List Char
  | [] => []
  | ['\\'] => ['\\']
  | '\\' :: c :: rest => escaped c :: unescape rest
  | c :: rest => c :: unescape rest

/-- The text between a first and a last double quote, or the whole text if one
of them is missing. -/
def inner (cs : List Char) : List Char :=
  match cs with
  | '"' :: rest => if rest.getLast? = some '"' then rest.dropLast else cs
  | _ => cs

def decode (lexeme : List Char) : List Char := unescape (inner lexeme)

def escape : List Char → List Char
  | [] => []
  | c :: rest =>
      if c = '\\' ∨ c = '"' then '\\' :: c :: escape rest else c :: escape rest

def encode (name : List Char) : List Char := '"' :: escape name ++ ['"']

theorem unescape_escape (name : List Char) : unescape (escape name) = name := by
  induction name with
  | nil => rfl
  | cons c rest ih =>
      unfold escape
      split
      · rename_i h
        rcases h with rfl | rfl <;> simp [unescape, escaped, ih]
      · rename_i h
        rw [not_or] at h
        rw [unescape, ih]
        · exact fun hc => absurd hc h.1
        · exact fun _ _ hc => absurd hc h.1

@[simp] theorem inner_encode (name : List Char) :
    inner (encode name) = escape name := by
  simp [inner, encode]

@[simp] theorem decode_encode (name : List Char) :
    decode (encode name) = name := by
  rw [decode, inner_encode, unescape_escape]

end LayeredLogic.Quoted
