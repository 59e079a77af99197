import LayeredLogic.Grammar.Reader
import LayeredLogic.Grammar.Tree
import LayeredLogic.Layer

/-!
# Lexemes

White space may stand on either side of every lexeme; the span of a token leaves
it out.
-/

namespace LayeredLogic.Reader

def identifier : Reader (List Char) := do
  let first ← satisfy isNameStart
  return first :: (← run isNameChar)

def digits : Reader (List Char) := do
  let first ← satisfy Char.isDigit
  if first = '0' then return [first] else return first :: (← run Char.isDigit)

def signedDigits : Reader (List Char) := do
  let sign ← optional (satisfy (· == '-'))
  return sign.toList ++ (← digits)

def quotedItem : Reader (List Char) :=
  orElse
    (do
      let slash ← satisfy (· == '\\')
      return [slash, ← satisfy fun _ => true])
    (do return [← satisfy fun c => c != '\\' && c != '"'])

def quoted : Reader (List Char) := do
  let first ← satisfy (· == '"')
  let items ← many quotedItem
  let last ← satisfy (· == '"')
  return first :: items.flatten ++ [last]

def symbol (cs : List Char) : Reader Unit := padded (exactly cs)

/-- A word, which must not go on as a longer identifier. -/
def keyword (word : List Char) : Reader Unit := do
  let _ ← padded (check identifier (· == word))

def token (kind : TokenKind) (lexeme : Reader (List Char)) : Reader Token :=
  padded do
    let (text, span) ← located lexeme
    return ⟨kind.tag, String.ofList text, span⟩

def integer : Reader Token := token .integer signedDigits

def literalLexeme : Reader (List Char) :=
  orElse (check identifier literalWords.contains)
    (check digits fun ds => ds == ['0'] || ds == ['1'])

def nameLexeme (layer : Layer) : Reader (List Char) :=
  check identifier fun word => !layer.reserves word

end LayeredLogic.Reader
