import LayeredLogic.Text.Position
import LayeredLogic.Grammar.Formula
import LayeredLogic.Grammar.Nesting

/-!
# From text to tree

A text that nests too deeply is refused before it is parsed.  Any other text
that the grammar refuses is so at the furthest offset up to which it was
understood.
-/

namespace LayeredLogic

inductive SyntaxError where
  | tooDeep (diagnostic : Diagnostic)
  | unexpected (diagnostic : Diagnostic)
  deriving DecidableEq, Repr

namespace SyntaxError

def diagnostic : SyntaxError → Diagnostic
  | tooDeep d | unexpected d => d

def message (e : SyntaxError) : String := e.diagnostic.text

def nesting (source : String) (span : Span) : SyntaxError :=
  tooDeep <| .ofSpan source span
    ("formula nests deeper than " ++ toString maxNesting ++ " levels")

def refusal (source : String) (offset : Nat) : SyntaxError :=
  unexpected <| .ofSpan source ⟨offset, offset⟩ "unexpected input"

end SyntaxError

namespace Tree

def parse (layer : Layer) (source : String) : Except SyntaxError Tree :=
  match Nesting.excess? layer source.toList with
  | some span => .error (.nesting source span)
  | none =>
      let reply := Reader.sentence layer (.ofText source.toList)
      match reply.result? with
      | some (t, _) => .ok t
      | none => .error (.refusal source reply.reached)

end Tree

end LayeredLogic
