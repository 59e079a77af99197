import LayeredLogic.Text.Position

/-!
# Concrete trees

What a grammar reads from a text.  A tree names the rule that produced it and
holds its parts in order, which are trees, tokens, or optional parts that were
not written.
-/

namespace LayeredLogic

inductive Rule where
  | equiv
  | implies
  | xor
  | disjunction
  | conjunction
  | negation
  | variable
  | literal
  | interval
  | next
  | always
  | eventually
  | until
  | everywhere
  | somewhere
  | escape
  | reach
  | graphIncoming
  | graphOutgoing
  | graphList
  deriving DecidableEq, Repr

def Rule.name : Rule → String
  | equiv => "equiv"
  | implies => "implies"
  | xor => "xor"
  | disjunction => "add"
  | conjunction => "mul"
  | negation => "neg"
  | .variable => "var"
  | literal => "literal"
  | interval => "interval"
  | next => "next"
  | always => "always"
  | eventually => "eventually"
  | .until => "until"
  | everywhere => "everywhere"
  | somewhere => "somewhere"
  | escape => "escape"
  | reach => "reach"
  | graphIncoming => "graph_incoming"
  | graphOutgoing => "graph_outgoing"
  | graphList => "graph_list"

inductive TokenKind where
  | name
  | quoted
  | integer
  | literal
  deriving DecidableEq, Repr

def TokenKind.tag : TokenKind → String
  | name => "CNAME"
  | quoted => "ESCAPED_STRING"
  | integer => "INT"
  | literal => "LITERAL"

/-! ## Trees -/

structure Token where
  kind : String
  text : String
  span : Span
  deriving DecidableEq, Repr

mutual

inductive Tree where
  | node (rule : String) (parts : List Part) (span : Span)

inductive Part where
  | tree (tree : Tree)
  | token (token : Token)
  | absent

end

instance : Inhabited Tree := ⟨.node "" [] ⟨0, 0⟩⟩

namespace Part

def ofToken? : Option Token → Part
  | some t => token t
  | none => absent

def ofTree? : Option Tree → Part
  | some t => tree t
  | none => absent

end Part

namespace Tree

def rule : Tree → String
  | node rule _ _ => rule

def parts : Tree → List Part
  | node _ parts _ => parts

def span : Tree → Span
  | node _ _ span => span

mutual

def size : Tree → Nat
  | node _ parts _ => 1 + sizeOfParts parts

def sizeOfParts : List Part → Nat
  | [] => 0
  | .tree t :: rest => t.size + sizeOfParts rest
  | .token _ :: rest | .absent :: rest => 1 + sizeOfParts rest

end

@[elab_as_elim]
theorem induct {motive : Tree → Prop}
    (node : ∀ rule parts span, (∀ t, Part.tree t ∈ parts → motive t) →
      motive (node rule parts span))
    (t : Tree) : motive t := by
  refine Tree.rec (motive_1 := motive) (motive_2 :=
    fun part => ∀ t, part = .tree t → motive t)
    (motive_3 := fun parts => ∀ t, Part.tree t ∈ parts → motive t) node ?_ ?_ ?_
    ?_ ?_ t
  · rintro t ht _ ⟨⟩
    exact ht
  · simp
  · simp
  · simp
  · rintro part parts hpart hparts t h
    rcases List.mem_cons.mp h with h | h
    · exact hpart t h.symm
    · exact hparts t h

end Tree

end LayeredLogic
