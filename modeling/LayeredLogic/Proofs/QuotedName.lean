import LayeredLogic.Proofs.BaseGrammar
import LayeredLogic.Proofs.RoundTrip

/-!
# Quoted names

Every string is the name of a variable that can be written, in every layer:
between quotes, with a backslash before each backslash and each quote.  Such a
text is a row of single characters and escapes, and the scan for nesting, the
grammar and the decoding all go through this row item by item, so they agree on
the quote at which it ends.
-/

namespace LayeredLogic

theorem Quoted.exists_items_encode (name : List Char) :
    ∃ items : List (List Char), (∀ item ∈ items, Nesting.QuotedItem item) ∧
      encode name = '"' :: items.flatten ++ ['"'] := by
  suffices hescape :
      ∃ items : List (List Char), (∀ item ∈ items, Nesting.QuotedItem item) ∧
      escape name = items.flatten by
    obtain ⟨items, hitems, htext⟩ := hescape
    exact ⟨items, hitems, by rw [encode, htext]⟩
  induction name with
  | nil => exact ⟨[], by simp, rfl⟩
  | cons c rest ih =>
      obtain ⟨items, hitems, hrest⟩ := ih
      rw [escape, hrest]
      split
      · exact ⟨['\\', c] :: items,
          List.forall_mem_cons.mpr ⟨Or.inl ⟨c, rfl⟩, hitems⟩, rfl⟩
      · rename_i hc
        rw [not_or] at hc
        exact ⟨[c] :: items,
          List.forall_mem_cons.mpr ⟨Or.inr ⟨c, rfl, hc⟩, hitems⟩, rfl⟩

private theorem Nesting.excess?_encode (layer : Layer) (name : List Char) :
    excess? layer (Quoted.encode name) = none := by
  obtain ⟨items, hitems, htext⟩ := Quoted.exists_items_encode name
  obtain ⟨stop, hmarks⟩ :
      ∃ stop, marks layer (.skipping '"' false) (0 + '"'.utf8Size)
      (items.flatten ++ ['"']) = marks layer .between stop [] :=
        marks_quoted layer hitems _
  have hall : marks layer .between 0 (Quoted.encode name) = [] :=
    calc marks layer .between 0 (Quoted.encode name)
        = marks layer (.skipping '"' false) (0 + '"'.utf8Size)
          (items.flatten ++ ['"']) := by
          rw [htext]
          rfl
      _ = [] := by rw [hmarks, marks]
  rw [excess?, hall]
  rfl

namespace Reader

variable (layer : Layer) (name : List Char)

private theorem takes_variableAtom_encode :
    Takes (variableAtom layer) (Quoted.encode name)
      (Tree.Means layer (.formula (.var (String.ofList name)))) [] := by
  obtain ⟨items, hitems, htext⟩ := Quoted.exists_items_encode name
  have hinput :
      skip (Quoted.encode name) = '"' :: items.flatten ++ ['"'] ++ [] := by
    rw [htext, List.append_nil]
    rfl
  have htoken := takes_quotedToken layer hitems hinput
  rw [← htext] at htoken
  apply htoken.located.bind
  rintro ⟨t, span⟩ ⟨hkind, hlexeme⟩
  have hmeans : Part.Means layer (.name (String.ofList name)) (.token t) := by
    show (RuleTable.ofLayer layer).tokenValue t = _
    rw [RuleTable.tokenValue_ofLayer, hkind, hlexeme]
    simp [TokenHandler.quoted, TokenKind.tag]
  have hbase : layer.includes .base = true := layer.includes_base
  exact takes_pure (Tree.means_node hbase (.cons hmeans .nil) (.atom _))

private theorem takes_operand_encode (n : Nat) :
    Takes (operand layer (n + 1)) (Quoted.encode name)
      (Tree.Means layer (.formula (.var (String.ofList name)))) [] := by
  refine takes_operand_variableAtom (refuses_literalAtom rfl rfl rfl)
    (refuses_prefixed ?_ ?_ ?_) ?_
    (takes_variableAtom_encode layer name)
  · rintro _ ⟨⟩
    decide
  · rintro _ _ ⟨⟩
    decide
  · exact fun _ _ => refuses_keyword_of_head (by rintro _ ⟨⟩; rfl)
  · rintro _ ⟨⟩
    decide

private theorem takes_sentence_encode :
    Takes (sentence layer) (Quoted.encode name)
      (Tree.Means layer (.formula (.var (String.ofList name)))) [] := by
  apply takes_sentence
  exact takes_formula_operand (takes_operand_encode layer name _) before_nil

end Reader

/-- Every string is read as the name of a variable, in every layer, if it is put
between quotes with a backslash before each backslash and each quote. -/
theorem Formula.parse_encode (layer : Layer) (name : String) :
    parse layer (String.ofList (Quoted.encode name.toList)) =
      .ok (var name) := by
  have htakes := Reader.takes_sentence_encode layer name.toList
  rw [String.ofList_toList] at htakes
  apply parse_of_takes
  · rw [String.toList_ofList]
    exact Nesting.excess?_encode layer name.toList
  · rwa [String.toList_ofList]

/-- A name may end in a backslash and hold what would be an operator outside the
quotes. -/
example : Formula.parse .ltl "\"n) & \\\"t\\\\\"" =
    .ok (.var "n) & \"t\\") := by decide +kernel

end LayeredLogic
