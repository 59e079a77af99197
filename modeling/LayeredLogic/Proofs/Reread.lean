import LayeredLogic.Proofs.FirstFailure
import LayeredLogic.Proofs.RoundTrip

/-!
# Reading the canonical text of what was read

A formula that is read from a text without literals in it has a canonical text
which is read back as that formula or refused for its nesting, as long as its
names can stand in a text as they are.  A quoted name or a temporal letter may
not be of that kind, and then the text can mean another formula.
-/

namespace LayeredLogic

namespace Formula

variable {layer : Layer} {source : String} {f g : Formula}

theorem written_of_parse (h : parse layer source = .ok f) :
    f.Written layer ('"' ∈ source.toList) := by
  obtain ⟨t, ht, hassemble⟩ := parse_eq_ok_iff.mp h
  exact (RuleTable.settles_assemble (Tree.grammatical_of_parse ht)).of_eq_ok
    hassemble

private theorem semiReduced_of_parse (h : parse layer source = .ok f) :
    f.SemiReduced := by
  obtain ⟨t, -, hassemble⟩ := parse_eq_ok_iff.mp h
  exact RuleTable.semiReduced_of_assemble hassemble

private theorem belongsTo_of_written {quotes : Prop}
    (h : f.NodeWritten layer quotes) : f.belongsTo layer = true := by
  have hbase : layer.includes .base = true := layer.includes_base
  cases f with
  | unary m a => exact h.1
  | binary m a b => exact h.1
  | junction k args => cases k <;> exact hbase
  | derived c a b => cases c <;> exact hbase
  | literal | var | not => exact hbase

private theorem canonical_of_parse (h : parse layer source = .ok f)
    (hliteral : ∀ value, literal value ∉ f.subformulas)
    (hnames : '"' ∈ source.toList ∨ layer.includes .ltl = true →
      ∀ name, var name ∈ f.subformulas → layer.CanName name.toList) :
    f.Canonical layer := by
  intro g hg
  have hwritten := written_of_parse h g hg
  refine ⟨semiReduced_of_parse h g hg, belongsTo_of_written hwritten, ?_⟩
  cases g with
  | literal value => exact absurd hg (hliteral value)
  | var name =>
      by_cases hcase : '"' ∈ source.toList ∨ layer.includes .ltl = true
      · exact hnames hcase name hg
      · obtain ⟨hword, hfree⟩ :=
          hwritten.resolve_left fun hquote => hcase (Or.inl hquote)
        exact ⟨hword, hfree, fun hltl => absurd (Or.inr hltl) hcase⟩
  | unary m a => exact hwritten.2
  | binary m a b => exact hwritten.2
  | not | junction | derived => trivial

/-- A formula that was read is never read back as another one if its names can
stand in a text.  In the base layer every name can that was not quoted. -/
theorem eq_of_parse_text (h : parse layer source = .ok f)
    (hliteral : ∀ value, literal value ∉ f.subformulas)
    (hnames : '"' ∈ source.toList ∨ layer.includes .ltl = true →
      ∀ name, var name ∈ f.subformulas → layer.CanName name.toList)
    (hg : parse layer f.text = .ok g) : g = f := by
  have hcanonical := canonical_of_parse h hliteral hnames
  obtain ⟨t, ht, -⟩ := parse_eq_ok_iff.mp hg
  have hnesting := (Tree.parse_eq_ok_iff.mp ht).1
  have hback : parse layer f.text = .ok f := by
    apply parse_of_takes hnesting
    rw [text, String.toList_ofList]
    exact takes_sentence hcanonical
  exact Except.ok.inj (hg.symm.trans hback)

theorem eq_of_parse_text_until :
    ∃ f g, parse .ltl "\"p\" U !q" = .ok f ∧ parse .ltl f.text = .ok g ∧
    g = f := by
  have hparse : parse .ltl "\"p\" U !q" =
      .ok (binary (.until none) (var "p") (not (var "q"))) := by
    decide +kernel
  have hback :
      parse .ltl (binary (.until none) (var "p") (not (var "q"))).text =
      .ok (binary (.until none) (var "p") (not (var "q"))) := by
    decide +kernel
  have hnames : ∀ name, var name ∈
      (binary (.until none) (var "p") (not (var "q"))).subformulas →
        Layer.ltl.CanName name.toList := by
    intro name hname
    simp only [subformulas, List.mem_cons, List.mem_append, reduceCtorEq,
      var.injEq, List.not_mem_nil, or_false, false_or] at hname
    rcases hname with rfl | rfl <;> decide
  exact ⟨_, _, hparse, hback,
    eq_of_parse_text hparse (by simp [subformulas]) (fun _ => hnames) hback⟩

/-- A quoted name may look like a formula, and temporal letters that were names
between parentheses are operators without them. -/
theorem parse_text_ne :
    (parse .base "\"a & b\"" = .ok (var "a & b") ∧
      parse .base (var "a & b").text = .ok (junction .and [var "a", var "b"])) ∧
    (parse .ltl "(X) U Ua" = .ok (binary (.until none) (var "X") (var "Ua")) ∧
      parse .ltl (binary (.until none) (var "X") (var "Ua")).text = .ok
        (binary (.until none) (unary (.next none) (var "U")) (var "a"))) := by
  decide +kernel

end Formula

end LayeredLogic
