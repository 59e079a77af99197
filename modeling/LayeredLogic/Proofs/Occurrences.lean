import LayeredLogic.Proofs.Assembled
import LayeredLogic.Proofs.Grammatical
import LayeredLogic.Proofs.Placement
import LayeredLogic.Proofs.Rewriting

/-!
# Occurrences of variables

The variables of a formula in pre-order are those of its operands one after the
other, and every way of building a formula without literals puts its operands
together in their order.  What is assembled from a tree without literals
therefore has the variables of the tree, in the order in which they stand in the
text.
-/

namespace LayeredLogic

namespace Formula

variable {k : Junction} {a b : Formula} {args : List Formula}

theorem variableNames_eq (f : Formula) :
    f.variableNames =
      f.varName?.toList ++ f.children.flatMap variableNames := by
  have hbelow : ∀ fs : List Formula,
      (fs.flatMap subformulas).filterMap varName? =
        fs.flatMap variableNames := by
    intro fs
    rw [List.filterMap_flatMap]
    exact congrArg fs.flatMap
      (funext fun g => by rw [variableNames, preorder_eq_subformulas])
  rw [variableNames, preorder_eq_subformulas, subformulas_eq,
    List.filterMap_cons, hbelow]
  cases f <;> rfl

@[simp] theorem variableNames_literal (value : Bool) :
    (literal value).variableNames = [] := by
  simp [variableNames_eq (literal value), varName?, children]

@[simp] theorem variableNames_var (name : String) :
    (var name).variableNames = [name] := by
  simp [variableNames_eq (var name), varName?, children]

@[simp] theorem variableNames_not (a : Formula) :
    (not a).variableNames = a.variableNames := by
  simp [variableNames_eq (not a), varName?, children]

@[simp] theorem variableNames_junction (k : Junction) (args : List Formula) :
    (junction k args).variableNames = args.flatMap variableNames := by
  simp [variableNames_eq (junction k args), varName?, children]

@[simp] theorem variableNames_derived (c : Connective) (a b : Formula) :
    (derived c a b).variableNames = a.variableNames ++ b.variableNames := by
  simp [variableNames_eq (derived c a b), varName?, children]

@[simp] theorem variableNames_unary (m : UnaryModality) (a : Formula) :
    (unary m a).variableNames = a.variableNames := by
  simp [variableNames_eq (unary m a), varName?, children]

@[simp] theorem variableNames_binary (m : BinaryModality) (a b : Formula) :
    (binary m a b).variableNames = a.variableNames ++ b.variableNames := by
  simp [variableNames_eq (binary m a b), varName?, children]

@[simp] theorem variableNames_neg (a : Formula) :
    (neg a).variableNames = a.variableNames := by
  cases a <;> simp [neg]

theorem flatMap_variableNames_operandsFor (k : Junction) (a : Formula) :
    (a.operandsFor k).flatMap variableNames = a.variableNames := by
  cases a with
  | junction j args =>
      rw [operandsFor]
      split <;> simp
  | literal | var | not | derived | unary | binary => simp [operandsFor]

private theorem variableNames_join (ha : a.Grounded) (hb : b.Grounded) :
    (join k a b).variableNames = a.variableNames ++ b.variableNames := by
  rw [join_of_not_literal ha.not_isLiteral hb.not_isLiteral,
    variableNames_junction, List.flatMap_append,
    flatMap_variableNames_operandsFor, flatMap_variableNames_operandsFor]

/-- No operand is lost, doubled or moved, since none of them is a literal that
absorbs the rest. -/
private theorem variableNames_joinAll (h : ∀ a ∈ args, a.Grounded) :
    (joinAll k args).variableNames = args.flatMap variableNames := by
  induction args with
  | nil => simp
  | cons a rest ih =>
      obtain ⟨ha, hrest⟩ := List.forall_mem_cons.mp h
      rw [joinAll_cons, List.flatMap_cons, ← ih hrest]
      cases rest with
      | nil => simp
      | cons b rest =>
          exact variableNames_join ha
            (Grounded.joinAll (List.cons_ne_nil b rest) hrest)

end Formula

/-! ## Variables in a tree -/

namespace Tree

mutual

def variableTokens : Tree → List Token
  | node rule parts _ => variableTokensOfParts rule parts

def variableTokensOfParts (rule : String) : List Part → List Token
  | [] => []
  | .tree t :: rest => t.variableTokens ++ variableTokensOfParts rule rest
  | .token t :: rest =>
      if rule = Rule.variable.name then t :: variableTokensOfParts rule rest
      else variableTokensOfParts rule rest
  | .absent :: rest => variableTokensOfParts rule rest

end

end Tree

def Part.variableTokens (rule : String) : Part → List Token
  | tree t => t.variableTokens
  | token t => if rule = Rule.variable.name then [t] else []
  | absent => []

namespace Tree

theorem variableTokens_node (rule : String) (parts : List Part) (span : Span) :
    (node rule parts span).variableTokens =
      parts.flatMap (Part.variableTokens rule) := by
  rw [variableTokens]
  induction parts with
  | nil => rfl
  | cons part parts ih =>
      rw [List.flatMap_cons, ← ih]
      cases part with
      | tree t => rfl
      | token t =>
          rw [variableTokensOfParts, Part.variableTokens]
          split <;> rfl
      | absent => rfl

end Tree

namespace Part

variable {rule : Rule} {part : Part}

@[simp] theorem variableTokens_tree (name : String) (t : Tree) :
    (tree t).variableTokens name = t.variableTokens := rfl

@[simp] theorem variableTokens_token (t : Token) :
    (token t).variableTokens Rule.variable.name = [t] := rfl

theorem variableTokens_eq_nil (hrule : rule ≠ .variable)
    (h : ∀ t, part ≠ .tree t) : part.variableTokens rule.name = [] := by
  have hname : rule.name ≠ Rule.variable.name := Rule.name_ne hrule
  cases part with
  | tree t => exact absurd rfl (h t)
  | token t => exact if_neg hname
  | absent => rfl

theorem exists_span_of_mem {name : String} {x : Token}
    (h : ∀ t, part = .tree t → ∀ y ∈ t.variableTokens,
      t.span.start ≤ y.span.start ∧ y.span.stop ≤ t.span.stop)
    (hx : x ∈ part.variableTokens name) :
    ∃ s ∈ part.span?, s.start ≤ x.span.start ∧ x.span.stop ≤ s.stop := by
  cases part with
  | tree t => exact ⟨t.span, rfl, h t rfl x hx⟩
  | token t =>
      rw [variableTokens] at hx
      split at hx
      · obtain rfl := List.mem_singleton.mp hx
        exact ⟨x.span, rfl, Nat.le_refl _, Nat.le_refl _⟩
      · cases hx
  | absent => cases hx

end Part

theorem Tree.variableTokens_eq_nil {rule : Rule} {parts : List Part}
    {span : Span} (hrule : rule ≠ .variable)
    (h : ∀ part ∈ parts, ∀ t, part ≠ .tree t) :
    (node rule.name parts span).variableTokens = [] := by
  rw [variableTokens_node, List.flatMap_eq_nil_iff]
  exact fun part hpart => Part.variableTokens_eq_nil hrule (h part hpart)

namespace Part

variable {rule : Rule} {part : Part}

theorem IsBound.ne_tree {n : Option Int64} (h : part.IsBound n) (t : Tree) :
    part ≠ .tree t := by
  cases h <;> simp

theorem IsBounds.variableTokens_eq_nil {i : Option Interval}
    (h : part.IsBounds i) (name : String) : part.variableTokens name = [] := by
  cases h with
  | absent => rfl
  | interval h =>
      cases h with
      | bounds span hstart hstop =>
          rw [variableTokens_tree]
          exact Tree.variableTokens_eq_nil (by decide)
            (List.forall_mem_cons.mpr
              ⟨hstart.ne_tree, List.forall_mem_singleton.mpr hstop.ne_tree⟩)

theorem ofToken?_ne_tree (t? : Option Token) (t : Tree) :
    ofToken? t? ≠ .tree t := by
  cases t? <;> simp [ofToken?]

theorem variableTokens_ofTree? {bounds : Option Tree}
    (h : ∀ i ∈ bounds, i.IsInterval) (name : String) :
    (ofTree? bounds).variableTokens name = [] := by
  cases bounds with
  | none => rfl
  | some i =>
      cases h i rfl with
      | @bounds start stop span =>
          rw [ofTree?, variableTokens_tree]
          exact Tree.variableTokens_eq_nil (by decide)
            (List.forall_mem_cons.mpr ⟨ofToken?_ne_tree start,
              List.forall_mem_singleton.mpr (ofToken?_ne_tree stop)⟩)

end Part

namespace Tree

variable {layer : Layer} {t : Tree} {f : Formula}

theorem IsLabelsOf.variableTokens_eq_nil {ls : LabelSet} (h : t.IsLabelsOf ls) :
    t.variableTokens = [] := by
  cases h with
  | names span h =>
      exact variableTokens_eq_nil (by decide)
        (List.forall_mem_map.mpr fun _ _ _ => by simp)

theorem IsGraphList.variableTokens_eq_nil (h : t.IsGraphList) :
    t.variableTokens = [] := by
  cases h with
  | labels span h =>
      exact Tree.variableTokens_eq_nil (by decide)
        (List.forall_mem_map.mpr fun _ _ _ => by simp)

def LiteralFree (t : Tree) : Prop :=
  ∀ u ∈ t.subtrees, u.rule ≠ Rule.literal.name

theorem LiteralFree.part {rule : String} {parts : List Part} {span : Span}
    (h : (node rule parts span).LiteralFree) {u : Tree} (hu : .tree u ∈ parts) :
    u.LiteralFree := by
  intro v hv
  exact h v (List.mem_cons_of_mem _ (mem_subtreesOfParts.mpr ⟨u, hu, hv⟩))

/-- The variables of a tree without literals are those of its formula, and no
junction in the formula has run out of operands. -/
theorem Assembles.variableNames_eq (h : t.Assembles layer f)
    (hfree : t.LiteralFree) :
    f.Grounded ∧ f.variableNames = t.variableTokens.map Token.name := by
  induction h with
  | atom span h =>
      exact ⟨Formula.grounded_iff.mpr
        ⟨fun _ => ⟨_, rfl⟩, by simp [Formula.children]⟩,
        by simp [variableTokens_node]⟩
  | literal span h => exact absurd rfl (hfree _ List.mem_cons_self)
  | negation span _ ih =>
      obtain ⟨hground, hnames⟩ := ih (hfree.part (by simp))
      exact ⟨hground.neg, by simp [variableTokens_node, hnames]⟩
  | @junction k operands span hlength _ ih =>
      have hoperands : ∀ p ∈ operands, p.2.Grounded ∧
          p.2.variableNames = p.1.variableTokens.map Token.name := fun p hp =>
        ih p hp (hfree.part (List.mem_map_of_mem hp))
      have hground : ∀ a ∈ operands.map Prod.snd, a.Grounded :=
        List.forall_mem_map.mpr fun p hp => (hoperands p hp).1
      refine ⟨Formula.Grounded.joinAll ?_ hground, ?_⟩
      · rintro hnil
        rw [List.map_eq_nil_iff.mp hnil] at hlength
        simp at hlength
      · rw [Formula.variableNames_joinAll hground, variableTokens_node,
          List.flatMap_map, List.flatMap_map, List.map_flatMap]
        exact List.flatMap_congr fun p hp => (hoperands p hp).2
  | derived c span _ _ iht ihu =>
      obtain ⟨hground, hnames⟩ := iht (hfree.part (by simp))
      obtain ⟨hground', hnames'⟩ := ihu (hfree.part (by simp))
      exact ⟨Formula.grounded_derived.mpr ⟨hground, hground'⟩,
        by simp [variableTokens_node, hnames, hnames']⟩
  | next span hlayer hcount hsteps _ ih =>
      obtain ⟨hground, hnames⟩ := ih (hfree.part (by simp))
      have hnone :=
        Part.variableTokens_eq_nil (show Rule.next ≠ .variable by decide)
          hcount.ne_tree
      exact ⟨Formula.grounded_unary.mpr hground,
        by simp [variableTokens_node, hnone, hnames]⟩
  | @unary rule modality bounds i t a span hknown hlayer hbounds _ ih =>
      obtain ⟨hground, hnames⟩ := ih (hfree.part (by simp))
      exact ⟨Formula.grounded_unary.mpr hground, by
        simp [variableTokens_node, hbounds.variableTokens_eq_nil, hnames]⟩
  | binary span hknown hlayer hbounds _ _ iht ihu =>
      obtain ⟨hground, hnames⟩ := iht (hfree.part (by simp))
      obtain ⟨hground', hnames'⟩ := ihu (hfree.part (by simp))
      exact ⟨Formula.grounded_binary.mpr ⟨hground, hground'⟩, by
        simp [variableTokens_node, hbounds.variableTokens_eq_nil, hnames,
          hnames']⟩
  | graph direction span hlayer hlabels hnonempty hedges _ ih =>
      obtain ⟨hground, hnames⟩ := ih (hfree.part (by simp))
      exact ⟨Formula.grounded_unary.mpr hground, by
        simp [variableTokens_node, hedges.variableTokens_eq_nil,
          hlabels.variableTokens_eq_nil, hnames]⟩

private theorem Grammatical.variableTokens_kind {quotes : Prop}
    (h : t.Grammatical layer quotes) :
    ∀ x ∈ t.variableTokens,
      x.kind = TokenKind.name.tag ∨ x.kind = TokenKind.quoted.tag := by
  induction h with
  | literal span hkind =>
      simp [variableTokens_eq_nil (show Rule.literal ≠ .variable by decide)]
  | name span hname => simp [variableTokens_node, hname.1]
  | quoted span hquotes hkind => simp [variableTokens_node, hkind]
  | negation span _ ih => simpa [variableTokens_node] using ih
  | junction k span hlength _ ih =>
      simpa [variableTokens_node] using fun x t ht hx => ih t ht x hx
  | derived c span _ _ iht ihu =>
      simpa [variableTokens_node, or_imp, forall_and] using ⟨iht, ihu⟩
  | @next count t span hlayer hcount _ ih =>
      have hnone :=
        Part.variableTokens_eq_nil (show Rule.next ≠ .variable by decide)
        (Part.ofToken?_ne_tree count)
      simpa [variableTokens_node, hnone] using ih
  | unary span hknown hlayer hbounds _ ih =>
      simpa [variableTokens_node, Part.variableTokens_ofTree? hbounds] using ih
  | binary span hknown hlayer hbounds _ _ iht ihu =>
      simpa [variableTokens_node, Part.variableTokens_ofTree? hbounds, or_imp,
        forall_and]
        using ⟨iht, ihu⟩
  | graph direction span hlayer hlabels hedges _ ih =>
      simpa [variableTokens_node, hlabels.variableTokens_eq_nil,
        Part.variableTokens_ofTree? hedges] using ih

/-! ## Order in the text -/

variable {source : String}

theorem variableTokens_inside (h : t.Faithful source) :
    ∀ x ∈ t.variableTokens, t.span.start ≤ x.span.start ∧
    x.span.stop ≤ t.span.stop := by
  induction t using Tree.induct with
  | node rule parts span ih =>
      obtain ⟨hplaced, hparts⟩ := faithful_node_iff.mp h
      intro x hx
      rw [variableTokens_node] at hx
      obtain ⟨part, hpart, hx⟩ := List.mem_flatMap.mp hx
      obtain ⟨s, hs, hstart, hstop⟩ := Part.exists_span_of_mem
        (fun t ht => ih t (ht ▸ hpart) (hparts t (ht ▸ hpart))) hx
      obtain ⟨hstart', hstop'⟩ :=
        hplaced.inside s (List.mem_filterMap.mpr ⟨part, hpart, hs⟩)
      exact ⟨Nat.le_trans hstart' hstart, Nat.le_trans hstop hstop'⟩

private theorem variableTokens_ordered (h : t.Faithful source) :
    t.variableTokens.Pairwise fun x y => x.span.stop ≤ y.span.start := by
  induction t using Tree.induct with
  | node rule parts span ih =>
      obtain ⟨hplaced, hparts⟩ := faithful_node_iff.mp h
      rw [variableTokens_node, List.pairwise_flatMap]
      constructor
      · intro part hpart
        cases part with
        | tree t => exact ih t hpart (hparts t hpart)
        | token t =>
            rw [Part.variableTokens]
            split <;> simp
        | absent => exact .nil
      · have hordered := List.pairwise_filterMap.mp hplaced.ordered
        refine hordered.imp_of_mem
          fun {part part'} hpart hpart' hspans x hx y hy => ?_
        obtain ⟨s, hs, -, hstop⟩ := Part.exists_span_of_mem
          (fun t ht => variableTokens_inside (hparts t (ht ▸ hpart))) hx
        obtain ⟨s', hs', hstart, -⟩ := Part.exists_span_of_mem
          (fun t ht => variableTokens_inside (hparts t (ht ▸ hpart'))) hy
        exact Nat.le_trans hstop (Nat.le_trans (hspans s hs s' hs') hstart)

end Tree

namespace Formula

/-- No variable of a text is lost, doubled or moved: without literals in its
tree, the variables of its formula are the names and quoted names of the text,
in the order in which they stand there. -/
theorem variableNames_of_parse {layer : Layer} {source : String} {f : Formula}
    {t : Tree} (hf : Formula.parse layer source = .ok f)
    (ht : Tree.parse layer source = .ok t)
    (hfree : ∀ u ∈ t.subtrees, u.rule ≠ Rule.literal.name) :
    f.variableNames = t.variableTokens.map Token.name ∧
      (t.variableTokens.Pairwise fun x y => x.span.stop ≤ y.span.start) ∧
      ∀ x ∈ t.variableTokens, x.kind = TokenKind.name.tag ∨
      x.kind = TokenKind.quoted.tag := by
  obtain ⟨u, hu, hassemble⟩ := parse_eq_ok_iff.mp hf
  obtain rfl := Except.ok.inj (ht.symm.trans hu)
  have hassembles := RuleTable.assemble_iff_assembles.mp hassemble
  exact ⟨(hassembles.variableNames_eq hfree).2,
    Tree.variableTokens_ordered (Tree.faithful_of_parse ht),
    (Tree.grammatical_of_parse ht).variableTokens_kind⟩

/-- Here two negations cancel, a chain is spliced into another, and a quoted
name has an escape. -/
theorem variableNames_of_parse_spliced :
    ∃ f t, Formula.parse .ltl "a & (\"b\\n\" & !!(c & a)) -> G d" = .ok f ∧
      Tree.parse .ltl "a & (\"b\\n\" & !!(c & a)) -> G d" = .ok t ∧
      (∀ u ∈ t.subtrees, u.rule ≠ Rule.literal.name) ∧
      t.variableTokens.map Token.name = ["a", "b\n", "c", "a", "d"] ∧
      f.variableNames = t.variableTokens.map Token.name ∧
      (t.variableTokens.Pairwise fun x y => x.span.stop ≤ y.span.start) ∧
      ∀ x ∈ t.variableTokens, x.kind = TokenKind.name.tag ∨
      x.kind = TokenKind.quoted.tag := by
  have hf : Formula.parse .ltl "a & (\"b\\n\" & !!(c & a)) -> G d" =
      .ok (derived .implies
      (junction .and [var "a", var "b\n", var "c", var "a"])
      (unary (.always none) (var "d"))) := by
    decide +kernel
  have htree :
      (Tree.parse .ltl "a & (\"b\\n\" & !!(c & a)) -> G d").toOption.map
      (fun t => (t.subtrees.map Tree.rule, t.variableTokens.map Token.name)) =
      some (["implies", "mul", "var", "mul", "var", "neg", "neg", "mul", "var",
        "var", "always",
        "var"], ["a", "b\n", "c", "a", "d"]) := by
    decide +kernel
  obtain ⟨t, ht, -⟩ := parse_eq_ok_iff.mp hf
  rw [ht] at htree
  obtain ⟨hrules, hnames⟩ := Prod.mk.inj (Option.some.inj htree)
  have hfree : ∀ u ∈ t.subtrees, u.rule ≠ Rule.literal.name := by
    intro u hu hliteral
    have hmem := List.mem_map_of_mem (f := Tree.rule) hu
    rw [hrules, hliteral] at hmem
    exact absurd hmem (by decide)
  exact ⟨_, t, hf, ht, hfree, hnames, variableNames_of_parse hf ht hfree⟩

end Formula

end LayeredLogic
