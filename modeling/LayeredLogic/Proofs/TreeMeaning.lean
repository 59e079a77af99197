import LayeredLogic.Proofs.Assembled
import LayeredLogic.Proofs.Meaning

/-!
# The meaning of a tree

A tree has a meaning of its own, read off node by node without any formula in
between.  Assembly folds literals, splices chains and cancels negations, and the
formula that it gives still means what the tree means.
-/

namespace LayeredLogic

open scoped symmDiff

universe u

namespace Part

def bound? (part : Part) : Option UInt64 := part.signed?.map Int64.toUInt64

/-- The interval whose bounds are the numbers under a node. -/
def bounds? : Part → Option Interval
  | tree (.node _ [start, stop] _) =>
      if h : Ordered start.bound? stop.bound? then
        some ⟨start.bound?, stop.bound?, h⟩ else none
  | tree _ | token _ | absent => none

def name? : Part → Option String
  | token t => some t.name
  | tree _ | absent => none

def labels : Part → LabelSet
  | tree t => .ofList (t.parts.filterMap name?)
  | token _ | absent => .empty

theorem IsBound.bound?_eq {part : Part} {n : Option Int64}
    (h : part.IsBound n) : part.bound? = n.map Int64.toUInt64 := by
  rw [bound?, h.signed?_eq]

end Part

theorem readBound?_eq_ok {n : Option Int64} {bound : Option UInt64}
    (h : readBound? n = .ok bound) : bound = n.map Int64.toUInt64 := by
  cases n with
  | none => exact (Except.ok.inj h).symm
  | some n =>
      change some <$> readBound n = .ok bound at h
      unfold readBound at h
      by_cases hn : n < 0
      · rw [if_pos hn] at h
        cases h
      · rw [if_neg hn] at h
        exact (Except.ok.inj h).symm

private theorem Interval.ofSigned_eq_ok {m n : Option Int64} {i : Interval}
    (h : ofSigned m n = .ok i) :
    i.start = m.map Int64.toUInt64 ∧ i.stop = n.map Int64.toUInt64 := by
  unfold ofSigned at h
  cases hstart : readBound? m with
  | error e => simp [hstart, bind, Except.bind] at h
  | ok start =>
      cases hstop : readBound? n with
      | error e => simp [hstart, hstop, bind, Except.bind] at h
      | ok stop =>
          simp only [hstart, hstop, bind, Except.bind] at h
          rw [← readBound?_eq_ok hstart, ← readBound?_eq_ok hstop]
          exact ofBounds_eq_ok_iff.mp h

namespace Part

theorem IsBounds.bounds?_eq {part : Part} {i : Option Interval}
    (h : part.IsBounds i) : part.bounds? = i := by
  cases h with
  | absent => rfl
  | interval h =>
      cases h with
      | @bounds start stop m n _ span hstart hstop hi =>
          rename_i i
          obtain ⟨hm, hn⟩ := Interval.ofSigned_eq_ok hi
          rw [← hstart.bound?_eq] at hm
          rw [← hstop.bound?_eq] at hn
          have hordered : Ordered start.bound? stop.bound? :=
            hm ▸ hn ▸ i.ordered
          rw [bounds?, dif_pos hordered, Option.some.injEq, Interval.eq_iff]
          exact ⟨hm.symm, hn.symm⟩

private theorem labels_of_isLabelsOf {t : Tree} {ls : LabelSet}
    (h : t.IsLabelsOf ls) : (tree t).labels = ls := by
  cases h with
  | names span h =>
      rw [labels, Tree.parts, List.filterMap_map]
      exact congrArg LabelSet.ofList
        (List.filterMap_eq_map (f := Token.name) ▸ rfl)

end Part

namespace Interpretation

variable {α : Type u} [BooleanAlgebra α] (I : Interpretation α)

mutual

/-- What a tree means.  A rule stands for the operation of its connective or
modality on the meanings of the formulas under it; a tree that no table accepts
means nothing and is read as bottom. -/
def reading : Tree → α
  | .node name parts _ =>
      match Rule.ofName? name, parts with
      | some .variable, [.token t] => I.name t.name
      | some .literal, [.token t] =>
          if t.name ∈ ["1", "TRUE", "true"] then ⊤ else ⊥
      | some .negation, [.tree t] => (reading t)ᶜ
      | some .conjunction, parts => Junction.and.gather (readings parts)
      | some .disjunction, parts => Junction.or.gather (readings parts)
      | some .implies, [.tree t, .tree u] => reading t ⇨ reading u
      | some .equiv, [.tree t, .tree u] => reading t ⇔ reading u
      | some .xor, [.tree t, .tree u] => reading t ∆ reading u
      | some .next, [count, .tree t] => I.unary (.next count.bound?) (reading t)
      | some .always, [bounds, .tree t] =>
          I.unary (.always bounds.bounds?) (reading t)
      | some .eventually, [bounds, .tree t] =>
          I.unary (.eventually bounds.bounds?) (reading t)
      | some .everywhere, [bounds, .tree t] =>
          I.unary (.everywhere bounds.bounds?) (reading t)
      | some .somewhere, [bounds, .tree t] =>
          I.unary (.somewhere bounds.bounds?) (reading t)
      | some .escape, [bounds, .tree t] =>
          I.unary (.escape bounds.bounds?) (reading t)
      | some .until, [.tree t, bounds, .tree u] =>
          I.binary (.until bounds.bounds?) (reading t) (reading u)
      | some .reach, [.tree t, bounds, .tree u] =>
          I.binary (.reach bounds.bounds?) (reading t) (reading u)
      | some .graphIncoming, [names, edges, .tree t] =>
          I.unary (.graph .incoming names.labels edges.bounds?) (reading t)
      | some .graphOutgoing, [names, edges, .tree t] =>
          I.unary (.graph .outgoing names.labels edges.bounds?) (reading t)
      | _, _ => ⊥

/-- The meanings of the trees among the parts of a node. -/
def readings : List Part → List α
  | [] => []
  | .tree t :: rest => reading t :: readings rest
  | .token _ :: rest | .absent :: rest => readings rest

end

variable {I} {t u : Tree} {span : Span}

private theorem readings_trees {ι : Type} (tree : ι → Tree) (xs : List ι) :
    I.readings (xs.map fun x => .tree (tree x)) = xs.map fun x =>
      I.reading (tree x) := by
  induction xs with
  | nil => rfl
  | cons x xs ih => rw [List.map_cons, readings, ih, List.map_cons]

private theorem reading_junction (k : Junction) (parts : List Part) :
    I.reading (.node k.rule.name parts span) = k.gather (I.readings parts) := by
  cases k <;> rfl

private theorem reading_derived (c : Connective) :
    I.reading (.node c.rule.name [.tree t, .tree u] span) =
      c.combine (I.reading t) (I.reading u) := by
  cases c <;> rfl

private theorem reading_unary {rule : Rule}
    {modality : Option Interval → UnaryModality}
    (h : rule.unary? = some modality) (bounds : Part) :
    I.reading (.node rule.name [bounds, .tree t] span) =
      I.unary (modality bounds.bounds?) (I.reading t) := by
  cases rule <;> cases h <;> rfl

private theorem reading_binary {rule : Rule}
    {modality : Option Interval → BinaryModality}
    (h : rule.binary? = some modality) (bounds : Part) :
    I.reading (.node rule.name [.tree t, bounds, .tree u] span) =
      I.binary (modality bounds.bounds?) (I.reading t) (I.reading u) := by
  cases rule <;> cases h <;> rfl

private theorem reading_graph (direction : Direction) (labels edges : Part) :
    I.reading (.node direction.rule.name [labels, edges, .tree t] span) =
      I.unary (.graph direction labels.labels edges.bounds?) (I.reading t) := by
  cases direction <;> rfl

private theorem meaning_of_assembles {layer : Layer} {f : Formula}
    (h : t.Assembles layer f) : I.meaning f = I.reading t := by
  induction h with
  | atom span h => rfl
  | @literal t span h =>
      have hspelling : Handler.trueSpellings.contains t.name =
          decide (t.name ∈ ["1", "TRUE", "true"]) := List.contains_eq_mem _ _
      have hreading : I.reading (.node Rule.literal.name [.token t] span) =
          if t.name ∈ ["1", "TRUE", "true"] then ⊤ else ⊥ := rfl
      rw [hreading, meaning, hspelling]
      simp only [decide_eq_true_eq]
  | negation span _ ih =>
      rw [meaning_neg, ih]
      rfl
  | junction k span hlength _ ih =>
      rw [reading_junction, readings_trees, meaning_joinAll, List.map_map]
      exact congrArg k.gather (List.map_congr_left ih)
  | derived c span _ _ iht ihu => rw [reading_derived, meaning, iht, ihu]
  | @next count n steps t a span hlayer hcount hsteps _ ih =>
      have hreading : I.reading (.node Rule.next.name [count, .tree t] span) =
          I.unary (.next count.bound?) (I.reading t) := rfl
      rw [hreading, meaning, ih, hcount.bound?_eq, ← readBound?_eq_ok hsteps]
  | unary span hknown hlayer hbounds _ ih =>
      rw [reading_unary hknown, meaning, ih, hbounds.bounds?_eq]
  | binary span hknown hlayer hbounds _ _ iht ihu =>
      rw [reading_binary hknown, meaning, iht, ihu, hbounds.bounds?_eq]
  | graph direction span hlayer hlabels hnonempty hedges _ ih =>
      rw [reading_graph, meaning, ih, hedges.bounds?_eq,
        Part.labels_of_isLabelsOf hlabels]

/-- Whatever assembly simplifies on the way, the formula means what the tree
means, in every interpretation. -/
theorem meaning_assemble (I : Interpretation α) {layer : Layer} {f : Formula}
    (h : (RuleTable.ofLayer layer).assemble t = .ok f) :
    I.meaning f = I.reading t :=
  meaning_of_assembles (RuleTable.assemble_iff_assembles.mp h)

/-- A literal vanishes from the chain and two negations cancel, and one variable
is left. -/
theorem meaning_assemble_chain :
    let I : Interpretation Bool :=
      ⟨fun name => name == "a", fun _ x => x, fun _ x y => x && y⟩
    let leaf (rule : Rule) (kind : TokenKind) (text : String) : Tree :=
      .node rule.name [.token ⟨kind.tag, text, ⟨0, 1⟩⟩] ⟨0, 1⟩
    let negation (t : Tree) : Tree := .node Rule.negation.name [.tree t] ⟨0, 1⟩
    let t : Tree := .node Rule.conjunction.name
      [.tree (leaf .literal .literal "1"),
        .tree (negation (negation (leaf .variable .quoted "\"a\"")))] ⟨0, 1⟩
    (RuleTable.ofLayer .base).assemble t = .ok (.var "a") ∧
      I.meaning (.var "a") = I.reading t := by
  intro I leaf negation t
  have hassemble : (RuleTable.ofLayer .base).assemble t = .ok (.var "a") := by
    decide +kernel
  exact ⟨hassemble, meaning_assemble I hassemble⟩

end Interpretation

end LayeredLogic
