import LayeredLogic.Proofs.Assembled

/-!
# Sorts of trees

Every part has a sort, which is the kind of the value that it stands for.  A
node has one when its rule is known in the layer and takes parts of the sorts
that stand under it.  The trees of the sort of formulas are exactly those that a
layer's table assembles.
-/

namespace LayeredLogic

/-- Whether a part of one kind may stand where another is expected.  Intervals
and integers may be left out. -/
def ValueKind.accepts (expected found : ValueKind) : Bool :=
  found = expected ||
    (found = .absent && (expected = .interval || expected = .integer))

namespace Part

def parts : Part → List Part
  | tree t => t.parts
  | token _ | absent => []

/-- The sorts of parts, with one rule for each way to have one. -/
inductive HasSort (layer : Layer) : Part → ValueKind → Prop
  | absent : HasSort layer .absent .absent
  | integer {t : Token} {n : Int64} (h : t.IsNumber n) :
      HasSort layer (.token t) .integer
  | name {t : Token} (h : t.IsName) : HasSort layer (.token t) .name
  | leaf {rule : Rule} {part : Part} (span : Span)
      (hrule : rule = .variable ∨ rule = .literal)
      (h : HasSort layer part .name) :
      HasSort layer (.tree (.node rule.name [part] span)) .formula
  | negation {part : Part} (span : Span) (h : HasSort layer part .formula) :
      HasSort layer (.tree (.node Rule.negation.name [part] span)) .formula
  | junction (k : Junction) {parts : List Part} (span : Span)
      (hlength : 2 ≤ parts.length)
      (h : ∀ part ∈ parts, HasSort layer part .formula) :
      HasSort layer (.tree (.node k.rule.name parts span)) .formula
  | derived (c : Connective) {lhs rhs : Part} (span : Span)
      (hlhs : HasSort layer lhs .formula)
      (hrhs : HasSort layer rhs .formula) :
      HasSort layer (.tree (.node c.rule.name [lhs, rhs] span)) .formula
  | interval {start stop : Part} {s s' : ValueKind} (span : Span)
      (hstart : HasSort layer start s)
      (hstop : HasSort layer stop s') (hs : ValueKind.integer.accepts s = true)
      (hs' : ValueKind.integer.accepts s' = true)
      (hi : ∃ i, Interval.ofSigned start.signed? stop.signed? = .ok i) :
      HasSort layer (.tree (.node Rule.interval.name [start, stop] span))
        .interval
  | next {count part : Part} {s : ValueKind} (span : Span)
      (hlayer : layer.includes .ltl = true)
      (hcount : HasSort layer count s) (hs : ValueKind.integer.accepts s = true)
      (hsign : ∀ n ∈ count.signed?, 0 ≤ n) (h : HasSort layer part .formula) :
      HasSort layer (.tree (.node Rule.next.name [count, part] span)) .formula
  | unary {rule : Rule} {modality : Option Interval → UnaryModality}
      {bounds part : Part}
      {s : ValueKind} (span : Span) (hknown : rule.unary? = some modality)
      (hlayer : layer.includes rule.layer = true)
      (hbounds : HasSort layer bounds s)
      (hs : ValueKind.interval.accepts s = true)
      (h : HasSort layer part .formula) :
      HasSort layer (.tree (.node rule.name [bounds, part] span)) .formula
  | binary {rule : Rule} {modality : Option Interval → BinaryModality}
      {lhs bounds rhs : Part}
      {s : ValueKind} (span : Span) (hknown : rule.binary? = some modality)
      (hlayer : layer.includes rule.layer = true)
      (hlhs : HasSort layer lhs .formula)
      (hbounds : HasSort layer bounds s)
      (hs : ValueKind.interval.accepts s = true)
      (hrhs : HasSort layer rhs .formula) :
      HasSort layer (.tree (.node rule.name [lhs, bounds, rhs] span)) .formula
  | labels {parts : List Part} (span : Span)
      (hlayer : layer.includes .stlGo = true)
      (h : ∀ part ∈ parts, HasSort layer part .name) :
      HasSort layer (.tree (.node Rule.graphList.name parts span)) .labels
  | graph (direction : Direction) {labels edges part : Part} {s : ValueKind}
      (span : Span)
      (hlayer : layer.includes .stlGo = true)
      (hlabels : HasSort layer labels .labels)
      (hnonempty : labels.parts ≠ []) (hedges : HasSort layer edges s)
      (hs : ValueKind.interval.accepts s = true)
      (h : HasSort layer part .formula) :
      HasSort layer
        (.tree (.node direction.rule.name [labels, edges, part] span)) .formula

end Part

def Tree.HasSort (layer : Layer) (t : Tree) (s : ValueKind) : Prop :=
  (Part.tree t).HasSort layer s

/-! ## Values of a kind -/

namespace Value

theorem exists_formula {v : Value} (h : v.kind = .formula) :
    ∃ f, v = .formula f := by
  cases v with
  | formula f => exact ⟨f, rfl⟩
  | interval | integer | name | labels | absent => cases h

private theorem exists_name {v : Value} (h : v.kind = .name) :
    ∃ s, v = .name s := by
  cases v with
  | name s => exact ⟨s, rfl⟩
  | formula | interval | integer | labels | absent => cases h

private theorem exists_labels {v : Value} (h : v.kind = .labels) :
    ∃ ls, v = .labels ls := by
  cases v with
  | labels ls => exact ⟨ls, rfl⟩
  | formula | interval | integer | name | absent => cases h

private theorem exists_ofInteger? {v : Value}
    (h : ValueKind.integer.accepts v.kind = true) : ∃ n, v = .ofInteger? n := by
  cases v with
  | integer n => exact ⟨some n, rfl⟩
  | absent => exact ⟨none, rfl⟩
  | formula | interval | name | labels => cases h

private theorem exists_ofInterval? {v : Value}
    (h : ValueKind.interval.accepts v.kind = true) :
    ∃ i, v = .ofInterval? i := by
  cases v with
  | interval i => exact ⟨some i, rfl⟩
  | absent => exact ⟨none, rfl⟩
  | formula | integer | name | labels => cases h

theorem accepts_ofInteger? (n : Option Int64) :
    ValueKind.integer.accepts (ofInteger? n).kind = true := by
  cases n <;> rfl

theorem accepts_ofInterval? (i : Option Interval) :
    ValueKind.interval.accepts (ofInterval? i).kind = true := by
  cases i <;> rfl

end Value

theorem readBound?_isOk_iff {n : Option Int64} :
    (∃ steps, readBound? n = .ok steps) ↔ ∀ m ∈ n, 0 ≤ m := by
  cases n with
  | none => exact ⟨fun _ => by simp, fun _ => ⟨none, rfl⟩⟩
  | some n =>
      have hread : readBound? (some n) = some <$> readBound n := rfl
      by_cases hn : n < 0
      · simp [hread, readBound, hn, Functor.map, Except.map,
          Int64.not_le.mpr hn]
      · simp [hread, readBound, hn, Functor.map, Except.map, Int64.not_lt.mp hn]

/-! ## Sorts and values -/

section

variable {layer : Layer}

theorem Tree.IsLabelsOf.isEmpty_eq {t : Tree} {ls : LabelSet}
    (h : t.IsLabelsOf ls) : ls.isEmpty = t.parts.isEmpty := by
  cases h with
  | names span h =>
      rw [LabelSet.isEmpty_ofList]
      simp [Tree.parts, List.isEmpty_map]

namespace Part

theorem exists_forall₂_means {α : Type} {write : α → Value} {parts : List Part}
    (h : ∀ part ∈ parts, ∃ a, Part.Means layer (write a) part) :
    ∃ as : List α, List.Forall₂ (Part.Means layer) (as.map write) parts := by
  induction parts with
  | nil => exact ⟨[], .nil⟩
  | cons part parts ih =>
      obtain ⟨⟨a, ha⟩, hparts⟩ := List.forall_mem_cons.mp h
      obtain ⟨as, has⟩ := ih hparts
      exact ⟨a :: as, .cons ha has⟩

def HasValue (layer : Layer) (part : Part) (s : ValueKind) : Prop :=
  ∃ v, Part.Means layer v part ∧ v.kind = s

namespace HasValue

variable {part : Part} {s : ValueKind}

theorem formula (h : part.HasValue layer .formula) :
    ∃ a, Part.Means layer (.formula a) part := by
  obtain ⟨v, hv, hkind⟩ := h
  obtain ⟨a, rfl⟩ := Value.exists_formula hkind
  exact ⟨a, hv⟩

theorem name (h : part.HasValue layer .name) :
    ∃ s, Part.Means layer (.name s) part := by
  obtain ⟨v, hv, hkind⟩ := h
  obtain ⟨s, rfl⟩ := Value.exists_name hkind
  exact ⟨s, hv⟩

theorem integer (h : part.HasValue layer s)
    (hs : ValueKind.integer.accepts s = true) :
    Part.Means layer (.ofInteger? part.signed?) part := by
  obtain ⟨v, hv, rfl⟩ := h
  obtain ⟨n, rfl⟩ := Value.exists_ofInteger? hs
  rwa [(means_bound_iff.mp hv).signed?_eq]

theorem interval (h : part.HasValue layer s)
    (hs : ValueKind.interval.accepts s = true) :
    ∃ i, Part.Means layer (.ofInterval? i) part := by
  obtain ⟨v, hv, rfl⟩ := h
  obtain ⟨i, rfl⟩ := Value.exists_ofInterval? hs
  exact ⟨i, hv⟩

theorem labels (h : part.HasValue layer .labels) (hnonempty : part.parts ≠ []) :
    ∃ ls : LabelSet, ls.isEmpty = false ∧
    Part.Means layer (.labels ls) part := by
  obtain ⟨v, hv, hkind⟩ := h
  obtain ⟨ls, rfl⟩ := Value.exists_labels hkind
  obtain ⟨t, rfl, ht⟩ := (means_iff_of_isMade (.inr (.inr rfl))).mp hv
  refine ⟨ls, ?_, hv⟩
  rw [(Tree.means_labels_iff.mp ht).2.isEmpty_eq]
  exact List.isEmpty_eq_false_iff.mpr hnonempty

end HasValue

theorem hasValue_node {rule : Rule} {vs : List Value} {v : Value}
    {parts : List Part} (span : Span)
    (hlayer : layer.includes rule.layer = true)
    (hparts : List.Forall₂ (Part.Means layer) vs parts)
    (hmakes : rule.Makes vs v) :
    (tree (.node rule.name parts span)).HasValue layer v.kind := by
  have hnode : Tree.Means layer v (.node rule.name parts span) :=
    Tree.means_node hlayer hparts hmakes
  exact ⟨v, hnode, rfl⟩

private theorem HasSort.hasValue {part : Part} {s : ValueKind}
    (h : part.HasSort layer s) : part.HasValue layer s := by
  have hbase : layer.includes .base = true := layer.includes_base
  induction h with
  | absent => exact ⟨.absent, rfl, rfl⟩
  | integer h => exact ⟨_, means_token_iff.mpr (.inr ⟨_, h, rfl⟩), rfl⟩
  | name h => exact ⟨_, means_token_iff.mpr (.inl ⟨h, rfl⟩), rfl⟩
  | leaf span hrule _ ih =>
      obtain ⟨s, hs⟩ := ih.name
      rcases hrule with rfl | rfl
      · exact hasValue_node span hbase (.cons hs .nil) (.atom s)
      · exact hasValue_node span hbase (.cons hs .nil) (.literal s)
  | negation span _ ih =>
      obtain ⟨a, ha⟩ := ih.formula
      exact hasValue_node span hbase (.cons ha .nil) (.negation a)
  | junction k span hlength _ ih =>
      obtain ⟨args, hargs⟩ :=
        exists_forall₂_means fun part hpart => (ih part hpart).formula
      have hmakes := Rule.Makes.junction k args
        (by rwa [← hargs.length_eq, List.length_map] at hlength)
      exact hasValue_node span (by cases k <;> exact hbase) hargs hmakes
  | derived c span _ _ ihl ihr =>
      obtain ⟨a, ha⟩ := ihl.formula
      obtain ⟨b, hb⟩ := ihr.formula
      exact hasValue_node span (by cases c <;> exact hbase)
        (.cons ha (.cons hb .nil))
        (.derived c a b)
  | interval span _ _ hs hs' hi ihstart ihstop =>
      obtain ⟨i, hi⟩ := hi
      exact hasValue_node span hbase
        (.cons (ihstart.integer hs) (.cons (ihstop.integer hs') .nil))
        (.interval _ _ i hi)
  | next span hlayer _ hs hsign _ ihcount ih =>
      obtain ⟨a, ha⟩ := ih.formula
      obtain ⟨steps, hsteps⟩ := readBound?_isOk_iff.mpr hsign
      exact hasValue_node span hlayer
        (.cons (ihcount.integer hs) (.cons ha .nil))
        (.next _ steps a hsteps)
  | unary span hknown hlayer _ hs _ ihbounds ih =>
      obtain ⟨i, hi⟩ := ihbounds.interval hs
      obtain ⟨a, ha⟩ := ih.formula
      exact hasValue_node span hlayer (.cons hi (.cons ha .nil))
        (.unary _ _ hknown i a)
  | binary span hknown hlayer _ _ hs _ ihl ihbounds ihr =>
      obtain ⟨a, ha⟩ := ihl.formula
      obtain ⟨i, hi⟩ := ihbounds.interval hs
      obtain ⟨b, hb⟩ := ihr.formula
      exact hasValue_node span hlayer (.cons ha (.cons hi (.cons hb .nil)))
        (.binary _ _ hknown i a b)
  | labels span hlayer _ ih =>
      obtain ⟨names, hnames⟩ :=
        exists_forall₂_means fun part hpart => (ih part hpart).name
      exact hasValue_node span hlayer hnames (.graphList names)
  | graph direction span hlayer _ hnonempty _ hs _ ihlabels ihedges ih =>
      obtain ⟨ls, hls, hlabels⟩ := ihlabels.labels hnonempty
      obtain ⟨i, hi⟩ := ihedges.interval hs
      obtain ⟨a, ha⟩ := ih.formula
      exact hasValue_node span (by cases direction <;> exact hlayer)
        (.cons hlabels (.cons hi (.cons ha .nil))) (.graph direction ls i a hls)

private theorem hasSort_node {rule : Rule} {vs : List Value} {v : Value}
    {parts : List Part} {span : Span}
    (hlayer : layer.includes rule.layer = true) (hmakes : rule.Makes vs v)
    (hmeans : List.Forall₂ (Part.Means layer) vs parts)
    (hparts :
      ∀ part ∈ parts,
      ∀ w, Part.Means layer w part → part.HasSort layer w.kind) :
    (tree (.node rule.name parts span)).HasSort layer v.kind := by
  cases hmakes with
  | negation a =>
      obtain ⟨part, rfl, ha⟩ := forall₂_one hmeans
      exact .negation span (hparts _ (by simp) _ ha)
  | junction k args hlength =>
      refine .junction k span ?_ fun part hpart => ?_
      · rwa [← hmeans.length_eq, List.length_map]
      · obtain ⟨operands, rfl, hoperands, -⟩ :=
          forall₂_means_formulas_iff.mp hmeans
        obtain ⟨p, hp, rfl⟩ := List.mem_map.mp hpart
        exact hparts _ hpart _ (hoperands p hp)
  | derived c a b =>
      obtain ⟨lhs, rhs, rfl, ha, hb⟩ := forall₂_two hmeans
      exact .derived c span (hparts _ (by simp) _ ha) (hparts _ (by simp) _ hb)
  | atom s =>
      obtain ⟨part, rfl, hs⟩ := forall₂_one hmeans
      exact .leaf span (.inl rfl) (hparts _ (by simp) _ hs)
  | literal s =>
      obtain ⟨part, rfl, hs⟩ := forall₂_one hmeans
      exact .leaf span (.inr rfl) (hparts _ (by simp) _ hs)
  | interval m n i hi =>
      obtain ⟨start, stop, rfl, hm, hn⟩ := forall₂_two hmeans
      refine .interval span (hparts _ (by simp) _ hm) (hparts _ (by simp) _ hn)
        (Value.accepts_ofInteger? m) (Value.accepts_ofInteger? n) ⟨i, ?_⟩
      rwa [(means_bound_iff.mp hm).signed?_eq,
        (means_bound_iff.mp hn).signed?_eq]
  | next n steps a hsteps =>
      obtain ⟨count, part, rfl, hn, ha⟩ := forall₂_two hmeans
      refine .next span hlayer (hparts _ (by simp) _ hn)
        (Value.accepts_ofInteger? n) ?_
        (hparts _ (by simp) _ ha)
      rw [(means_bound_iff.mp hn).signed?_eq]
      exact readBound?_isOk_iff.mp ⟨steps, hsteps⟩
  | unary rule modality hknown i a =>
      obtain ⟨bounds, part, rfl, hi, ha⟩ := forall₂_two hmeans
      exact .unary span hknown hlayer (hparts _ (by simp) _ hi)
        (Value.accepts_ofInterval? i)
        (hparts _ (by simp) _ ha)
  | binary rule modality hknown i a b =>
      obtain ⟨lhs, bounds, rhs, rfl, ha, hi, hb⟩ := forall₂_three hmeans
      exact .binary span hknown hlayer (hparts _ (by simp) _ ha)
        (hparts _ (by simp) _ hi)
        (Value.accepts_ofInterval? i) (hparts _ (by simp) _ hb)
  | graphList names =>
      obtain ⟨ts, rfl, hts, rfl⟩ := forall₂_means_names_iff.mp hmeans
      refine .labels span hlayer fun part hpart => ?_
      obtain ⟨t, ht, rfl⟩ := List.mem_map.mp hpart
      exact .name (hts t ht)
  | graph direction ls i a hls =>
      obtain ⟨labels, edges, part, rfl, hlabels, hi, ha⟩ := forall₂_three hmeans
      refine .graph direction span (by cases direction <;> exact hlayer)
        (hparts _ (by simp) _ hlabels) ?_ (hparts _ (by simp) _ hi)
        (Value.accepts_ofInterval? i) (hparts _ (by simp) _ ha)
      obtain ⟨t, rfl, ht⟩ := (means_iff_of_isMade (.inr (.inr rfl))).mp hlabels
      rw [(Tree.means_labels_iff.mp ht).2.isEmpty_eq] at hls
      exact List.isEmpty_eq_false_iff.mp hls

private theorem hasSort_of_means_token {t : Token} {v : Value}
    (h : Part.Means layer v (.token t)) : (token t).HasSort layer v.kind := by
  rcases means_token_iff.mp h with ⟨ht, rfl⟩ | ⟨n, hn, rfl⟩
  · exact .name ht
  · exact .integer hn

end Part

private theorem Tree.hasSort_of_means {t : Tree} {v : Value}
    (h : t.Means layer v) : t.HasSort layer v.kind := by
  induction t using Tree.induct generalizing v with
  | node name parts span ih =>
      obtain ⟨rule, vs, rfl, hlayer, hmakes, hmeans⟩ := means_node_iff.mp h
      refine Part.hasSort_node hlayer hmakes hmeans fun part hpart w hw => ?_
      cases part with
      | tree t => exact ih t hpart hw
      | token t => exact Part.hasSort_of_means_token hw
      | absent =>
          obtain rfl := Except.ok.inj hw
          exact .absent

/-- A layer's table gives a tree a value of a kind exactly if the tree has that
sort. -/
private theorem Tree.hasSort_iff_means {t : Tree} {s : ValueKind} :
    t.HasSort layer s ↔ ∃ v, t.Means layer v ∧ v.kind = s := by
  constructor
  · exact Part.HasSort.hasValue
  · rintro ⟨v, hv, rfl⟩
    exact hasSort_of_means hv

theorem RuleTable.exists_assemble_iff_hasSort {t : Tree} :
    (∃ f, (ofLayer layer).assemble t = .ok f) ↔ t.HasSort layer .formula := by
  simp only [assemble_eq_ok_iff, Tree.hasSort_iff_means]
  constructor
  · rintro ⟨f, hf⟩
    exact ⟨_, hf, rfl⟩
  · rintro ⟨v, hv, hkind⟩
    obtain ⟨f, rfl⟩ := Value.exists_formula hkind
    exact ⟨f, hv⟩

end

end LayeredLogic
