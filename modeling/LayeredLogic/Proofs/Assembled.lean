import LayeredLogic.Proofs.Lexeme

/-!
# Assembled trees

The trees that a layer assembles, by the shapes of their parts.  An interval and
a label set are read off the tokens under their node; a formula is made of those
under its own.  The relations hold of a tree exactly when the layer's table
gives it that value.
-/

namespace LayeredLogic

def Rule.ofName? (name : String) : Option Rule :=
  Rule.all.find? fun rule => rule.name == name

theorem Rule.ofName?_name (rule : Rule) :
    Rule.ofName? rule.name = some rule := by
  cases rule <;> decide

theorem Rule.name_ne {rule other : Rule} (h : rule ≠ other) :
    rule.name ≠ other.name := by
  intro hname
  have hrule := Rule.ofName?_name rule
  rw [hname, Rule.ofName?_name] at hrule
  exact h (Option.some.inj hrule).symm

theorem Rule.name_of_ofName? {name : String} {rule : Rule}
    (h : Rule.ofName? name = some rule) : rule.name = name := by
  have hname := List.find?_some h
  exact beq_iff_eq.mp hname

namespace Token

def IsName (t : Token) : Prop := t.kind ≠ TokenKind.integer.tag

def name (t : Token) : String :=
  if t.kind = TokenKind.quoted.tag then
    String.ofList (Quoted.decode t.text.toList) else t.text

def IsNumber (t : Token) (n : Int64) : Prop :=
  t.kind = TokenKind.integer.tag ∧ Numeral.read t.text.toList = .ok n

end Token

inductive Part.IsBound : Part → Option Int64 → Prop
  | absent : IsBound .absent none
  | number {t : Token} {n : Int64} (h : t.IsNumber n) :
      IsBound (.token t) (some n)

def Part.signed? : Part → Option Int64
  | token t => (Numeral.read t.text.toList).toOption
  | tree _ | absent => none

theorem Part.IsBound.signed?_eq {part : Part} {n : Option Int64}
    (h : part.IsBound n) : part.signed? = n := by
  cases h with
  | absent => rfl
  | number h => rw [signed?, h.2]; rfl

inductive Tree.IsIntervalOf : Tree → Interval → Prop
  | bounds {start stop : Part} {m n : Option Int64} {i : Interval} (span : Span)
      (hstart : start.IsBound m) (hstop : stop.IsBound n)
      (hi : Interval.ofSigned m n = .ok i) :
      IsIntervalOf (.node Rule.interval.name [start, stop] span) i

inductive Part.IsBounds : Part → Option Interval → Prop
  | absent : IsBounds .absent none
  | interval {t : Tree} {i : Interval} (h : t.IsIntervalOf i) :
      IsBounds (.tree t) (some i)

inductive Tree.IsLabelsOf : Tree → LabelSet → Prop
  | names {ts : List Token} (span : Span) (h : ∀ t ∈ ts, t.IsName) :
      IsLabelsOf (.node Rule.graphList.name (ts.map .token) span)
        (.ofList (ts.map Token.name))

/-- The trees that a layer assembles to formulas. -/
inductive Tree.Assembles (layer : Layer) : Tree → Formula → Prop
  | atom {t : Token} (span : Span) (h : t.IsName) :
      Assembles layer (.node Rule.variable.name [.token t] span) (.var t.name)
  | literal {t : Token} (span : Span) (h : t.IsName) :
      Assembles layer (.node Rule.literal.name [.token t] span)
        (.literal (Handler.trueSpellings.contains t.name))
  | negation {t : Tree} {a : Formula} (span : Span) (h : Assembles layer t a) :
      Assembles layer (.node Rule.negation.name [.tree t] span) a.neg
  | junction (k : Junction) {operands : List (Tree × Formula)} (span : Span)
      (hlength : 2 ≤ operands.length)
      (h : ∀ p ∈ operands, Assembles layer p.1 p.2) :
      Assembles layer (.node k.rule.name (operands.map fun p => .tree p.1) span)
        (.joinAll k (operands.map Prod.snd))
  | derived (c : Connective) {t u : Tree} {a b : Formula} (span : Span)
      (ht : Assembles layer t a) (hu : Assembles layer u b) :
      Assembles layer (.node c.rule.name [.tree t, .tree u] span)
        (.derived c a b)
  | next {count : Part} {n : Option Int64} {steps : Option UInt64} {t : Tree}
      {a : Formula}
      (span : Span) (hlayer : layer.includes .ltl = true)
      (hcount : count.IsBound n)
      (hsteps : readBound? n = .ok steps) (h : Assembles layer t a) :
      Assembles layer (.node Rule.next.name [count, .tree t] span)
        (.unary (.next steps) a)
  | unary {rule : Rule} {modality : Option Interval → UnaryModality}
      {bounds : Part}
      {i : Option Interval} {t : Tree} {a : Formula} (span : Span)
      (hknown : rule.unary? = some modality)
      (hlayer : layer.includes rule.layer = true)
      (hbounds : bounds.IsBounds i) (h : Assembles layer t a) :
      Assembles layer (.node rule.name [bounds, .tree t] span)
        (.unary (modality i) a)
  | binary {rule : Rule} {modality : Option Interval → BinaryModality}
      {bounds : Part}
      {i : Option Interval} {t u : Tree} {a b : Formula} (span : Span)
      (hknown : rule.binary? = some modality)
      (hlayer : layer.includes rule.layer = true)
      (hbounds : bounds.IsBounds i) (ht : Assembles layer t a)
      (hu : Assembles layer u b) :
      Assembles layer (.node rule.name [.tree t, bounds, .tree u] span)
        (.binary (modality i) a b)
  | graph (direction : Direction) {labels t : Tree} {edges : Part}
      {ls : LabelSet}
      {i : Option Interval} {a : Formula} (span : Span)
      (hlayer : layer.includes .stlGo = true)
      (hlabels : labels.IsLabelsOf ls) (hnonempty : ls.isEmpty = false)
      (hedges : edges.IsBounds i) (h : Assembles layer t a) :
      Assembles layer
        (.node direction.rule.name [.tree labels, edges, .tree t] span)
        (.unary (.graph direction ls i) a)

/-! ## Values of parts -/

section

variable {layer : Layer} {part : Part}

theorem RuleTable.values_ofLayer_iff {parts : List Part} {vs : List Value} :
    (ofLayer layer).values parts = .ok vs ↔
    List.Forall₂ (Part.Means layer) vs parts := by
  refine ⟨fun h => ?_, values_of_forall₂⟩
  induction parts generalizing vs with
  | nil =>
      rw [values_nil] at h
      obtain rfl := Except.ok.inj h
      exact .nil
  | cons part parts ih =>
      obtain ⟨v, rest, hpart, hrest, rfl⟩ := values_cons_iff.mp h
      exact .cons hpart (ih hrest)

theorem Tree.means_node_iff {name : String} {parts : List Part} {span : Span}
    {v : Value} :
    Tree.Means layer v (.node name parts span) ↔
      ∃ (rule : Rule) (vs : List Value), rule.name = name ∧
      layer.includes rule.layer = true ∧
        rule.Makes vs v ∧ List.Forall₂ (Part.Means layer) vs parts := by
  simp only [Tree.Means, RuleTable.value_node_iff, RuleTable.values_ofLayer_iff,
    RuleTable.ruleValue_ofLayer_iff]
  constructor
  · rintro ⟨vs, hparts, rule, hname, hlayer, hmakes⟩
    exact ⟨rule, vs, hname, hlayer, hmakes, hparts⟩
  · rintro ⟨rule, vs, hname, hlayer, hmakes, hparts⟩
    exact ⟨vs, hparts, rule, hname, hlayer, hmakes⟩

def Value.IsMade (v : Value) : Prop :=
  v.kind = .formula ∨ v.kind = .interval ∨ v.kind = .labels

theorem Tree.Means.isMade {v : Value} {t : Tree} (h : t.Means layer v) :
    v.IsMade := by
  obtain ⟨name, parts, span⟩ := t
  obtain ⟨rule, vs, -, -, hmakes, -⟩ := Tree.means_node_iff.mp h
  cases hmakes <;> simp [Value.IsMade, Value.kind]

theorem Part.means_token_iff {t : Token} {v : Value} :
    Part.Means layer v (.token t) ↔
      (t.IsName ∧ v = .name t.name) ∨ ∃ n, t.IsNumber n ∧ v = .integer n := by
  have hvalue : Part.Means layer v (.token t) ↔
      (RuleTable.ofLayer layer).tokenValue t = .ok v :=
    Iff.rfl
  rw [hvalue, RuleTable.tokenValue_ofLayer]
  by_cases hkind : t.kind = TokenKind.integer.tag
  · rw [if_pos hkind, TokenHandler.integer]
    cases hread : Numeral.read t.text.toList with
    | error reason => simp [Token.IsName, Token.IsNumber, hkind, hread]
    | ok n => simp [Token.IsName, Token.IsNumber, hkind, hread, eq_comm]
  · have hplain :
        (if t.kind = TokenKind.quoted.tag then TokenHandler.quoted t.text
        else TokenHandler.plain t.text) = .ok (.name t.name) := by
      unfold Token.name
      split <;> rfl
    rw [if_neg hkind, hplain]
    simp [Token.IsName, Token.IsNumber, hkind, eq_comm]

theorem Part.means_iff_of_isMade {v : Value} (hv : v.IsMade) :
    Part.Means layer v part ↔ ∃ t, part = .tree t ∧ t.Means layer v := by
  cases part with
  | tree t =>
      constructor
      · exact fun h => ⟨t, rfl, h⟩
      · rintro ⟨_, ⟨⟩, h⟩
        exact h
  | token t =>
      rw [means_token_iff]
      constructor
      · rintro (⟨-, rfl⟩ | ⟨n, -, rfl⟩) <;>
          simp [Value.IsMade, Value.kind] at hv
      · rintro ⟨_, ⟨⟩, -⟩
  | absent =>
      constructor
      · rintro ⟨⟩
        simp [Value.IsMade, Value.kind] at hv
      · rintro ⟨_, ⟨⟩, -⟩

theorem Part.means_formula_iff {a : Formula} :
    Part.Means layer (.formula a) part ↔
    ∃ t, part = .tree t ∧ t.Means layer (.formula a) :=
  means_iff_of_isMade (.inl rfl)

theorem Part.means_name_iff {s : String} :
    Part.Means layer (.name s) part ↔
    ∃ t, part = .token t ∧ t.IsName ∧ t.name = s := by
  cases part with
  | tree t =>
      constructor
      · intro h
        simpa [Value.IsMade, Value.kind] using Tree.Means.isMade h
      · rintro ⟨_, ⟨⟩, -⟩
  | token t => simp [means_token_iff, eq_comm]
  | absent => simp [Part.Means, RuleTable.partValue]

theorem Part.means_bound_iff {n : Option Int64} :
    Part.Means layer (.ofInteger? n) part ↔ part.IsBound n := by
  cases part with
  | tree t =>
      constructor
      · intro h
        have hmade := Tree.Means.isMade h
        cases n <;> simp [Value.ofInteger?, Value.IsMade, Value.kind] at hmade
      · rintro ⟨⟩
  | token t =>
      rw [means_token_iff]
      cases n with
      | none =>
          constructor
          · rintro (⟨-, h⟩ | ⟨n, -, h⟩) <;> cases h
          · rintro ⟨⟩
      | some n =>
          constructor
          · rintro (⟨-, h⟩ | ⟨m, hm, h⟩)
            · cases h
            · cases h
              exact .number hm
          · rintro ⟨⟩
            rename_i hn
            exact .inr ⟨n, hn, rfl⟩
  | absent =>
      cases n with
      | none => exact ⟨fun _ => .absent, fun _ => rfl⟩
      | some n =>
          constructor
          · rintro ⟨⟩
          · rintro ⟨⟩

/-! ## Values of trees -/

theorem Tree.means_interval_iff {t : Tree} {i : Interval} :
    Tree.Means layer (.interval i) t ↔ t.IsIntervalOf i := by
  constructor
  · intro h
    obtain ⟨name, parts, span⟩ := t
    obtain ⟨rule, vs, rfl, -, hmakes, hparts⟩ := Tree.means_node_iff.mp h
    cases hmakes with
    | interval m n i hi =>
        obtain ⟨start, stop, rfl, hstart, hstop⟩ := forall₂_two hparts
        exact .bounds span (Part.means_bound_iff.mp hstart)
          (Part.means_bound_iff.mp hstop) hi
  · rintro ⟨span, hstart, hstop, hi⟩
    exact Tree.means_node layer.includes_base
      (.cons (Part.means_bound_iff.mpr hstart)
        (.cons (Part.means_bound_iff.mpr hstop) .nil))
      (.interval _ _ _ hi)

theorem Part.means_bounds_iff {i : Option Interval} :
    Part.Means layer (.ofInterval? i) part ↔ part.IsBounds i := by
  cases i with
  | none =>
      constructor
      · intro h
        cases part with
        | tree t =>
            simpa [Value.ofInterval?, Value.IsMade, Value.kind]
              using Tree.Means.isMade h
        | token t =>
            rcases Part.means_token_iff.mp h with ⟨-, hv⟩ | ⟨n, -, hv⟩ <;>
              cases hv
        | absent => exact .absent
      · rintro ⟨⟩
        rfl
  | some i =>
      rw [Value.ofInterval?, Part.means_iff_of_isMade (.inr (.inl rfl))]
      constructor
      · rintro ⟨t, rfl, h⟩
        exact .interval (Tree.means_interval_iff.mp h)
      · rintro ⟨⟩
        rename_i t h
        exact ⟨t, rfl, Tree.means_interval_iff.mpr h⟩

theorem Part.forall₂_means_names_iff {names : List String} {parts : List Part} :
    List.Forall₂ (Part.Means layer) (names.map .name) parts ↔
      ∃ ts : List Token, parts = ts.map .token ∧ (∀ t ∈ ts, t.IsName) ∧
        ts.map Token.name = names := by
  induction names generalizing parts with
  | nil => simp
  | cons s names ih =>
      simp only [List.map_cons, List.forall₂_cons_left_iff, means_name_iff, ih]
      constructor
      · rintro ⟨_, _, ⟨t, rfl, ht, rfl⟩, ⟨ts, rfl, hts, rfl⟩, rfl⟩
        exact ⟨t :: ts, rfl, List.forall_mem_cons.mpr ⟨ht, hts⟩, rfl⟩
      · rintro ⟨_ | ⟨t, ts⟩, rfl, hts, hnames⟩
        · cases hnames
        · obtain ⟨ht, hts⟩ := List.forall_mem_cons.mp hts
          cases hnames
          exact ⟨_, _, ⟨t, rfl, ht, rfl⟩, ⟨ts, rfl, hts, rfl⟩, rfl⟩

theorem Tree.means_labels_iff {t : Tree} {ls : LabelSet} :
    Tree.Means layer (.labels ls) t ↔ layer.includes .stlGo = true ∧
    t.IsLabelsOf ls := by
  constructor
  · intro h
    obtain ⟨name, parts, span⟩ := t
    obtain ⟨rule, vs, rfl, hlayer, hmakes, hparts⟩ := Tree.means_node_iff.mp h
    cases hmakes with
    | graphList names =>
        obtain ⟨ts, rfl, hts, rfl⟩ := Part.forall₂_means_names_iff.mp hparts
        exact ⟨hlayer, .names span hts⟩
  · rintro ⟨hlayer, ⟨span, hts⟩⟩
    exact Tree.means_node hlayer
      (Part.forall₂_means_names_iff.mpr ⟨_, rfl, hts, rfl⟩)
      (.graphList _)

theorem Part.forall₂_means_formulas_iff {args : List Formula}
    {parts : List Part} :
    List.Forall₂ (Part.Means layer) (args.map .formula) parts ↔
      ∃ operands : List (Tree × Formula),
        parts = operands.map (fun p => .tree p.1) ∧
        (∀ p ∈ operands, p.1.Means layer (.formula p.2)) ∧
        operands.map Prod.snd = args := by
  induction args generalizing parts with
  | nil => simp
  | cons a args ih =>
      simp only [List.map_cons, List.forall₂_cons_left_iff,
        means_formula_iff, ih]
      constructor
      · rintro ⟨_, _, ⟨t, rfl, ht⟩, ⟨ops, rfl, hops, rfl⟩, rfl⟩
        exact ⟨(t, a) :: ops, rfl, List.forall_mem_cons.mpr ⟨ht, hops⟩, rfl⟩
      · rintro ⟨_ | ⟨⟨t, b⟩, ops⟩, rfl, hops, hargs⟩
        · cases hargs
        · obtain ⟨ht, hops⟩ := List.forall_mem_cons.mp hops
          cases hargs
          exact ⟨_, _, ⟨t, rfl, ht⟩, ⟨ops, rfl, hops, rfl⟩, rfl⟩

private theorem Tree.means_of_assembles {t : Tree} {f : Formula}
    (h : t.Assembles layer f) : Tree.Means layer (.formula f) t := by
  have hbase : layer.includes .base = true := layer.includes_base
  have tree : ∀ {t : Tree} {v : Value}, t.Means layer v →
      Part.Means layer v (.tree t) := id
  induction h with
  | atom span h =>
      exact means_node hbase
        (.cons (Part.means_name_iff.mpr ⟨_, rfl, h, rfl⟩) .nil) (.atom _)
  | literal span h =>
      exact means_node hbase
        (.cons (Part.means_name_iff.mpr ⟨_, rfl, h, rfl⟩) .nil) (.literal _)
  | negation span _ ih =>
      exact means_node hbase (.cons (tree ih) .nil) (.negation _)
  | junction k span hlength _ ih =>
      exact means_node (by cases k <;> exact hbase)
        (Part.forall₂_means_formulas_iff.mpr ⟨_, rfl, ih, rfl⟩)
        (.junction k _ (by rwa [List.length_map]))
  | derived c span _ _ iht ihu =>
      exact means_node (by cases c <;> exact hbase)
        (.cons (tree iht) (.cons (tree ihu) .nil))
        (.derived c _ _)
  | next span hlayer hcount hsteps _ ih =>
      exact means_node hlayer
        (.cons (Part.means_bound_iff.mpr hcount) (.cons (tree ih) .nil))
        (.next _ _ _ hsteps)
  | unary span hknown hlayer hbounds _ ih =>
      exact means_node hlayer
        (.cons (Part.means_bounds_iff.mpr hbounds) (.cons (tree ih) .nil))
        (.unary _ _ hknown _ _)
  | binary span hknown hlayer hbounds _ _ iht ihu =>
      exact means_node hlayer
        (.cons (tree iht)
          (.cons (Part.means_bounds_iff.mpr hbounds) (.cons (tree ihu) .nil)))
        (.binary _ _ hknown _ _ _)
  | graph direction span hlayer hlabels hnonempty hedges _ ih =>
      exact means_node (by cases direction <;> exact hlayer)
        (.cons (tree (means_labels_iff.mpr ⟨hlayer, hlabels⟩))
          (.cons (Part.means_bounds_iff.mpr hedges) (.cons (tree ih) .nil)))
        (.graph direction _ _ _ hnonempty)

private theorem Tree.assembles_of_means {t : Tree} {f : Formula}
    (h : Tree.Means layer (.formula f) t) : t.Assembles layer f := by
  induction t using Tree.induct generalizing f with
  | node name parts span ih =>
      obtain ⟨rule, vs, rfl, hlayer, hmakes, hparts⟩ := means_node_iff.mp h
      cases hmakes with
      | negation a =>
          obtain ⟨_, rfl, ha⟩ := forall₂_one hparts
          obtain ⟨t, rfl, ht⟩ := Part.means_formula_iff.mp ha
          exact .negation span (ih t (by simp) ht)
      | junction k args hlength =>
          obtain ⟨operands, rfl, hoperands, rfl⟩ :=
            Part.forall₂_means_formulas_iff.mp hparts
          refine .junction k span (by rwa [List.length_map] at hlength)
            fun p hp => ?_
          exact ih p.1 (List.mem_map_of_mem (f := fun p => Part.tree p.1) hp)
            (hoperands p hp)
      | derived c a b =>
          obtain ⟨_, _, rfl, ha, hb⟩ := forall₂_two hparts
          obtain ⟨t, rfl, ht⟩ := Part.means_formula_iff.mp ha
          obtain ⟨u, rfl, hu⟩ := Part.means_formula_iff.mp hb
          exact .derived c span (ih t (by simp) ht) (ih u (by simp) hu)
      | atom name =>
          obtain ⟨_, rfl, hname⟩ := forall₂_one hparts
          obtain ⟨t, rfl, ht, rfl⟩ := Part.means_name_iff.mp hname
          exact .atom span ht
      | literal name =>
          obtain ⟨_, rfl, hname⟩ := forall₂_one hparts
          obtain ⟨t, rfl, ht, rfl⟩ := Part.means_name_iff.mp hname
          exact .literal span ht
      | next n steps a hsteps =>
          obtain ⟨count, _, rfl, hcount, ha⟩ := forall₂_two hparts
          obtain ⟨t, rfl, ht⟩ := Part.means_formula_iff.mp ha
          exact .next span hlayer (Part.means_bound_iff.mp hcount) hsteps
            (ih t (by simp) ht)
      | unary rule modality hknown i a =>
          obtain ⟨bounds, _, rfl, hbounds, ha⟩ := forall₂_two hparts
          obtain ⟨t, rfl, ht⟩ := Part.means_formula_iff.mp ha
          exact .unary span hknown hlayer (Part.means_bounds_iff.mp hbounds)
            (ih t (by simp) ht)
      | binary rule modality hknown i a b =>
          obtain ⟨_, bounds, _, rfl, ha, hbounds, hb⟩ := forall₂_three hparts
          obtain ⟨t, rfl, ht⟩ := Part.means_formula_iff.mp ha
          obtain ⟨u, rfl, hu⟩ := Part.means_formula_iff.mp hb
          exact .binary span hknown hlayer (Part.means_bounds_iff.mp hbounds)
            (ih t (by simp) ht)
            (ih u (by simp) hu)
      | graph direction ls i a hnonempty =>
          obtain ⟨_, edges, _, rfl, hlist, hedges, ha⟩ := forall₂_three hparts
          obtain ⟨labels, rfl, hls⟩ :=
            (Part.means_iff_of_isMade (.inr (.inr rfl))).mp hlist
          obtain ⟨hgraph, hlabels⟩ := Tree.means_labels_iff.mp hls
          obtain ⟨t, rfl, ht⟩ := Part.means_formula_iff.mp ha
          exact .graph direction span hgraph hlabels hnonempty
            (Part.means_bounds_iff.mp hedges)
            (ih t (by simp) ht)

/-- A layer's table gives a formula exactly to the trees of the shapes listed.
-/
theorem RuleTable.assemble_iff_assembles {t : Tree} {f : Formula} :
    (ofLayer layer).assemble t = .ok f ↔ t.Assembles layer f :=
  assemble_eq_ok_iff.trans ⟨Tree.assembles_of_means, Tree.means_of_assembles⟩

end

end LayeredLogic
