import LayeredLogic.Proofs.Grammar
import LayeredLogic.Proofs.Reduced

/-!
# Reading operands

An operand is read by the first alternative that does not refuse it.  The word
at its front decides which one that is: a literal, a prefix operator or a
variable; a sign stands for a negation or for a formula in parentheses.
-/

namespace LayeredLogic

/-- A name that stands for a variable in a text of the layer.  The temporal
letters would be read as operators, even at the front of a longer name. -/
structure Layer.CanName (layer : Layer) (word : List Char) : Prop where
  identifier : isIdentifier word = true
  free : layer.reserves word = false
  letter : layer.includes .ltl = true → ∀ c ∈ word.head?, c ∉ ['X', 'G', 'F']

instance (layer : Layer) (word : List Char) : Decidable (layer.CanName word) :=
  have : Decidable (∀ c ∈ word.head?, c ∉ ['X', 'G', 'F']) :=
    Option.decidableForallMem word.head?
  decidable_of_iff (isIdentifier word = true ∧ layer.reserves word = false ∧
      (layer.includes .ltl = true → ∀ c ∈ word.head?, c ∉ ['X', 'G', 'F']))
    ⟨fun h => ⟨h.1, h.2.1, h.2.2⟩, fun h => ⟨h.identifier, h.free, h.letter⟩⟩

theorem Layer.not_mem_of_reserves_eq_false {layer : Layer} {word : List Char}
    (h : layer.reserves word = false) :
    word ∉ literalWords ∧ word ∉ layer.keywords := by
  simp only [Layer.reserves, Bool.or_eq_false_iff] at h
  simpa using h

/-- Bounds that signed numbers can hold. -/
def BoundsFit (i : Option Interval) : Prop :=
  ∀ j ∈ i, FitsSigned j.start ∧ FitsSigned j.stop

instance (i : Option Interval) : Decidable (BoundsFit i) :=
  inferInstanceAs (Decidable (∀ j ∈ i, FitsSigned j.start ∧ FitsSigned j.stop))

def UnaryModality.Readable : UnaryModality → Prop
  | next steps => FitsSigned steps
  | always i | eventually i | everywhere i | somewhere i | escape i =>
      BoundsFit i
  | graph _ labels edges =>
      (∀ label ∈ labels, isIdentifier label.toList = true) ∧ BoundsFit edges

instance (m : UnaryModality) : Decidable m.Readable :=
  match m with
  | .next steps => inferInstanceAs (Decidable (FitsSigned steps))
  | .always i | .eventually i | .everywhere i | .somewhere i | .escape i =>
      inferInstanceAs (Decidable (BoundsFit i))
  | .graph _ labels edges =>
      inferInstanceAs (Decidable
        ((∀ label ∈ labels.names, isIdentifier label.toList = true) ∧
          BoundsFit edges))

namespace Reader

variable {layer : Layer} {op : Reader Tree} {input rest tail word : List Char}

/-! ## Alternatives that refuse -/

theorem refuses_literalAtom {c : Char} {cs : List Char}
    (hblank : isBlank c = false) (hname : isNameStart c = false)
    (hdigit : c.isDigit = false) : Refuses literalAtom (c :: cs) := by
  have hidentifier :
      Refuses (check identifier literalWords.contains) (c :: cs) :=
    (refuses_identifier (by rintro _ ⟨⟩; exact hname)).check
  have hdigits :
      Refuses (check digits fun ds => ds == ['0'] || ds == ['1']) (c :: cs) :=
    (refuses_digits (by rintro _ ⟨⟩; exact hdigit)).check
  have hlexeme : Refuses literalLexeme (skip (c :: cs)) := by
    rw [skip_cons hblank]
    exact hidentifier.orElse hdigits
  exact hlexeme.located.bind.padded.located.bind

theorem refuses_literalAtom_word (h : isIdentifier word = true)
    (hrest : EndsName rest) (hliteral : word ∉ literalWords) :
    Refuses literalAtom (word ++ rest) := by
  have hidentifier :
      Refuses (check identifier literalWords.contains) (word ++ rest) := by
    apply (takes_identifier h hrest).check_refuses
    rintro _ rfl
    simpa using hliteral
  have hdigits : Refuses (check digits fun ds => ds == ['0'] || ds == ['1'])
      (word ++ rest) := by
    apply Refuses.check
    apply refuses_digits
    cases word with
    | nil => cases h
    | cons c cs =>
        simp only [isIdentifier, Bool.and_eq_true] at h
        rintro _ ⟨⟩
        exact isDigit_of_isNameStart h.1
  have hlexeme : Refuses literalLexeme (skip (word ++ rest)) := by
    rw [skip_word h]
    exact hidentifier.orElse hdigits
  exact hlexeme.located.bind.padded.located.bind

theorem refuses_temporal (h : ∀ c ∈ (skip input).head?, c ∉ ['X', 'G', 'F']) :
    ∀ p ∈ temporal op, Refuses p input := by
  have hletter :
      ∀ letter ∈ ['X', 'G', 'F'], Refuses (symbol [letter]) input := by
    intro letter hletter
    apply refuses_symbol
    rintro c hc rfl
    exact h c hc hletter
  intro p hp
  simp only [temporal, List.mem_cons, List.not_mem_nil, or_false] at hp
  rcases hp with rfl | rfl | rfl
  · exact (hletter 'X' (by decide)).bind.located.bind
  · exact (hletter 'G' (by decide)).bind.located.bind
  · exact (hletter 'F' (by decide)).bind.located.bind

theorem refuses_spatial
    (h : ∀ w ∈ Layer.strel.keywords, Refuses (keyword w) input) :
    ∀ p ∈ spatial op, Refuses p input := by
  intro p hp
  simp only [spatial, List.mem_cons, List.not_mem_nil, or_false] at hp
  rcases hp with rfl | rfl | rfl
  · exact (h _ (by decide)).bind.located.bind
  · exact (h _ (by decide)).bind.located.bind
  · exact (h _ (by decide)).bind.located.bind

theorem refuses_graphical
    (h : ∀ w ∈ Layer.stlGo.keywords, Refuses (keyword w) input) :
    ∀ p ∈ graphical op, Refuses p input := by
  intro p hp
  simp only [graphical, List.mem_cons, List.not_mem_nil, or_false] at hp
  rcases hp with rfl | rfl
  · exact (h _ (by decide)).bind.located.bind
  · exact (h _ (by decide)).bind.located.bind

theorem refuses_negation (h : ∀ c ∈ (skip input).head?, c ≠ '!' ∧ c ≠ '~') :
    Refuses (negation op) input := by
  have hsign :
      Refuses (padded (satisfy fun c => c == '!' || c == '~')) input := by
    apply Refuses.padded
    apply refuses_satisfy
    intro c hc
    simp [h c hc]
  exact hsign.bind.located.bind

theorem eq_strel_of_includes (h : layer.includes .strel = true) :
    layer = .strel := by
  revert h
  cases layer <;> decide

theorem eq_stlGo_of_includes (h : layer.includes .stlGo = true) :
    layer = .stlGo := by
  revert h
  cases layer <;> decide

theorem refuses_prefixed (hsign : ∀ c ∈ (skip input).head?, c ≠ '!' ∧ c ≠ '~')
    (hletter : layer.includes .ltl = true →
      ∀ c ∈ (skip input).head?, c ∉ ['X', 'G', 'F'])
    (hkeyword : ∀ w ∈ layer.keywords, Refuses (keyword w) input) :
    ∀ p ∈ prefixed layer op, Refuses p input := by
  intro p hp
  simp only [prefixed, List.mem_cons, List.mem_append] at hp
  rcases hp with rfl | (hp | hp) | hp
  · exact refuses_negation hsign
  · split at hp
    · rename_i hltl
      exact refuses_temporal (hletter hltl) p hp
    · cases hp
  · split at hp
    · rename_i hstrel
      obtain rfl := eq_strel_of_includes hstrel
      exact refuses_spatial hkeyword p hp
    · cases hp
  · split at hp
    · rename_i hgraph
      obtain rfl := eq_stlGo_of_includes hgraph
      exact refuses_graphical hkeyword p hp
    · cases hp

/-! ## Prefix operators -/

variable {a : Formula}

theorem takes_node {rule : Rule} {parts : Reader (List Part)} {vs : List Value}
    {v : Value} (hlayer : layer.includes rule.layer = true)
    (hparts : Takes parts input (List.Forall₂ (Part.Means layer) vs) rest)
    (hmakes : rule.Makes vs v) :
    Takes (node rule parts) input (Tree.Means layer v) rest := by
  apply hparts.located.bind
  rintro ⟨ps, span⟩ hps
  exact takes_pure (Tree.means_node hlayer hps hmakes)

theorem takes_parts {rule : Rule} {parts : Reader (List Part)} {S : Part → Prop}
    {R : Tree → Prop}
    (hparts :
      Takes parts input
        (fun found => ∃ part u, found = [part, .tree u] ∧ S part ∧ R u) rest) :
    Takes (node rule parts) input
      (fun t => ∃ part u span, t = .node rule.name [part, .tree u] span ∧
        S part ∧ R u) rest := by
  apply hparts.located.bind
  rintro ⟨_, span⟩ ⟨part, u, rfl, hpart, hu⟩
  exact takes_pure ⟨part, u, span, rfl, hpart, hu⟩

private theorem takes_negation (hnegatable : a.Negatable)
    (ha : op.Recovers layer a) (htail : EndsName tail) :
    Takes (negation op) ('!' :: (a.operandChars ++ tail))
      (Tree.Means layer (.formula (.not a))) (skip tail) := by
  have hsign : Takes (padded (satisfy fun c => c == '!' || c == '~'))
      ('!' :: (a.operandChars ++ tail)) (· = '!')
      (skip (a.operandChars ++ tail)) :=
    Takes.padded (takes_satisfy rfl)
  rw [ha.opens.skip_append] at hsign
  have hmakes : Rule.negation.Makes [.formula a] (.formula (.not a)) := by
    have h := Rule.Makes.negation a
    rwa [Formula.neg_of_negatable hnegatable] at h
  refine takes_node (by cases layer <;> rfl) ?_ hmakes
  refine hsign.bind fun _ _ => ?_
  refine (ha.takes tail htail).bind fun t ht => ?_
  exact takes_pure (.cons ht .nil)

/-- What is read of a step count and an operand, the count being in the range of
the reader or not. -/
theorem takes_next_shown {count : Option UInt64} (ha : op.Recovers layer a)
    (htail : EndsName tail) :
    Takes (next op)
      ('X' :: (stepsChars count ++ ' ' :: (a.operandChars ++ tail)))
      (fun t => ∃ steps u span, t = .node Rule.next.name [steps, .tree u] span ∧
        steps.ShowsBound count ∧ Tree.Means layer (.formula a) u)
          (skip tail) := by
  have hword :
      Takes (symbol ['X'])
        ('X' :: (stepsChars count ++ ' ' :: (a.operandChars ++ tail)))
      (fun _ => True)
      (skip (stepsChars count ++ ' ' :: (a.operandChars ++ tail))) :=
    takes_symbol ['X'] _ rfl
  apply takes_parts
  refine hword.bind fun _ _ => ?_
  refine (takes_steps count (ha.opens.head_ne tail)).bind fun steps hsteps => ?_
  refine (ha.takes_after_space htail).bind fun t ht => ?_
  exact takes_pure ⟨_, t, rfl, hsteps, ht⟩

theorem takes_next {count : Option UInt64} (hltl : layer.includes .ltl = true)
    (hcount : FitsSigned count) (ha : op.Recovers layer a)
    (htail : EndsName tail) :
    Takes (next op)
      ('X' :: (stepsChars count ++ ' ' :: (a.operandChars ++ tail)))
      (Tree.Means layer (.formula (.unary (.next count) a))) (skip tail) := by
  apply (takes_next_shown ha htail).mono
  rintro _ ⟨steps, u, span, rfl, hsteps, hu⟩
  exact Tree.means_node hltl (.cons (hsteps.means hcount) (.cons hu .nil))
    (.next _ _ a (readBound?_signedBound hcount))

theorem takes_bounded_shown {rule : Rule} {operator : Reader Unit}
    {i : Option Interval}
    (hword :
      Takes operator input (fun _ => True)
        (skip (Interval.charsOf i ++ ' ' :: (a.operandChars ++ tail))))
    (ha : op.Recovers layer a) (htail : EndsName tail) :
    Takes (bounded rule operator op) input
      (fun t => ∃ bounds u span, t = .node rule.name [bounds, .tree u] span ∧
        bounds.ShowsInterval i ∧ Tree.Means layer (.formula a) u)
          (skip tail) := by
  apply takes_parts
  refine hword.bind fun _ _ => ?_
  refine (takes_bounds i (ha.opens.head_ne tail)).bind fun bounds hbounds => ?_
  refine (ha.takes_after_space htail).bind fun t ht => ?_
  exact takes_pure ⟨_, t, rfl, hbounds, ht⟩

theorem takes_bounded {rule : Rule} {modality : Option Interval → UnaryModality}
    {operator : Reader Unit} {i : Option Interval}
    (hlayer : layer.includes rule.layer = true)
    (hknown : rule.unary? = some modality)
    (hword :
      Takes operator input (fun _ => True)
        (skip (Interval.charsOf i ++ ' ' :: (a.operandChars ++ tail))))
    (hbounds : BoundsFit i) (ha : op.Recovers layer a) (htail : EndsName tail) :
    Takes (bounded rule operator op) input
      (Tree.Means layer (.formula (.unary (modality i) a))) (skip tail) := by
  apply (takes_bounded_shown hword ha htail).mono
  rintro _ ⟨bounds, u, span, rfl, hshown, hu⟩
  exact Tree.means_node hlayer (.cons (hshown.means hbounds) (.cons hu .nil))
    (.unary rule modality hknown i a)

private theorem takes_graph {direction : Direction} {labels : LabelSet}
    {edges : Option Interval} (hgraph : layer.includes .stlGo = true)
    (hne : labels.isEmpty = false)
    (hlabels : ∀ label ∈ labels, isIdentifier label.toList = true)
    (hedges : BoundsFit edges) (ha : op.Recovers layer a)
    (htail : EndsName tail) :
    Takes (graph direction.rule direction.keyword.toList op)
      (direction.keyword.toList ++
        (labels.chars ++
          (Interval.charsOf edges ++ ' ' :: (a.operandChars ++ tail))))
      (Tree.Means layer (.formula (.unary (.graph direction labels edges) a)))
        (skip tail) := by
  have hlayer : layer.includes direction.rule.layer = true := by
    cases direction <;> exact hgraph
  have hword : Takes (keyword direction.keyword.toList)
      (direction.keyword.toList ++
        (labels.chars ++
          (Interval.charsOf edges ++ ' ' :: (a.operandChars ++ tail))))
      (fun _ => True)
      (labels.chars ++
        (Interval.charsOf edges ++ ' ' :: (a.operandChars ++ tail))) := by
    have hidentifier : isIdentifier direction.keyword.toList = true := by
      cases direction <;> decide
    exact takes_keyword hidentifier (endsName_labels labels _)
  refine takes_node hlayer ?_ (.graph direction labels edges a hne)
  refine hword.bind fun _ _ => ?_
  refine (takes_graphList layer hgraph hne hlabels).bind fun u hu => ?_
  refine (takes_bounds edges (ha.opens.head_ne tail)).bind
    fun bounds hshown => ?_
  refine (ha.takes_after_space htail).bind fun t ht => ?_
  exact takes_pure (.cons hu (.cons (hshown.means hedges) (.cons ht .nil)))

/-! ## The alternative that takes the operand -/

variable {n : Nat} {P : Tree → Prop}

theorem takes_operand_of_refused {before after : List (Reader Tree)}
    {p : Reader Tree}
    (hchoice : operand layer (n + 1) = firstOf (before ++ p :: after))
    (hbefore : ∀ q ∈ before, Refuses q input) (h : Takes p input P rest) :
    Takes (operand layer (n + 1)) input P rest := by
  rw [hchoice]
  exact takes_firstOf hbefore h

theorem head?_skip_word (h : isIdentifier word = true) (rest : List Char) :
    (skip (word ++ rest)).head? = word.head? := by
  rw [skip_word h]
  cases word with
  | nil => cases h
  | cons => rfl

theorem isNameStart_head (h : isIdentifier word = true) :
    ∀ c ∈ (skip (word ++ rest)).head?, isNameStart c = true := by
  rw [head?_skip_word h]
  cases word with
  | nil => cases h
  | cons c cs =>
      simp only [isIdentifier, Bool.and_eq_true] at h
      rintro _ ⟨⟩
      exact h.1

theorem takes_operand_word {p : Reader Tree} (word : List Char)
    (before : List (Reader Tree))
    (hprefixed : ∃ after, prefixed layer (operand layer n) =
      negation (operand layer n) :: before ++ p :: after)
    (hword : isIdentifier word = true) (hrest : EndsName rest)
    (hliteral : word ∉ literalWords)
    (hbefore : ∀ q ∈ before, Refuses q (word ++ rest))
    (h : Takes p (word ++ rest) P tail) :
    Takes (operand layer (n + 1)) (word ++ rest) P tail := by
  obtain ⟨after, hprefixed⟩ := hprefixed
  have hchoice : operand layer (n + 1) =
      firstOf (literalAtom :: negation (operand layer n) ::
      before ++ p :: (after ++
        [parenthesized (formula layer (operand layer n)),
          variableAtom layer])) := by
    rw [operand, hprefixed]
    simp
  apply takes_operand_of_refused hchoice _ h
  intro q hq
  rcases List.mem_cons.mp hq with rfl | hq
  · exact refuses_literalAtom_word hword hrest hliteral
  · rcases List.mem_cons.mp hq with rfl | hq
    · apply refuses_negation
      intro c hc
      have hname := isNameStart_head hword c hc
      constructor <;> rintro rfl <;> cases hname
    · exact hbefore q hq

theorem takes_letter (letter : Char) (rest : List Char)
    (h : isBlank letter = false) :
    Takes (symbol [letter]) (letter :: rest) (fun _ => True) (skip rest) :=
  takes_symbol [letter] rest (skip_cons h rest)

theorem refuses_letter {letter : Char} {f : Unit → Reader (List Part)}
    {rule : Rule} (h : ∀ c ∈ (skip input).head?, c ≠ letter) :
    Refuses (node rule (symbol [letter] >>= f)) input :=
  (refuses_symbol h).bind.located.bind

theorem refuses_word {other : List Char} {f : Unit → Reader (List Part)}
    {rule : Rule} (h : isIdentifier word = true) (hrest : EndsName rest)
    (hne : word ≠ other) :
    Refuses (node rule (keyword other >>= f)) (word ++ rest) :=
  (refuses_keyword h hrest hne).bind.located.bind

private theorem prefixed_of_ltl (op : Reader Tree)
    (h : layer.includes .ltl = true) :
    ∃ after, prefixed layer op = negation op :: temporal op ++ after := by
  rw [prefixed, if_pos h, List.append_assoc]
  exact ⟨_, rfl⟩

theorem takes_operand_letter {p : Reader Tree} (letter : Char)
    (before : List (Reader Tree))
    (htemporal : ∃ after, temporal (operand layer n) = before ++ p :: after)
    (hltl : layer.includes .ltl = true) (hletter : isNameStart letter = true)
    (hliteral : [letter] ∉ literalWords)
    (hbefore : ∀ q ∈ before, Refuses q (letter :: rest)) (hrest : EndsName rest)
    (h : Takes p (letter :: rest) P tail) :
    Takes (operand layer (n + 1)) (letter :: rest) P tail := by
  have hidentifier : isIdentifier [letter] = true := by
    simp [isIdentifier, hletter]
  obtain ⟨after, htemporal⟩ := htemporal
  obtain ⟨others, hprefixed⟩ := prefixed_of_ltl (operand layer n) hltl
  rw [htemporal, ← List.cons_append, List.append_assoc] at hprefixed
  exact takes_operand_word [letter] before ⟨_, hprefixed⟩ hidentifier hrest
    hliteral hbefore h

theorem takes_operand_temporal {rule : Rule}
    {modality : Option Interval → UnaryModality} {i : Option Interval}
    (letter : Char) (before : List (Reader Tree))
    (htemporal : ∃ after, temporal (operand layer n) =
      before ++ bounded rule (symbol [letter]) (operand layer n) :: after)
    (hltl : layer.includes .ltl = true)
    (hlayer : layer.includes rule.layer = true)
    (hknown : rule.unary? = some modality) (hletter : isNameStart letter = true)
    (hliteral : [letter] ∉ literalWords)
    (hbefore : ∀ q ∈ before, ∀ rest, Refuses q (letter :: rest))
    (hbounds : BoundsFit i) (ha : (operand layer n).Recovers layer a)
    (htail : EndsName tail) :
    Takes (operand layer (n + 1))
      (letter :: (Interval.charsOf i ++ ' ' :: (a.operandChars ++ tail)))
      (Tree.Means layer (.formula (.unary (modality i) a))) (skip tail) := by
  have hword :=
    takes_letter letter (Interval.charsOf i ++ ' ' :: (a.operandChars ++ tail))
    (isBlank_of_isNameStart hletter)
  exact takes_operand_letter letter before htemporal hltl hletter hliteral
    (fun q hq => hbefore q hq _) (endsName_bounds i (a.operandChars ++ tail))
    (takes_bounded hlayer hknown hword hbounds ha htail)

theorem takes_operand_spatial {rule : Rule}
    {modality : Option Interval → UnaryModality} {i : Option Interval}
    (word : List Char) (before : List (Reader Tree))
    (hprefixed : ∃ after, spatial (operand .strel n) =
      before ++ bounded rule (keyword word) (operand .strel n) :: after)
    (hlayer : Layer.strel.includes rule.layer = true)
    (hknown : rule.unary? = some modality) (hword : isIdentifier word = true)
    (hliteral : word ∉ literalWords)
    (hletter : ∀ c ∈ word.head?, c ∉ ['X', 'G', 'F'])
    (hbefore : ∀ q ∈ before, ∀ rest, EndsName rest → Refuses q (word ++ rest))
    (hbounds : BoundsFit i) (ha : (operand .strel n).Recovers .strel a)
    (htail : EndsName tail) :
    Takes (operand .strel (n + 1))
      (word ++ (Interval.charsOf i ++ ' ' :: (a.operandChars ++ tail)))
      (Tree.Means .strel (.formula (.unary (modality i) a))) (skip tail) := by
  have hends := endsName_bounds i (a.operandChars ++ tail)
  have htakes :=
    takes_bounded hlayer hknown (takes_keyword hword hends) hbounds ha htail
  obtain ⟨after, hspatial⟩ := hprefixed
  have hall :
      prefixed .strel (operand .strel n) = negation (operand .strel n) ::
      (temporal (operand .strel n) ++ before) ++
        bounded rule (keyword word) (operand .strel n) :: (after ++ []) := by
    show negation _ :: (temporal _ ++ spatial _ ++ []) = _
    rw [hspatial]
    simp
  apply takes_operand_word word _ ⟨_, hall⟩ hword hends hliteral _ htakes
  intro q hq
  rcases List.mem_append.mp hq with hq | hq
  · apply refuses_temporal _ q hq
    rw [head?_skip_word hword]
    exact hletter
  · exact hbefore q hq _ hends

private theorem takes_operand_graph {direction : Direction} {labels : LabelSet}
    {edges : Option Interval} (hne : labels.isEmpty = false)
    (hlabels : ∀ label ∈ labels, isIdentifier label.toList = true)
    (hedges : BoundsFit edges) (ha : (operand .stlGo n).Recovers .stlGo a)
    (htail : EndsName tail) :
    Takes (operand .stlGo (n + 1))
      (direction.keyword.toList ++
        (labels.chars ++
          (Interval.charsOf edges ++ ' ' :: (a.operandChars ++ tail))))
      (Tree.Means .stlGo (.formula (.unary (.graph direction labels edges) a)))
        (skip tail) := by
  have hends :=
    endsName_labels labels
      (Interval.charsOf edges ++ ' ' :: (a.operandChars ++ tail))
  have htakes :
      Takes (graph direction.rule direction.keyword.toList (operand .stlGo n)) _
      (Tree.Means .stlGo (.formula (.unary (.graph direction labels edges) a)))
      _ :=
    takes_graph rfl hne hlabels hedges ha htail
  cases direction with
  | incoming =>
      apply takes_operand_word "in".toList (temporal (operand .stlGo n))
        ⟨_, rfl⟩ (by decide)
        hends (by decide) _ htakes
      exact refuses_temporal (by rintro _ ⟨⟩; decide)
  | outgoing =>
      apply takes_operand_word "out".toList (temporal (operand .stlGo n) ++
        [graph .graphIncoming "in".toList (operand .stlGo n)]) ⟨[], rfl⟩
        (by decide) hends
        (by decide) _ htakes
      intro q hq
      rcases List.mem_append.mp hq with hq | hq
      · exact refuses_temporal (by rintro _ ⟨⟩; decide) q hq
      · obtain rfl := List.mem_singleton.mp hq
        have hother : "out".toList ≠ "in".toList := by decide
        exact refuses_word (by decide) hends hother

theorem takes_operand_unary {m : UnaryModality} {a : Formula}
    (hlayer : layer.includes m.operator.layer = true) (hm : m.Readable)
    (hlabelled : m.Labelled) (ha : (operand layer n).Recovers layer a)
    (htail : EndsName tail) :
    Takes (operand layer (n + 1)) (m.chars ++ ' ' :: (a.operandChars ++ tail))
      (Tree.Means layer (.formula (.unary m a))) (skip tail) := by
  cases m with
  | next count =>
      exact takes_operand_letter 'X' [] ⟨_, rfl⟩ hlayer rfl (by decide)
        (by simp)
        (endsName_steps count _) (takes_next hlayer hm ha htail)
  | always i =>
      apply takes_operand_temporal 'G' [_] ⟨_, rfl⟩ hlayer hlayer rfl rfl
        (by decide) _ hm ha htail
      intro q hq rest
      obtain rfl := List.mem_singleton.mp hq
      exact refuses_letter (by rintro _ ⟨⟩; decide)
  | eventually i =>
      apply takes_operand_temporal 'F' [_, _] ⟨_, rfl⟩ hlayer hlayer rfl rfl
        (by decide) _ hm ha
        htail
      intro q hq rest
      rcases List.mem_cons.mp hq with rfl | hq
      · exact refuses_letter (by rintro _ ⟨⟩; decide)
      · obtain rfl := List.mem_singleton.mp hq
        exact refuses_letter (by rintro _ ⟨⟩; decide)
  | everywhere i =>
      obtain rfl := eq_strel_of_includes hlayer
      exact takes_operand_spatial "everywhere".toList [] ⟨_, rfl⟩ rfl rfl
        (by decide) (by decide)
        (by rintro _ ⟨⟩; decide) (by simp) hm ha htail
  | somewhere i =>
      obtain rfl := eq_strel_of_includes hlayer
      apply takes_operand_spatial "somewhere".toList [_] ⟨_, rfl⟩ rfl rfl
        (by decide) (by decide)
        (by rintro _ ⟨⟩; decide) _ hm ha htail
      intro q hq rest hrest
      obtain rfl := List.mem_singleton.mp hq
      exact refuses_word (by decide) hrest (by decide)
  | escape i =>
      obtain rfl := eq_strel_of_includes hlayer
      apply takes_operand_spatial "escape".toList [_, _] ⟨_, rfl⟩ rfl rfl
        (by decide) (by decide)
        (by rintro _ ⟨⟩; decide) _ hm ha htail
      intro q hq rest hrest
      rcases List.mem_cons.mp hq with rfl | hq
      · exact refuses_word (by decide) hrest (by decide)
      · obtain rfl := List.mem_singleton.mp hq
        exact refuses_word (by decide) hrest (by decide)
  | graph direction labels edges =>
      have hgraph : layer.includes .stlGo = true := by
        cases direction <;> exact hlayer
      obtain rfl := eq_stlGo_of_includes hgraph
      have htext : (UnaryModality.graph direction labels edges).chars ++
          ' ' :: (a.operandChars ++ tail) = direction.keyword.toList ++
            (labels.chars ++
              (Interval.charsOf edges ++ ' ' :: (a.operandChars ++ tail))) := by
        show direction.keyword.toList ++
            (labels.chars ++ Interval.charsOf edges) ++ _ = _
        rw [List.append_assoc, List.append_assoc]
      rw [htext]
      exact takes_operand_graph hlabelled hm.1 hm.2 ha htail

theorem takes_operand_not {a : Formula} (hnegatable : a.Negatable)
    (ha : (operand layer n).Recovers layer a) (htail : EndsName tail) :
    Takes (operand layer (n + 1)) ('!' :: (a.operandChars ++ tail))
      (Tree.Means layer (.formula (.not a))) (skip tail) := by
  have hliteral : Refuses literalAtom ('!' :: (a.operandChars ++ tail)) :=
    refuses_literalAtom rfl rfl rfl
  exact hliteral.takes_orElse (takes_negation hnegatable ha htail).orElse

theorem takes_operand_enclosed {cs after : List Char}
    (h : Takes (formula layer (operand layer n)) (skip cs) P after)
    (hclose : skip after = ')' :: tail) :
    Takes (operand layer (n + 1)) ('(' :: cs) P (skip tail) := by
  have hchoice : operand layer (n + 1) =
      firstOf ((literalAtom :: prefixed layer (operand layer n)) ++
        parenthesized (formula layer (operand layer n)) ::
          [variableAtom layer]) := rfl
  apply takes_operand_of_refused hchoice
  · intro q hq
    rcases List.mem_cons.mp hq with rfl | hq
    · exact refuses_literalAtom rfl rfl rfl
    · refine refuses_prefixed ?_ ?_ ?_ q hq
      · rintro _ ⟨⟩
        decide
      · rintro _ _ ⟨⟩
        decide
      · intro w _
        exact refuses_keyword_of_head (by rintro _ ⟨⟩; rfl)
  · refine (takes_letter '(' cs rfl).bind fun _ _ => ?_
    refine h.bind fun t ht => ?_
    refine (takes_symbol [')'] tail hclose).bind fun _ _ => ?_
    exact takes_pure ht

theorem takes_operand_parenthesized {text : List Char} (htext : Opens text)
    (h : Takes (formula layer (operand layer n)) (text ++ ')' :: tail) P
      (skip (')' :: tail))) :
    Takes (operand layer (n + 1)) ('(' :: (text ++ ')' :: tail)) P
      (skip tail) := by
  rw [← htext.skip_append] at h
  exact takes_operand_enclosed h rfl

theorem takes_nameToken (hword : isIdentifier word = true)
    (hfree : layer.reserves word = false) (htail : EndsName tail) :
    Takes (orElse (token .name (nameLexeme layer)) (token .quoted quoted))
      (word ++ tail)
      (fun t => t.kind = TokenKind.name.tag ∧ t.text = String.ofList word)
        (skip tail) := by
  have hlexeme :
      Takes (nameLexeme layer) (skip (word ++ tail)) (· = word) tail := by
    rw [skip_word hword]
    apply (takes_identifier hword htail).check
    rintro _ rfl
    rw [hfree]
    rfl
  have htoken : Takes (token .name (nameLexeme layer)) (word ++ tail)
      (fun t => t.kind = TokenKind.name.tag ∧ t.text = String.ofList word)
      (skip tail) :=
    takes_token hlexeme
  exact htoken.orElse

private theorem takes_variableAtom {name : String}
    (hname : layer.CanName name.toList) (htail : EndsName tail) :
    Takes (variableAtom layer) (name.toList ++ tail)
      (Tree.Means layer (.formula (.var name)))
      (skip tail) := by
  apply (takes_nameToken hname.identifier hname.free htail).located.bind
  rintro ⟨t, span⟩ ⟨hkind, htext⟩
  have hmeans : Part.Means layer (.name name) (.token t) :=
    means_name hkind htext
  have hbase : layer.includes .base = true := layer.includes_base
  exact takes_pure (Tree.means_node hbase (.cons hmeans .nil) (.atom name))

theorem takes_operand_variableAtom (hliteral : Refuses literalAtom input)
    (hprefixed : ∀ q ∈ prefixed layer (operand layer n), Refuses q input)
    (hopening : ∀ c ∈ (skip input).head?, c ≠ '(')
    (h : Takes (variableAtom layer) input P rest) :
    Takes (operand layer (n + 1)) input P rest := by
  have hchoice : operand layer (n + 1) = firstOf ((literalAtom ::
      prefixed layer (operand layer n) ++
        [parenthesized (formula layer (operand layer n))]) ++
        variableAtom layer :: []) := by
    rw [operand]
    simp
  apply takes_operand_of_refused hchoice _ h
  intro q hq
  rcases List.mem_append.mp hq with hq | hq
  · rcases List.mem_cons.mp hq with rfl | hq
    · exact hliteral
    · exact hprefixed q hq
  · obtain rfl := List.mem_singleton.mp hq
    exact (refuses_symbol hopening).bind

theorem takes_operand_var {name : String} (hname : layer.CanName name.toList)
    (htail : EndsName tail) :
    Takes (operand layer (n + 1)) (name.toList ++ tail)
      (Tree.Means layer (.formula (.var name))) (skip tail) := by
  have hword := hname.identifier
  have hhead : ∀ c ∈ (skip (name.toList ++ tail)).head?, isNameStart c = true :=
    isNameStart_head hword
  have hfree := Layer.not_mem_of_reserves_eq_false hname.free
  refine takes_operand_variableAtom
    (refuses_literalAtom_word hword htail hfree.1)
    (refuses_prefixed ?_ ?_ ?_) ?_ (takes_variableAtom hname htail)
  · intro c hc
    have hc := hhead c hc
    constructor <;> rintro rfl <;> cases hc
  · intro hltl c hc
    rw [head?_skip_word hword] at hc
    exact hname.letter hltl c hc
  · intro w hw
    apply refuses_keyword hword htail
    rintro rfl
    exact hfree.2 hw
  · rintro c hc rfl
    cases hhead _ hc

end Reader

end LayeredLogic
