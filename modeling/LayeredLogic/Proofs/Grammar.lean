import LayeredLogic.Grammar.Parse
import LayeredLogic.Proofs.Lexeme

/-!
# Reading along the grammar

What the productions take when their operands are taken.  An operand is followed
by a sign that no tighter level knows, so that every level in between leaves it
alone.
-/

namespace LayeredLogic

/-- What may stand behind an operand: no name goes on, and the next sign is one
of those given. -/
def Before (signs tail : List Char) : Prop :=
  EndsName tail ∧ ∀ c ∈ (skip tail).head?, c ∈ signs

theorem before_close (tail : List Char) : Before [')'] (')' :: tail) := by
  constructor
  · rintro _ ⟨⟩
    rfl
  · rintro _ ⟨⟩
    exact List.mem_cons_self

theorem before_nil : Before [')'] [] := ⟨endsName_nil, by simp⟩

/-- How the operands of a connective group when its sign stands between them. -/
def Connective.group : Connective → Tree → List Tree → Tree
  | implies => .groupRight .implies
  | equiv => .groupLeft .equiv
  | xor => .groupLeft .xor

private theorem Connective.group_singleton (c : Connective) (t u : Tree) :
    c.group t [u] = .pair c.rule t u := by
  cases c <;> rfl

namespace Reader

variable {layer : Layer} {op : Reader Tree} {input tail : List Char}
  {P : Tree → Prop} {signs : List Char}

/-! ## Levels -/

def ladder : List (List Char × (Tree → List Tree → Tree)) :=
  [(Junction.and.symbol, .chain .conjunction),
    (Junction.or.symbol, .chain .disjunction),
    (Connective.xor.symbol, .groupLeft .xor),
      (Connective.implies.symbol, .groupRight .implies),
    (Connective.equiv.symbol, .groupLeft .equiv)]

def climb (levels : List (List Char × (Tree → List Tree → Tree)))
    (operand : Reader Tree) : Reader Tree :=
  levels.foldl (fun tighter l => level l.1 l.2 tighter) operand

theorem formula_eq_climb (layer : Layer) (op : Reader Tree) :
    formula layer op = climb ladder (modal layer op) := rfl

def PassedBy (signs : List Char)
    (levels : List (List Char × (Tree → List Tree → Tree))) : Prop :=
  ∀ l ∈ levels, ∀ c ∈ l.1.head?, c ∉ signs

instance (signs : List Char)
    (levels : List (List Char × (Tree → List Tree → Tree))) :
    Decidable (PassedBy signs levels) :=
  have (l : List Char × (Tree → List Tree → Tree)) :
      Decidable (∀ c ∈ l.1.head?, c ∉ signs) :=
    Option.decidableForallMem l.1.head?
  inferInstanceAs (Decidable (∀ l ∈ levels, ∀ c ∈ l.1.head?, c ∉ signs))

theorem level_of_mem_ladder {l : List Char × (Tree → List Tree → Tree)}
    (h : l ∈ ladder) : (∃ c cs, l.1 = c :: cs) ∧ ∀ t, l.2 t [] = t := by
  simp only [ladder, List.mem_cons, List.not_mem_nil, or_false] at h
  rcases h with rfl | rfl | rfl | rfl | rfl <;>
    exact ⟨⟨_, _, rfl⟩, fun _ => rfl⟩

theorem refuses_binaryModality
    (h : ∀ c ∈ (skip input).head?, isNameStart c = false) :
    Refuses (binaryModality layer) input := by
  have huntil : Refuses (symbol ['U']) input := by
    apply refuses_symbol
    rintro c hc rfl
    cases h _ hc
  apply refuses_firstOf
  intro p hp
  rcases List.mem_cons.mp hp with rfl | hp
  · exact huntil.bind
  · split at hp
    · obtain rfl := List.mem_singleton.mp hp
      exact (refuses_keyword_of_head h).bind
    · cases hp

private theorem refuses_binaryModality_before (htail : Before signs tail)
    (hsigns : ∀ c ∈ signs, isNameStart c = false) :
    Refuses (binaryModality layer) (skip tail) := by
  apply refuses_binaryModality
  intro c hc
  rw [skip_skip] at hc
  exact hsigns c (htail.2 c hc)

theorem refuses_sign_before {c : Char} (htail : Before signs tail)
    (hc : c ∉ signs) (cs : List Char) :
    Refuses (symbol (c :: cs)) (skip tail) := by
  apply refuses_symbol
  rintro d hd rfl
  rw [skip_skip] at hd
  exact hc (htail.2 _ hd)

def modalItem (layer : Layer) (op : Reader Tree) :
    Reader (Rule × Option Tree × Tree) := do
  let rule ← binaryModality layer
  let bounds ← optional interval
  return (rule, bounds, ← op)

theorem refuses_modalItem (htail : Before signs tail)
    (hsigns : ∀ c ∈ signs, isNameStart c = false) :
    Refuses (modalItem layer op) (skip tail) :=
  (refuses_binaryModality_before htail hsigns).bind

theorem takes_modal_many {middle rest : List Char}
    {S : List (Rule × Option Tree × Tree) → Prop}
    (hltl : layer.includes .ltl = true) (hfirst : Takes op input P middle)
    (hmany : TakesMany (modalItem layer op) middle S rest) :
    Takes (modal layer op) input
      (fun t => ∃ first found, t = found.foldl
        (fun lhs (rule, bounds, rhs) => Tree.modal rule lhs bounds rhs) first ∧
        P first ∧ S found) rest := by
  rw [modal, if_pos hltl]
  refine hfirst.bind fun first hP => hmany.many.bind fun found hS => ?_
  exact takes_pure ⟨first, found, rfl, hP, hS⟩

theorem takes_modal (h : Takes op input P (skip tail))
    (htail : Before signs tail) (hsigns : ∀ c ∈ signs, isNameStart c = false) :
    Takes (modal layer op) input P (skip tail) := by
  by_cases hltl : layer.includes .ltl = true
  · have hnone : Refuses (modalItem layer op) (skip tail) :=
      refuses_modalItem htail hsigns
    apply (takes_modal_many hltl h hnone.takesMany).mono
    rintro _ ⟨t, _, rfl, ht, rfl⟩
    exact ht
  · rwa [modal, if_neg hltl]

theorem takes_climb {levels : List (List Char × (Tree → List Tree → Tree))}
    (hladder : ∀ l ∈ levels, l ∈ ladder) (hlevels : PassedBy signs levels)
    (h : Takes op input P (skip tail)) (htail : Before signs tail) :
    Takes (climb levels op) input P (skip tail) := by
  induction levels generalizing op with
  | nil => exact h
  | cons l levels ih =>
      obtain ⟨⟨c, cs, hsign⟩, hgroup⟩ :=
        level_of_mem_ladder (hladder l List.mem_cons_self)
      have hc : c ∉ signs := hlevels l List.mem_cons_self c (by rw [hsign]; rfl)
      apply ih (fun m hm => hladder m (List.mem_cons_of_mem _ hm))
        (fun m hm => hlevels m (List.mem_cons_of_mem _ hm))
      have hrefuses : Refuses (symbol l.1) (skip tail) := by
        rw [hsign]
        exact refuses_sign_before htail hc cs
      apply (h.sepBy hrefuses.bind.takesMany).bind
      rintro ⟨t, _⟩ ⟨ht, rfl⟩
      apply takes_pure
      rwa [hgroup]

theorem takes_formula_operand (h : Takes op input P (skip tail))
    (htail : Before [')'] tail) :
    Takes (formula layer op) input P (skip tail) := by
  have hmodal : Takes (modal layer op) input P (skip tail) :=
    takes_modal h htail (by simp [isNameStart])
  exact takes_climb (fun _ hl => hl) (by decide) hmodal htail

private theorem formula_eq_climb_level {n : Nat} {sign : List Char}
    {group : Tree → List Tree → Tree} (hlevel : ladder[n]? = some (sign, group))
    (layer : Layer) (op : Reader Tree) :
    formula layer op = climb (ladder.drop (n + 1))
      (level sign group (climb (ladder.take n) (modal layer op))) := by
  obtain ⟨hn, hget⟩ := List.getElem?_eq_some_iff.mp hlevel
  have hladder :
      ladder = ladder.take n ++ (sign, group) :: ladder.drop (n + 1) := by
    rw [← hget, ← List.drop_eq_getElem_cons, List.take_append_drop]
  calc formula layer op = climb ladder (modal layer op) :=
    formula_eq_climb layer op
    _ = climb (ladder.take n ++ (sign, group) :: ladder.drop (n + 1))
      (modal layer op) :=
        congrArg (climb · _) hladder
    _ = _ := List.foldl_append

section

variable {ι : Type} {c : Char} {cs : List Char}
  {group : Tree → List Tree → Tree} {first : ι} {others : List ι}
  {text : ι → List Char} {S : ι → Tree → Prop}

private theorem before_sign (hblank : isBlank c = false) (cs rest : List Char) :
    Before (c :: signs) (' ' :: (c :: cs) ++ rest) := by
  constructor
  · rintro _ ⟨⟩
    decide
  · intro d hd
    rw [List.cons_append, skip_space, List.cons_append, skip_cons hblank] at hd
    obtain rfl := Option.some.inj hd
    exact List.mem_cons_self

theorem takes_level {tighter : Reader Tree} (hblank : isBlank c = false)
    (hsign : c ∉ signs)
    (htight : ∀ x ∈ first :: others, ∀ rest, Before (c :: signs) rest →
      Takes tighter (text x ++ rest) (S x) (skip rest))
    (hstart : ∀ x ∈ others, ∀ tail, skip (text x ++ tail) = text x ++ tail)
    (htail : Before signs tail) :
    Takes (level (c :: cs) group tighter)
      (text first ++
        (others.flatMap (fun x => ' ' :: (c :: cs) ++ ' ' :: text x) ++ tail))
      (fun t => ∃ u us, t = group u us ∧ S first u ∧ List.Forall₂ S others us)
        (skip tail) := by
  have hskip : ∀ rest, skip (' ' :: (c :: cs) ++ rest) = c :: cs ++ rest := by
    intro rest
    rw [List.cons_append, skip_space, List.cons_append, skip_cons hblank]
  have hafter : ∀ x rest,
      Before (c :: signs) (' ' :: (c :: cs) ++ ' ' :: text x ++ rest) := by
    intro x rest
    rw [List.append_assoc]
    exact before_sign hblank cs _
  have hstop : Before (c :: signs) tail :=
    ⟨htail.1, fun d hd => List.mem_cons_of_mem _ (htail.2 d hd)⟩
  have hmany : TakesMany (do symbol (c :: cs); tighter)
      (skip (others.flatMap (fun x => ' ' :: (c :: cs) ++ ' ' :: text x) ++
        tail))
      (List.Forall₂ S others) (skip tail) := by
    apply takesMany_of_items (Before (c :: signs))
    · intro x hx rest hrest
      have hopen :
          Takes (symbol (c :: cs))
            (skip (' ' :: (c :: cs) ++ ' ' :: text x ++ rest))
          (fun _ => True) (text x ++ rest) := by
        rw [List.append_assoc, hskip]
        have h :=
          takes_symbol (c :: cs) (' ' :: text x ++ rest) (skip_cons hblank _)
        rwa [List.cons_append, skip_space, hstart x hx] at h
      exact hopen.bind fun _ _ =>
        htight x (List.mem_cons_of_mem _ hx) rest hrest
    · exact fun x _ rest => hafter x rest
    · intro x hx rest
      have hlength := length_skip_le rest
      rw [List.append_assoc, hskip]
      simp only [List.length_append, List.length_cons]
      omega
    · exact hstop
    · exact (refuses_sign_before htail hsign cs).bind
  have hmiddle : Before (c :: signs)
      (others.flatMap (fun x => ' ' :: (c :: cs) ++ ' ' :: text x) ++
        tail) := by
    cases others with
    | nil => exact hstop
    | cons x others =>
        rw [List.flatMap_cons, List.append_assoc]
        exact hafter x _
  apply ((htight first List.mem_cons_self _ hmiddle).sepBy hmany).bind
  rintro ⟨u, us⟩ ⟨hu, hus⟩
  exact takes_pure ⟨u, us, rfl, hu, hus⟩

/-- The level of a sign in the ladder.  The first character tells the sign from
those of all tighter levels, and no sign of a looser level closes a group. -/
inductive Rung : List Char → (Tree → List Tree → Tree) → Prop where
  | intro {c : Char} {cs : List Char} {group : Tree → List Tree → Tree}
      (n : Nat)
      (level : ladder[n]? = some (c :: cs, group))
      (below : PassedBy [c, ')'] (ladder.take n))
      (above : PassedBy [')'] (ladder.drop (n + 1)))
      (sign : isBlank c = false ∧ isNameStart c = false ∧ c ≠ ')') :
        Rung (c :: cs) group

private theorem rung_junction (k : Junction) :
    Rung k.symbol (.chain k.rule) := by
  cases k with
  | and => exact .intro 0 rfl (by decide) (by decide) (by decide)
  | or => exact .intro 1 rfl (by decide) (by decide) (by decide)

theorem rung_connective (c : Connective) : Rung c.symbol c.group := by
  cases c with
  | xor => exact .intro 2 rfl (by decide) (by decide) (by decide)
  | implies => exact .intro 3 rfl (by decide) (by decide) (by decide)
  | equiv => exact .intro 4 rfl (by decide) (by decide) (by decide)

theorem takes_formula_chain {sign : List Char} (hrung : Rung sign group)
    (hitem : ∀ x ∈ first :: others,
      ∀ tail, EndsName tail → Takes op (text x ++ tail) (S x) (skip tail))
    (hstart : ∀ x ∈ others, ∀ tail, skip (text x ++ tail) = text x ++ tail)
    (htail : Before [')'] tail) :
    Takes (formula layer op)
      (text first ++
        (others.flatMap (fun x => ' ' :: sign ++ ' ' :: text x) ++ tail))
      (fun t => ∃ u us, t = group u us ∧ S first u ∧ List.Forall₂ S others us)
        (skip tail) := by
  obtain @⟨c, cs, group, n, hlevel, hbelow, habove, hblank, hname, hclose⟩ :=
    hrung
  have htight : ∀ x ∈ first :: others, ∀ rest, Before [c, ')'] rest →
      Takes (climb (ladder.take n) (modal layer op)) (text x ++ rest) (S x)
        (skip rest) := by
    intro x hx rest hrest
    have hmodal :
        Takes (modal layer op) (text x ++ rest) (S x) (skip rest) := by
      apply takes_modal (hitem x hx rest hrest.1) hrest
      intro d hd
      rcases List.mem_cons.mp hd with rfl | hd
      · exact hname
      · obtain rfl := List.mem_singleton.mp hd
        decide
    exact takes_climb (fun _ hl => List.mem_of_mem_take hl) hbelow hmodal hrest
  rw [formula_eq_climb_level hlevel]
  apply takes_climb (fun _ hl => List.mem_of_mem_drop hl) habove _ htail
  exact takes_level hblank (by simpa using hclose) htight hstart htail

end

end Reader

/-! ## Formulas of operands -/

def Opens (cs : List Char) : Prop :=
  ∃ c rest, cs = c :: rest ∧ isBlank c = false ∧ c ≠ '['

theorem Opens.append {cs : List Char} (h : Opens cs) (ds : List Char) :
    Opens (cs ++ ds) := by
  obtain ⟨c, rest, rfl, hc⟩ := h
  exact ⟨c, rest ++ ds, rfl, hc⟩

theorem Opens.skip_append {cs : List Char} (h : Opens cs) (tail : List Char) :
    skip (cs ++ tail) = cs ++ tail := by
  obtain ⟨c, rest, rfl, hc, -⟩ := h
  exact skip_cons hc _

theorem Opens.head_ne {cs : List Char} (h : Opens cs) (tail : List Char) :
    ∀ c ∈ (skip (' ' :: (cs ++ tail))).head?, c ≠ '[' := by
  rw [skip_space, h.skip_append]
  obtain ⟨c, rest, rfl, -, hc⟩ := h
  rintro _ ⟨⟩
  exact hc

/-- The reader takes the text of an operand back to the operand. -/
structure Reader.Recovers (op : Reader Tree) (layer : Layer) (a : Formula) :
    Prop where
  opens : Opens a.operandChars
  takes : ∀ tail, EndsName tail →
    op.Takes (a.operandChars ++ tail) (Tree.Means layer (.formula a))
      (skip tail)

theorem endsName_bounds (i : Option Interval) (rest : List Char) :
    EndsName (Interval.charsOf i ++ ' ' :: rest) := by
  cases i <;> rintro _ ⟨⟩ <;> rfl

theorem endsName_steps (count : Option UInt64) (rest : List Char) :
    EndsName (stepsChars count ++ ' ' :: rest) := by
  cases count <;> rintro _ ⟨⟩ <;> rfl

theorem endsName_labels (labels : LabelSet) (rest : List Char) :
    EndsName (labels.chars ++ rest) := by
  rintro _ ⟨⟩
  rfl

theorem Reader.Recovers.takes_after_space {op : Reader Tree} {layer : Layer}
    {a : Formula} (h : op.Recovers layer a) {tail : List Char}
    (htail : EndsName tail) :
    op.Takes (skip (' ' :: (a.operandChars ++ tail)))
      (Tree.Means layer (.formula a))
      (skip tail) := by
  rw [skip_space, h.opens.skip_append]
  exact h.takes tail htail

def BinaryModality.rule : BinaryModality → Rule
  | .until _ => .until
  | reach _ => .reach

private theorem BinaryModality.includes_ltl (m : BinaryModality) {layer : Layer}
    (h : layer.includes m.operator.layer = true) :
    layer.includes .ltl = true := by
  cases m with
  | «until» i => exact h
  | reach i =>
      have hstrel : layer.includes .strel = true := h
      exact Layer.includes_trans hstrel rfl

theorem BinaryModality.opens_chars (m : BinaryModality) : Opens m.chars := by
  cases m <;> exact ⟨_, _, rfl, by decide, by decide⟩

namespace Reader

private theorem means_chain {k : Junction} {first : Formula}
    {others : List Formula} {t : Tree} {ts : List Tree}
    (hfirst : Tree.Means layer (.formula first) t)
    (hothers : List.Forall₂ (fun a => Tree.Means layer (.formula a)) others ts)
    (hne : others ≠ [])
    (hjoin : Formula.joinAll k (first :: others) =
      .junction k (first :: others)) :
    Tree.Means layer (.formula (.junction k (first :: others)))
      (Tree.chain k.rule t ts) := by
  have hlength := hothers.length_eq
  have hparts : List.Forall₂ (Part.Means layer) ((first :: others).map .formula)
      ((t :: ts).map .tree) := by
    rw [List.forall₂_map_left_iff, List.forall₂_map_right_iff]
    exact .cons hfirst hothers
  have hlayer : layer.includes k.rule.layer = true := by
    cases layer <;> cases k <;> rfl
  have hcount : 2 ≤ (first :: others).length := by
    have hpos := List.length_pos_iff.mpr hne
    rw [List.length_cons]
    omega
  cases hlast : ts.getLast? with
  | none =>
      rw [List.getLast?_eq_none_iff] at hlast
      rw [hlast, List.length_nil, List.length_eq_zero_iff] at hlength
      exact absurd hlength hne
  | some last =>
      have hmakes := Rule.Makes.junction k (first :: others) hcount
      rw [hjoin] at hmakes
      rw [Tree.chain, hlast]
      exact Tree.means_node hlayer hparts hmakes

theorem takes_formula_junction (k : Junction) {first : Formula}
    {others : List Formula} (hargs : ∀ a ∈ first :: others, op.Recovers layer a)
    (hne : others ≠ [])
    (hjoin : Formula.joinAll k (first :: others) =
      .junction k (first :: others)) (htail : Before [')'] tail) :
    Takes (formula layer op)
      ((' ' :: k.symbol ++ [' ']).intercalate
        ((first :: others).map Formula.operandChars) ++ tail)
      (Tree.Means layer (.formula (.junction k (first :: others))))
        (skip tail) := by
  have htext :
      (' ' :: k.symbol ++ [' ']).intercalate
      ((first :: others).map Formula.operandChars) ++ tail =
        first.operandChars ++
        (others.flatMap (fun a => ' ' :: k.symbol ++ ' ' :: a.operandChars) ++
          tail) := by
    rw [List.map_cons, intercalate_cons, List.flatMap_map, List.append_assoc]
    simp only [List.append_assoc, List.cons_append, List.nil_append]
  have hitem : ∀ a ∈ first :: others, ∀ rest, EndsName rest →
      Takes op (a.operandChars ++ rest) (Tree.Means layer (.formula a))
        (skip rest) :=
    fun a ha => (hargs a ha).takes
  have hstart : ∀ a ∈ others,
      ∀ rest, skip (a.operandChars ++ rest) = a.operandChars ++ rest :=
    fun a ha => (hargs a (List.mem_cons_of_mem _ ha)).opens.skip_append
  rw [htext]
  apply (takes_formula_chain (rung_junction k) hitem hstart htail).mono
  rintro _ ⟨t, ts, rfl, ht, hts⟩
  exact means_chain ht hts hne hjoin

theorem means_pair {c : Connective} {a b : Formula} {t u : Tree}
    (ha : Tree.Means layer (.formula a) t)
    (hb : Tree.Means layer (.formula b) u) :
    Tree.Means layer (.formula (.derived c a b)) (Tree.pair c.rule t u) := by
  have hlayer : layer.includes c.rule.layer = true := by
    cases layer <;> cases c <;> rfl
  exact Tree.means_node hlayer (.cons ha (.cons hb .nil)) (.derived c a b)

theorem takes_formula_derived (c : Connective) {a b : Formula}
    (ha : op.Recovers layer a) (hb : op.Recovers layer b)
    (htail : Before [')'] tail) :
    Takes (formula layer op) ((Formula.derived c a b).chars ++ tail)
      (Tree.Means layer (.formula (.derived c a b))) (skip tail) := by
  have htext : (Formula.derived c a b).chars ++ tail = a.operandChars ++
      ([b].flatMap (fun x => ' ' :: c.symbol ++ ' ' :: x.operandChars) ++
        tail) := by
    simp [Formula.chars, Formula.operandChars]
  have hitem : ∀ x ∈ a :: [b], ∀ rest, EndsName rest →
      Takes op (x.operandChars ++ rest) (Tree.Means layer (.formula x))
        (skip rest) := by
    intro x hx
    rcases List.mem_cons.mp hx with rfl | hx
    · exact ha.takes
    · obtain rfl := List.mem_singleton.mp hx
      exact hb.takes
  have hstart : ∀ x ∈ [b],
      ∀ rest, skip (x.operandChars ++ rest) = x.operandChars ++ rest := by
    intro x hx
    obtain rfl := List.mem_singleton.mp hx
    exact hb.opens.skip_append
  rw [htext]
  apply (takes_formula_chain (rung_connective c) hitem hstart htail).mono
  rintro _ ⟨t, us, rfl, ht, hus⟩
  obtain ⟨u, rfl, hu⟩ := forall₂_one hus
  rw [c.group_singleton]
  exact means_pair ht hu

/-! ## Binary modalities -/

theorem takes_until (rest : List Char) :
    Takes (binaryModality layer) ('U' :: rest) (· = Rule.until)
      (skip rest) := by
  have huntil :
      Takes (symbol ['U']) ('U' :: rest) (fun _ => True) (skip rest) :=
    takes_symbol ['U'] rest rfl
  have hrule :
      Takes (do symbol ['U']; return Rule.until) ('U' :: rest) (· = Rule.until)
      (skip rest) := huntil.bind fun _ _ => takes_pure rfl
  exact hrule.orElse

theorem takes_reach {rest : List Char} (hstrel : layer.includes .strel = true)
    (hrest : EndsName rest) :
    Takes (binaryModality layer) ("reach".toList ++ rest) (· = Rule.reach)
      (skip rest) := by
  have huntil : Refuses (symbol ['U']) ("reach".toList ++ rest) :=
    refuses_symbol (by rintro _ ⟨⟩; decide)
  have hreach :
      Takes (keyword "reach".toList) ("reach".toList ++ rest) (fun _ => True)
      (skip rest) := takes_keyword (by decide) hrest
  have hrule :
      Takes (do keyword "reach".toList; return Rule.reach)
        ("reach".toList ++ rest)
      (· = Rule.reach) (skip rest) := hreach.bind fun _ _ => takes_pure rfl
  rw [binaryModality, if_pos hstrel]
  exact huntil.bind.takes_orElse hrule.orElse

private theorem takes_binaryModality {m : BinaryModality}
    (hlayer : layer.includes m.operator.layer = true) (rest : List Char) :
    Takes (binaryModality layer) (m.chars ++ ' ' :: rest) (· = m.rule)
      (skip (Interval.charsOf m.bounds ++ ' ' :: rest)) := by
  cases m with
  | «until» i => exact takes_until _
  | reach i =>
      have htext : (BinaryModality.reach i).chars ++ ' ' :: rest =
          "reach".toList ++ (Interval.charsOf i ++ ' ' :: rest) :=
            List.append_assoc _ _ _
      rw [htext]
      exact takes_reach hlayer (endsName_bounds i rest)

private theorem means_modal {m : BinaryModality} {a b : Formula} {t u : Tree}
    {bounds : Option Tree} (hlayer : layer.includes m.operator.layer = true)
    (ha : Tree.Means layer (.formula a) t)
    (hbounds : Part.Means layer (.ofInterval? m.bounds) (.ofTree? bounds))
    (hb : Tree.Means layer (.formula b) u) :
    Tree.Means layer (.formula (.binary m a b))
      (Tree.modal m.rule t bounds u) := by
  cases m with
  | «until» i =>
      exact Tree.means_node hlayer (.cons ha (.cons hbounds (.cons hb .nil)))
        (.binary .until .until rfl i a b)
  | reach i =>
      exact Tree.means_node hlayer (.cons ha (.cons hbounds (.cons hb .nil)))
        (.binary .reach .reach rfl i a b)

theorem takes_formula_binary {m : BinaryModality} {a b : Formula}
    (hlayer : layer.includes m.operator.layer = true)
    (hbounds : ∀ j ∈ m.bounds, FitsSigned j.start ∧ FitsSigned j.stop)
    (ha : op.Recovers layer a) (hb : op.Recovers layer b)
    (htail : Before [')'] tail) :
    Takes (formula layer op)
      (a.operandChars ++ ' ' :: (m.chars ++ ' ' :: (b.operandChars ++ tail)))
      (Tree.Means layer (.formula (.binary m a b))) (skip tail) := by
  have hfirst :
      Takes op
        (a.operandChars ++ ' ' :: (m.chars ++ ' ' :: (b.operandChars ++ tail)))
      (Tree.Means layer (.formula a))
      (m.chars ++ ' ' :: (b.operandChars ++ tail)) := by
    have h := ha.takes (' ' :: (m.chars ++ ' ' :: (b.operandChars ++ tail)))
      (by rintro _ ⟨⟩; decide)
    rwa [skip_space, m.opens_chars.skip_append] at h
  have hsecond :
      Takes (modalItem layer op) (m.chars ++ ' ' :: (b.operandChars ++ tail))
      (fun found => found.1 = m.rule ∧
        Part.Means layer (.ofInterval? m.bounds) (.ofTree? found.2.1) ∧
        Tree.Means layer (.formula b) found.2.2) (skip tail) := by
    refine (takes_binaryModality hlayer _).bind fun rule hrule => ?_
    refine (takes_bounds m.bounds (hb.opens.head_ne tail)).bind
      fun bounds hshown => ?_
    refine (hb.takes_after_space htail.1).bind fun u hu => ?_
    exact takes_pure ⟨hrule, hshown.means hbounds, hu⟩
  have hlength : (skip tail).length <
      (m.chars ++ ' ' :: (b.operandChars ++ tail)).length := by
    have hskip := length_skip_le tail
    simp only [List.length_append, List.length_cons]
    omega
  have hstop : Refuses (modalItem layer op) (skip tail) :=
    refuses_modalItem htail (by decide)
  have hmodal : Takes (modal layer op)
      (a.operandChars ++ ' ' :: (m.chars ++ ' ' :: (b.operandChars ++ tail)))
      (Tree.Means layer (.formula (.binary m a b))) (skip tail) := by
    have hmany := hsecond.takesMany hlength hstop.takesMany
    apply (takes_modal_many (m.includes_ltl hlayer) hfirst hmany).mono
    rintro _ ⟨t, _, rfl, ht, ⟨rule, bounds, u⟩, _, rfl, ⟨rfl, hread, hu⟩, rfl⟩
    exact means_modal hlayer ht hread hu
  exact takes_climb (fun _ hl => hl) (by decide) hmodal htail

/-! ## What the result of a production tells -/

variable {c c' : Cursor} {p : Reader Tree} {t : Tree}

theorem result?_level_eq_some {sign : List Char}
    {group : Tree → List Tree → Tree}
    (h : result? (level sign group p) c = some (t, c')) :
    ∃ (first : Tree) (others : List Tree) (middle : Cursor),
      result? p c = some (first, middle) ∧
      result? (upTo (do symbol sign; p) middle.rest.length) middle =
        some (others, c') ∧
      t = group first others := by
  obtain ⟨⟨first, others⟩, last, hchain, h⟩ := result?_bind_eq_some_iff.mp h
  obtain ⟨rfl, rfl⟩ := result?_pure_eq_some_iff.mp h
  obtain ⟨first', middle, hfirst, hchain⟩ := result?_bind_eq_some_iff.mp hchain
  obtain ⟨others', last, hothers, h⟩ := result?_bind_eq_some_iff.mp hchain
  obtain ⟨hpair, rfl⟩ := result?_pure_eq_some_iff.mp h
  cases hpair
  exact ⟨first, others, middle, hfirst, hothers, rfl⟩

theorem result?_negation_eq_some (h : result? (negation op) c = some (t, c')) :
    ∃ (x : Char) (middle : Cursor) (u : Tree) (span : Span),
      result? (padded (satisfy fun c => c == '!' || c == '~')) c =
        some (x, middle) ∧
      result? op middle = some (u, c') ∧
      t = .node Rule.negation.name [.tree u] span := by
  obtain ⟨⟨parts, span⟩, last, hparts, h⟩ := result?_bind_eq_some_iff.mp h
  obtain ⟨rfl, rfl⟩ := result?_pure_eq_some_iff.mp h
  have hinner := result?_located_eq_some hparts
  obtain ⟨x, middle, hx, hinner⟩ := result?_bind_eq_some_iff.mp hinner
  obtain ⟨u, last, hu, hinner⟩ := result?_bind_eq_some_iff.mp hinner
  obtain ⟨rfl, rfl⟩ := result?_pure_eq_some_iff.mp hinner
  exact ⟨x, middle, u, span, hx, hu, rfl⟩

theorem forall_mem_prefixed {Q : Reader Tree → Prop}
    (hnegation : Q (negation op))
    (htemporal : layer.includes .ltl = true → Q (next op) ∧
      Q (bounded .always (symbol ['G']) op) ∧
        Q (bounded .eventually (symbol ['F']) op))
    (hspatial : layer.includes .strel = true →
      Q (bounded .everywhere (keyword "everywhere".toList) op) ∧
        Q (bounded .somewhere (keyword "somewhere".toList) op) ∧
          Q (bounded .escape (keyword "escape".toList) op))
    (hgraphical : layer.includes .stlGo = true →
      Q (graph .graphIncoming "in".toList op) ∧
        Q (graph .graphOutgoing "out".toList op)) :
    ∀ p ∈ prefixed layer op, Q p := by
  have hif : ∀ {b : Bool} {ps : List (Reader Tree)},
      (b = true → ∀ p ∈ ps, Q p) → ∀ p ∈ if b then ps else [], Q p := by
    intro b ps hps
    cases b with
    | false => simp
    | true => exact hps rfl
  simp only [prefixed, List.forall_mem_cons, List.forall_mem_append]
  refine ⟨hnegation, ⟨hif fun h => ?_, hif fun h => ?_⟩, hif fun h => ?_⟩
  · simpa [temporal] using htemporal h
  · simpa [spatial] using hspatial h
  · simpa [graphical] using hgraphical h

theorem result?_parenthesized_eq_some
    (h : result? (parenthesized p) c = some (t, c')) :
    ∃ (first middle : Cursor), result? (symbol ['(']) c = some ((), first) ∧
      result? p first = some (t, middle) ∧ result? (symbol [')']) middle =
        some ((), c') := by
  obtain ⟨_, first, hopening, h⟩ := result?_bind_eq_some_iff.mp h
  obtain ⟨u, middle, hu, h⟩ := result?_bind_eq_some_iff.mp h
  obtain ⟨_, last, hclosing, h⟩ := result?_bind_eq_some_iff.mp h
  obtain ⟨rfl, rfl⟩ := result?_pure_eq_some_iff.mp h
  exact ⟨first, middle, hopening, hu, hclosing⟩

theorem result?_sentence (layer : Layer) (c : Cursor) :
    result? (sentence layer) c = result? (do
      let t ← padded (formula layer (operand layer (c.rest.length + 1)))
      finish
      return t) c := by
  rw [result?, sentence]
  rfl

theorem takes_sentence
    (h : Takes (formula layer (operand layer (input.length + 1)))
      (skip input) P []) : Takes (sentence layer) input P [] := by
  have hall : Takes (do
      let t ← padded (formula layer (operand layer (input.length + 1)))
      finish
      return t) input P [] := by
    apply h.padded.bind
    intro t ht
    apply takes_finish.bind
    intro _ _
    exact takes_pure ht
  intro offset
  rw [result?_sentence]
  exact hall offset

theorem result?_sentence_eq_some
    (h : result? (sentence layer) c = some (t, c')) :
    ∃ before after : Cursor, before.rest = skip c.rest ∧
      result? (formula layer (operand layer (c.rest.length + 1))) before =
        some (t, after) ∧
      skip after.rest = [] := by
  rw [result?_sentence] at h
  obtain ⟨u, middle, hu, h⟩ := result?_bind_eq_some_iff.mp h
  obtain ⟨_, last, hfinish, h⟩ := result?_bind_eq_some_iff.mp h
  obtain ⟨rfl, -⟩ := result?_pure_eq_some_iff.mp h
  obtain ⟨before, after, hbefore, hresult, hafter⟩ := result?_padded_eq_some hu
  refine ⟨before, after, hbefore, hresult, ?_⟩
  rw [result?_finish, hafter] at hfinish
  split at hfinish
  · assumption
  · cases hfinish

end Reader

theorem Tree.parse_eq_ok_iff {layer : Layer} {source : String} {t : Tree} :
    Tree.parse layer source = .ok t ↔
    Nesting.excess? layer source.toList = none ∧
      ∃ c', Reader.result? (Reader.sentence layer) (.ofText source.toList) =
        some (t, c') := by
  unfold Tree.parse
  cases hnesting : Nesting.excess? layer source.toList with
  | some span => simp
  | none =>
      cases hresult :
        (Reader.sentence layer (.ofText source.toList)).result? with
      | none => simp [Reader.result?, hresult]
      | some r => simp [Reader.result?, hresult, Prod.ext_iff]

theorem Tree.exists_parse_eq_ok {layer : Layer} {source : String}
    {P : Tree → Prop} (hnesting : Nesting.excess? layer source.toList = none)
    (h : Reader.Takes (Reader.sentence layer) source.toList P []) :
    ∃ t, Tree.parse layer source = .ok t ∧ P t := by
  obtain ⟨t, stop, hresult, ht⟩ := h 0
  exact ⟨t, Tree.parse_eq_ok_iff.mpr ⟨hnesting, _, hresult⟩, ht⟩

end LayeredLogic
