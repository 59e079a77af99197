import LayeredLogic.Proofs.Built
import LayeredLogic.Proofs.Fragment
import LayeredLogic.Proofs.Operand

/-!
# Canonical text is read back

The text of a formula without literals is read back as the formula, in every
layer that the formula fits.  The names in it have to be names of the layer, and
its numbers have to be in the range of the reader.
-/

namespace LayeredLogic

namespace Formula

/-- What one node needs to be read back from its text. -/
def NodeReadable (layer : Layer) : Formula → Prop
  | literal _ => False
  | var name => layer.CanName name.toList
  | unary m _ => m.Readable
  | binary m _ _ => BoundsFit m.bounds
  | not _ | junction _ _ | derived _ _ _ => True

instance (layer : Layer) (f : Formula) : Decidable (f.NodeReadable layer) :=
  match f with
  | literal _ => inferInstanceAs (Decidable False)
  | var name => inferInstanceAs (Decidable (layer.CanName name.toList))
  | unary m _ => inferInstanceAs (Decidable m.Readable)
  | binary m _ _ => inferInstanceAs (Decidable (BoundsFit m.bounds))
  | not _ | junction _ _ | derived _ _ _ => inferInstanceAs (Decidable True)

def Readable (layer : Layer) (f : Formula) : Prop :=
  ∀ g ∈ f.subformulas, g.NodeReadable layer

instance (layer : Layer) (f : Formula) : Decidable (f.Readable layer) :=
  inferInstanceAs (Decidable (∀ g ∈ f.subformulas, g.NodeReadable layer))

/-- What the text of a formula needs at every node to be read back in the layer.
-/
structure NodeCanonical (layer : Layer) (f : Formula) : Prop where
  reduced : f.NodeReduced
  belongs : f.belongsTo layer = true
  readable : f.NodeReadable layer

def Canonical (layer : Layer) (f : Formula) : Prop :=
  ∀ g ∈ f.subformulas, g.NodeCanonical layer

variable {layer : Layer} {f : Formula}

theorem canonical_iff : f.Canonical layer ↔
    f.NodeCanonical layer ∧ ∀ a ∈ f.children, a.Canonical layer :=
  forall_mem_subformulas_iff

private theorem canonical_of_readable (hreduced : f.SemiReduced)
    (hfits : f.fits layer = true) (hreadable : f.Readable layer) :
    f.Canonical layer :=
  fun g hg => ⟨hreduced g hg, fits_iff.mp hfits g hg, hreadable g hg⟩

theorem operandChars_junction (k : Junction) (args : List Formula) :
    (junction k args).operandChars =
      '(' :: ((' ' :: k.symbol ++ [' ']).intercalate (args.map operandChars) ++
        [')']) := by
  rw [← charsAll_eq_map]
  rfl

theorem operandChars_binary (m : BinaryModality) (a b : Formula) :
    (binary m a b).operandChars =
      '(' :: (a.operandChars ++ ' ' :: (m.chars ++ ' ' :: b.operandChars) ++
        [')']) := by
  show '(' :: a.operandChars ++ ' ' :: m.chars ++ ' ' :: b.operandChars ++
      [')'] = _
  simp

theorem opens_operandChars (h : f.NodeReadable layer) :
    Opens f.operandChars := by
  cases f with
  | literal value => exact absurd h id
  | var name =>
      have hword := h.identifier
      cases hname : name.toList with
      | nil => simp [hname, isIdentifier] at hword
      | cons c cs =>
          simp only [hname, isIdentifier, Bool.and_eq_true] at hword
          refine ⟨c, cs, hname, isBlank_of_isNameStart hword.1, ?_⟩
          rintro rfl
          cases hword.1
  | not | junction | derived | binary => exact ⟨_, _, rfl, rfl, by decide⟩
  | unary m a =>
      cases m with
      | graph direction labels edges =>
          cases direction <;> exact ⟨_, _, rfl, rfl, by decide⟩
      | next | always | eventually | everywhere | somewhere | escape =>
          exact ⟨_, _, rfl, rfl, by decide⟩

/-! ## Reading back -/

section

variable {n : Nat} {a b : Formula}

private theorem recovers_not (hnegatable : a.Negatable)
    (ha : (Reader.operand layer n).Recovers layer a) :
    (Reader.operand layer (n + 1)).Recovers layer (not a) where
  opens := ⟨_, _, rfl, rfl, by decide⟩
  takes := fun _ htail => Reader.takes_operand_not hnegatable ha htail

private theorem recovers_unary {m : UnaryModality}
    (hnode : (unary m a).NodeCanonical layer)
    (ha : (Reader.operand layer n).Recovers layer a) :
    (Reader.operand layer (n + 1)).Recovers layer (unary m a) := by
  refine ⟨opens_operandChars hnode.readable, ?_⟩
  intro tail htail
  have htext : (unary m a).operandChars ++ tail =
      m.chars ++ ' ' :: (a.operandChars ++ tail) := by
    show (m.chars ++ ' ' :: a.operandChars) ++ tail = _
    simp
  rw [htext]
  exact Reader.takes_operand_unary hnode.belongs hnode.readable hnode.reduced
    ha htail

theorem recovers_parenthesized {text : List Char} (hopens : Opens text)
    (hchars : f.operandChars = '(' :: (text ++ [')']))
    (h : ∀ tail, Before [')'] tail →
      Reader.Takes (Reader.formula layer (Reader.operand layer n))
        (text ++ tail) (Tree.Means layer (.formula f)) (skip tail)) :
    (Reader.operand layer (n + 1)).Recovers layer f := by
  constructor
  · rw [hchars]
    exact ⟨'(', _, rfl, rfl, by decide⟩
  · intro tail _
    have htakes :=
      Reader.takes_operand_parenthesized hopens (h _ (before_close tail))
    rw [hchars]
    simpa using htakes

private theorem recovers_junction {k : Junction} {args : List Formula}
    (hreduced : (junction k args).NodeReduced)
    (hargs : ∀ a ∈ args, (Reader.operand layer n).Recovers layer a) :
    (Reader.operand layer (n + 1)).Recovers layer (junction k args) := by
  obtain ⟨hlength, hjoinable⟩ := hreduced
  have hjoin := joinAll_of_joinable hlength hjoinable
  obtain ⟨first, others, rfl⟩ : ∃ first others, args = first :: others :=
    List.exists_cons_of_length_pos (by omega)
  have hne : others ≠ [] := by
    rintro rfl
    simp at hlength
  have htext := (hargs first List.mem_cons_self).opens.append
    ((others.map operandChars).flatMap ((' ' :: k.symbol ++ [' ']) ++ ·))
  rw [← intercalate_cons] at htext
  apply recovers_parenthesized htext (operandChars_junction k (first :: others))
  intro tail htail
  exact Reader.takes_formula_junction k hargs hne hjoin htail

private theorem recovers_derived (c : Connective)
    (ha : (Reader.operand layer n).Recovers layer a)
    (hb : (Reader.operand layer n).Recovers layer b) :
    (Reader.operand layer (n + 1)).Recovers layer (derived c a b) := by
  have hopens : Opens (derived c a b).chars := (ha.opens.append _).append _
  apply recovers_parenthesized hopens rfl
  intro tail htail
  exact Reader.takes_formula_derived c ha hb htail

private theorem recovers_binary {m : BinaryModality}
    (hnode : (binary m a b).NodeCanonical layer)
    (ha : (Reader.operand layer n).Recovers layer a)
    (hb : (Reader.operand layer n).Recovers layer b) :
    (Reader.operand layer (n + 1)).Recovers layer (binary m a b) := by
  apply recovers_parenthesized (ha.opens.append _) (operandChars_binary m a b)
  intro tail htail
  have hformula :=
    Reader.takes_formula_binary hnode.belongs hnode.readable ha hb htail
  simpa using hformula

end

theorem recovers_operand (hf : f.Canonical layer) {n : Nat} (hn : f.depth ≤ n) :
    (Reader.operand layer n).Recovers layer f := by
  -- A reader of operands goes down one level with the formula.
  induction f using childInduct generalizing n with
  | step f ih =>
      obtain ⟨hnode, hargs⟩ := canonical_iff.mp hf
      obtain ⟨n, rfl⟩ := Nat.exists_eq_add_of_le' (Nat.le_trans f.depth_pos hn)
      have hbelow :
          ∀ a ∈ f.children, (Reader.operand layer n).Recovers layer a := by
        intro a ha
        have hdepth := depth_lt_of_mem_children ha
        exact ih a ha (hargs a ha) (by omega)
      cases f with
      | literal value => exact absurd hnode.readable id
      | var name =>
          refine ⟨opens_operandChars hnode.readable, ?_⟩
          intro tail htail
          exact Reader.takes_operand_var hnode.readable htail
      | not a =>
          exact recovers_not hnode.reduced (hbelow a (by simp [children]))
      | junction k args => exact recovers_junction hnode.reduced hbelow
      | derived c a b =>
          exact recovers_derived c (hbelow a (by simp [children]))
            (hbelow b (by simp [children]))
      | unary m a => exact recovers_unary hnode (hbelow a (by simp [children]))
      | binary m a b =>
          exact recovers_binary hnode (hbelow a (by simp [children]))
            (hbelow b (by simp [children]))

/-! ## Whole texts -/

theorem length_chars_le (f : Formula) :
    f.chars.length ≤ f.operandChars.length := by
  cases f with
  | derived c a b =>
      show _ ≤ ('(' :: (derived c a b).chars ++ [')']).length
      simp only [List.length_append, List.length_cons]
      omega
  | literal | var | not | junction | unary | binary => exact Nat.le_refl _

theorem length_le_intercalate (separator : List Char) {x : List Char}
    {xs : List (List Char)} (h : x ∈ xs) :
    x.length ≤ (separator.intercalate xs).length := by
  cases xs with
  | nil => simp at h
  | cons y ys =>
      rw [intercalate_cons, List.length_append]
      rcases List.mem_cons.mp h with rfl | h
      · omega
      · have hmem : separator ++ x ∈ ys.map (separator ++ ·) :=
          List.mem_map_of_mem h
        have hle := (List.sublist_flatten_of_mem hmem).length_le
        rw [List.length_append] at hle
        rw [List.flatMap]
        omega

theorem length_operandChars_lt {a : Formula} (h : a ∈ f.children) :
    a.operandChars.length < f.chars.length := by
  cases f with
  | literal | var => cases h
  | not b =>
      obtain rfl := List.mem_singleton.mp h
      show _ < ('!' :: a.operandChars).length
      simp
  | junction k args =>
      have hmem : a.operandChars ∈ args.map operandChars :=
        List.mem_map_of_mem h
      have hle := length_le_intercalate (' ' :: k.symbol ++ [' ']) hmem
      show _ < (junction k args).operandChars.length
      rw [operandChars_junction, List.length_cons, List.length_append]
      omega
  | derived c b b' =>
      show _ <
          (b.operandChars ++ ' ' :: c.symbol ++ ' ' :: b'.operandChars).length
      simp only [List.length_append, List.length_cons]
      rcases List.mem_pair.mp h with rfl | rfl <;> omega
  | unary m b =>
      obtain rfl := List.mem_singleton.mp h
      show _ < (m.chars ++ ' ' :: a.operandChars).length
      simp only [List.length_append, List.length_cons]
      omega
  | binary m b b' =>
      show _ <
          ('(' :: b.operandChars ++ ' ' :: m.chars ++ ' ' :: b'.operandChars ++
            [')']).length
      simp only [List.length_append, List.length_cons]
      rcases List.mem_pair.mp h with rfl | rfl <;> omega

private theorem length_chars_pos (h : f.NodeReadable layer) :
    0 < f.chars.length := by
  cases f with
  | derived c a b =>
      have hlt :=
        length_operandChars_lt (f := derived c a b) (a :=
          a) (by simp [children])
      omega
  | literal | var | not | junction | unary | binary =>
      obtain ⟨c, cs, htext, -⟩ := opens_operandChars h
      exact List.length_pos_of_ne_nil fun hnil =>
        List.cons_ne_nil c cs (htext.symm.trans hnil)

theorem depth_le_length (hf : f.Canonical layer) :
    f.depth ≤ f.chars.length := by
  induction f using childInduct with
  | step f ih =>
      obtain ⟨hnode, hargs⟩ := canonical_iff.mp hf
      have hpos := length_chars_pos hnode.readable
      have hbelow : depthAll f.children ≤ f.chars.length - 1 := by
        apply depthAll_le
        intro a ha
        have hle := ih a ha (hargs a ha)
        have hchars := length_chars_le a
        have hlt := length_operandChars_lt ha
        omega
      rw [depth_eq]
      omega

/-- On its own a formula is read like an operand, only that a derived connective
has no parentheses. -/
private theorem takes_formula (hf : f.Canonical layer) {n : Nat}
    (hn : f.depth ≤ n) {tail : List Char} (htail : Before [')'] tail) :
    Reader.Takes (Reader.formula layer (Reader.operand layer n))
      (f.chars ++ tail)
      (Tree.Means layer (.formula f)) (skip tail) := by
  cases f with
  | derived c a b =>
      obtain ⟨-, hargs⟩ := canonical_iff.mp hf
      rw [depth] at hn
      have ha :=
        recovers_operand (hargs a (by simp [children])) (n := n) (by omega)
      have hb :=
        recovers_operand (hargs b (by simp [children])) (n := n) (by omega)
      exact Reader.takes_formula_derived c ha hb htail
  | literal | var | not | junction | unary | binary =>
      exact Reader.takes_formula_operand
        ((recovers_operand hf hn).takes tail htail.1) htail

theorem opens_chars (hf : f.Canonical layer) : Opens f.chars := by
  cases f with
  | derived c a b =>
      have ha := ((canonical_iff.mp hf).2 a (by simp [children]))
      have hopens := opens_operandChars (canonical_iff.mp ha).1.readable
      exact (hopens.append _).append _
  | literal | var | not | junction | unary | binary =>
      exact opens_operandChars (canonical_iff.mp hf).1.readable

theorem takes_sentence (hf : f.Canonical layer) :
    Reader.Takes (Reader.sentence layer) f.chars (Tree.Means layer (.formula f))
      [] := by
  have hdepth := depth_le_length hf
  have hformula :=
    takes_formula hf (n := f.chars.length + 1) (by omega) before_nil
  rw [← (opens_chars hf).skip_append, List.append_nil] at hformula
  exact Reader.takes_sentence hformula

theorem parse_of_takes {source : String}
    (hnesting : Nesting.excess? layer source.toList = none)
    (h : Reader.Takes (Reader.sentence layer) source.toList
      (Tree.Means layer (.formula f)) []) : parse layer source = .ok f := by
  obtain ⟨t, htree, ht⟩ := Tree.exists_parse_eq_ok hnesting h
  exact parse_eq_ok_iff.mpr ⟨t, htree, RuleTable.assemble_eq_ok_iff.mpr ht⟩

/-- The text of a formula that any composition of the operations gives is read
back as the formula in every layer that the formula fits, unless it is refused
for its nesting. -/
theorem parse_text (hbuilt : Built f) (hfits : f.fits layer = true)
    (hf : f.Readable layer)
    (hnesting : Nesting.excess? layer f.text.toList = none) :
    parse layer f.text = .ok f := by
  have hcanonical := canonical_of_readable hbuilt.semiReduced hfits hf
  apply parse_of_takes hnesting
  rw [text, String.toList_ofList]
  exact takes_sentence hcanonical

theorem parse_text_graph :
    parse .stlGo "in{a,b}[1,2] (x U[,3] !y) -> X[7] (x & y)" =
      .ok (.derived .implies
        (.unary (.graph .incoming (.ofList ["a", "b"])
          (some ⟨some 1, some 2, by decide⟩))
          (.binary (.until (some ⟨none, some 3, trivial⟩)) (.var "x")
            (.not (.var "y"))))
        (.unary (.next (some 7)) (.junction .and [.var "x", .var "y"]))) := by
  have huntil :
      Built (.binary (.until (some ⟨none, some 3, trivial⟩)) (.var "x")
      (.not (.var "y"))) := .binary _ (.var "x") (.neg (.var "y"))
  have hboth : Built (.junction .and [.var "x", .var "y"]) :=
    .join .and (.var "x") (.var "y")
  have hgraph : Built (.unary
      (.graph .incoming (.ofList ["a", "b"]) (some ⟨some 1, some 2, by decide⟩))
      (.binary (.until (some ⟨none, some 3, trivial⟩)) (.var "x")
        (.not (.var "y")))) :=
    .graph? .incoming (.ofList ["a", "b"]) (some ⟨some 1, some 2, by decide⟩)
      huntil rfl
  have hnext :
      Built (.unary (.next (some 7)) (.junction .and [.var "x", .var "y"])) :=
    .unary _ (by simp) hboth
  have hparse : parse .stlGo _ = _ :=
    parse_text (.derived .implies hgraph hnext) (by decide)
    (by decide) (by decide +kernel)
  exact hparse

end Formula

end LayeredLogic
