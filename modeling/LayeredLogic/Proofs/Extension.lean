import LayeredLogic.Proofs.FirstFailure
import LayeredLogic.Proofs.Simulation

/-!
# Layers that extend another

A text in which nothing stands that a layer adds is read in that layer as it is
read below it: with the same estimate of its nesting, to the same tree and to
the same formula.
-/

namespace LayeredLogic

variable {lower upper : Layer}

namespace Nesting

private theorem wordWeight_eq (hincludes : upper.includes lower = true)
    {word : List Char} (h : Common lower upper word) :
    wordWeight lower word = wordWeight upper word := by
  have hkeywords :
      lower.keywords.contains word = upper.keywords.contains word := by
    simp only [List.contains_eq_mem, h.mem_keywords_iff hincludes]
  unfold wordWeight
  rw [hkeywords]
  cases hlower : lower.includes .ltl with
  | true =>
      have hupper : upper.includes .ltl = true :=
        Layer.includes_trans hincludes hlower
      rw [hupper]
  | false =>
      cases hupper : upper.includes .ltl with
      | false => rfl
      | true =>
          have hletters : word.takeWhile isTemporalLetter = [] := by
            cases word with
            | nil => rfl
            | cons x word =>
                have hx : x ∉ ['X', 'G', 'F', 'U'] := fun hx =>
                  h.letters hupper hlower x hx List.mem_cons_self
                have hfirst : isTemporalLetter x = false := by
                  simpa [isTemporalLetter, and_assoc] using hx
                rw [List.takeWhile_cons, hfirst]
                rfl
          simp [hletters]

def Mode.pending : Mode → List Char
  | word _ reversed => reversed.reverse
  | between | skipping _ _ => []

private theorem pending_enter (offset : Nat) (c : Char) (cs : List Char) :
    (enter offset c).pending ++ cs <:+: c :: cs := by
  have hrest : cs <:+: c :: cs := (List.suffix_cons c cs).isInfix
  unfold enter
  split
  · exact hrest
  split
  · exact hrest
  split
  · exact hrest
  split
  · exact List.infix_rfl
  · exact hrest

private theorem pending_skip (close : Char) (escaped : Bool) (c : Char) :
    (skip close escaped c).pending = [] := by
  unfold skip
  split
  · rfl
  split
  · rfl
  split <;> rfl

private theorem marks_eq (hincludes : upper.includes lower = true) {mode : Mode}
    {offset : Nat} {cs : List Char}
    (h : Common lower upper (mode.pending ++ cs)) :
    marks lower mode offset cs = marks upper mode offset cs := by
  have hweight : ∀ {word rest : List Char}, Common lower upper (word ++ rest) →
      wordWeight lower word = wordWeight upper word := fun hword =>
    wordWeight_eq hincludes (hword.of_piece (List.prefix_append _ _).isInfix)
  induction cs generalizing mode offset with
  | nil =>
      cases mode with
      | between | skipping => rfl
      | word start reversed =>
          have hword : wordWeight lower reversed.reverse =
              wordWeight upper reversed.reverse :=
            hweight h
          rw [marks, marks, hword]
  | cons c cs ih =>
      have hafter : c :: cs <:+: mode.pending ++ c :: cs :=
        (List.suffix_append _ _).isInfix
      have henter : Common lower upper ((enter offset c).pending ++ cs) :=
        h.of_piece ((pending_enter offset c cs).trans hafter)
      cases mode with
      | between => rw [marks, marks, ih henter]
      | skipping close escaped =>
          have hskip :
              Common lower upper ((skip close escaped c).pending ++ cs) := by
            rw [pending_skip]
            exact h.of_piece ((List.suffix_cons c cs).isInfix.trans hafter)
          rw [marks, marks, ih hskip]
      | word start reversed =>
          have hlonger :
              Common lower upper
                ((Mode.word start (c :: reversed)).pending ++ cs) := by
            simpa [Mode.pending] using h
          have hword : wordWeight lower reversed.reverse =
              wordWeight upper reversed.reverse :=
            hweight h
          rw [marks, marks, ih henter, ih hlonger, hword]

private theorem excess?_eq (hincludes : upper.includes lower = true)
    {cs : List Char} (h : Common lower upper cs) :
    excess? lower cs = excess? upper cs := by
  have hmarks : marks lower .between 0 cs = marks upper .between 0 cs :=
    marks_eq hincludes h
  rw [excess?, excess?, hmarks]

end Nesting

namespace Reader

variable {α : Type} {p : Reader α} {Q : List Char → Prop}

private theorem mirrors_self (hQ : ∀ s cs, Q (s ++ cs) → Q cs)
    (h : Advances p) :
    Mirrors ⟨0, []⟩ Q Q id p p where
  result c _ := by
    have hwithin : Cursor.within ⟨0, []⟩ = id := by
      funext c
      simp [Cursor.within]
    simp [hwithin]
  rest c a c' hc hresult := by
    obtain ⟨taken, -, hrest⟩ := h c a c' hresult
    rw [hrest] at hc
    exact hQ taken c'.rest hc

private theorem MirrorsTrees.result?_eq {q r : Reader Tree}
    (h : MirrorsTrees ⟨0, []⟩ Q q r) {c : Cursor} (hc : Q c.rest) :
    result? q c = result? r c := by
  have hwithin : Cursor.within ⟨0, []⟩ = id := by
    funext c
    simp [Cursor.within]
  have hshift : Tree.shift 0 = id := funext Tree.shift_zero
  have hresult := h.result c hc
  rw [hwithin, hshift] at hresult
  simpa using hresult.symm

theorem simulation_of_includes (h : upper.includes lower = true) :
    Simulation lower upper ⟨0, []⟩ fun _ _ => Common lower upper := by
  have hsuffix : ∀ s cs, Common lower upper (s ++ cs) → Common lower upper cs :=
    fun s cs hcs =>
    hcs.of_piece (List.suffix_append s cs).isInfix
  have hself : ∀ {α : Type} {p : Reader α}, Advances p →
      Mirrors ⟨0, []⟩ (Common lower upper) (Common lower upper) id p p :=
        mirrors_self hsuffix
  exact {
    includes := h
    lexing := fun _ => {
      weaken := fun _ hcs => hcs
      run := fun _ => hself (consumes_run fun _ _ => trivial)
      satisfy := fun _ => hself (consumes_satisfy fun _ _ => trivial) }
    bracket := hself (consumes_satisfy fun _ _ => trivial)
    quoted := hself (consumes_quoted.mono fun _ _ => trivial)
    opening := hself (consumes_satisfy fun _ _ => trivial)
    closing := hself (consumes_satisfy fun _ _ => trivial)
    common := fun hcs => by rwa [List.append_nil] }

private theorem mirrors_operand (h : upper.includes lower = true) (n : Nat) :
    MirrorsTrees ⟨0, []⟩ (Common lower upper) (operand lower n)
      (operand upper n) := by
  induction n with
  | zero => exact mirrors_fail
  | succ n ih =>
      exact (simulation_of_includes h).operand (n := 0) (k := 0) fun _ => ih

private theorem result?_sentence_eq (h : upper.includes lower = true)
    {c : Cursor} (hc : Common lower upper c.rest) :
    result? (sentence lower) c = result? (sentence upper) c := by
  have hsimulation := simulation_of_includes h
  have hformula : MirrorsTrees ⟨0, []⟩ (Common lower upper)
      (formula lower (operand lower (c.rest.length + 1)))
      (formula upper (operand upper (c.rest.length + 1))) :=
    hsimulation.formula (n := 0) (k :=
      0) (mirrors_operand h _) (layout_true.operand _)
  have hpadded :
      MirrorsTrees ⟨0, []⟩ (Common lower upper) (padded _) (padded _) :=
    (hsimulation.lexing 0).padded (j := 0) (k := 0) hformula
  rw [result?_sentence, result?_sentence, result?_bind, result?_bind,
    hpadded.result?_eq hc]

end Reader

namespace Tree

theorem parse_eq_ok_iff_of_common (h : upper.includes lower = true)
    {source : String} (hsource : Common lower upper source.toList) {t : Tree} :
    parse lower source = .ok t ↔ parse upper source = .ok t := by
  have hsentence :
      Reader.result? (Reader.sentence lower) (.ofText source.toList) =
      Reader.result? (Reader.sentence upper) (.ofText source.toList) :=
    Reader.result?_sentence_eq h hsource
  rw [parse_eq_ok_iff, parse_eq_ok_iff, Nesting.excess?_eq h hsource, hsentence]

end Tree

namespace RuleTable

private theorem values_mono {parts : List Part} {vs : List Value}
    (htrees : ∀ t, Part.tree t ∈ parts →
      ∀ v, (ofLayer lower).value t = .ok v → (ofLayer upper).value t = .ok v)
    (h : (ofLayer lower).values parts = .ok vs) :
    (ofLayer upper).values parts = .ok vs := by
  induction parts generalizing vs with
  | nil => rwa [values_nil] at h ⊢
  | cons part parts ih =>
      obtain ⟨v, rest, hv, hrest, rfl⟩ := values_cons_iff.mp h
      have hparts := ih (fun t ht => htrees t (List.mem_cons_of_mem _ ht)) hrest
      refine values_cons_iff.mpr ⟨v, rest, ?_, hparts, rfl⟩
      cases part with
      | tree t => exact htrees t List.mem_cons_self v hv
      | token t =>
          rw [partValue, tokenValue_ofLayer] at hv ⊢
          exact hv
      | absent => exact hv

private theorem value_mono (hincludes : upper.includes lower = true) {t : Tree}
    {v : Value} (h : (ofLayer lower).value t = .ok v) :
    (ofLayer upper).value t = .ok v := by
  induction t using Tree.induct generalizing v with
  | node name parts span ih =>
      obtain ⟨vs, hvs, hv⟩ := value_node_iff.mp h
      obtain ⟨rule, hname, hlayer, hmakes⟩ := ruleValue_ofLayer_iff.mp hv
      have hupper : upper.includes rule.layer = true :=
        Layer.includes_trans hincludes hlayer
      refine value_node_iff.mpr
        ⟨vs, ?_, ruleValue_ofLayer_iff.mpr ⟨rule, hname, hupper, hmakes⟩⟩
      exact values_mono (fun t ht v hv => ih t ht hv) hvs

end RuleTable

namespace Formula

private theorem parse_eq_of_common (h : upper.includes lower = true)
    {source : String} (hsource : Common lower upper source.toList) {t : Tree}
    (ht : Tree.parse lower source = .ok t) :
    parse lower source = parse upper source := by
  have ht' : Tree.parse upper source = .ok t :=
    (Tree.parse_eq_ok_iff_of_common h hsource).mp ht
  have hlower := RuleTable.settles_assemble (Tree.grammatical_of_parse ht)
  have hupper := RuleTable.settles_assemble (Tree.grammatical_of_parse ht')
  have hassemble : (RuleTable.ofLayer lower).assemble t =
      (RuleTable.ofLayer upper).assemble t := by
    cases hresult : (RuleTable.ofLayer lower).assemble t with
    | error e => rw [(hupper.error_iff e).mpr ((hlower.error_iff e).mp hresult)]
    | ok f =>
        have hvalue :=
          RuleTable.value_mono h (RuleTable.assemble_eq_ok_iff.mp hresult)
        rw [RuleTable.assemble_eq_ok_iff.mpr hvalue]
  rw [parse, parse, ht, ht']
  exact congrArg (Except.mapError ReadError.assembly) hassemble

end Formula

private theorem common_of_absent {cs : List Char}
    (hletters : lower = .base → upper ≠ .base →
      ∀ x ∈ ['X', 'G', 'F', 'U'], x ∉ cs)
    (hspatial : upper = .strel → lower ≠ .strel →
      ∀ word ∈ ["everywhere", "somewhere", "escape", "reach"],
        ¬ word.toList <:+: cs)
    (hgraph : upper = .stlGo → lower ≠ .stlGo →
      ∀ word ∈ ["in", "out"], ¬ word.toList <:+: cs) :
    Common lower upper cs := by
  constructor
  · intro hupper hlower
    apply hletters
    · revert hlower
      cases lower <;> decide
    · rintro rfl
      cases hupper
  · intro word hnew hold
    cases upper with
    | base | ltl => cases hnew
    | strel =>
        have hlower : lower ≠ .strel := by
          rintro rfl
          exact hold hnew
        have hword :
            word ∈ ["everywhere", "somewhere", "escape", "reach"].map
              String.toList := hnew
        obtain ⟨text, htext, rfl⟩ := List.mem_map.mp hword
        exact hspatial rfl hlower text htext
    | stlGo =>
        have hlower : lower ≠ .stlGo := by
          rintro rfl
          exact hold hnew
        have hword : word ∈ ["in", "out"].map String.toList := hnew
        obtain ⟨text, htext, rfl⟩ := List.mem_map.mp hword
        exact hgraph rfl hlower text htext

/-- A layer reads a text that has nothing of it as the layers below read it. -/
theorem Layer.parse_conservative {lower upper : Layer}
    (h : upper.includes lower = true) {source : String}
    (hletters : lower = .base → upper ≠ .base →
      ∀ x ∈ ['X', 'G', 'F', 'U'], x ∉ source.toList)
    (hspatial : upper = .strel → lower ≠ .strel →
      ∀ word ∈ ["everywhere", "somewhere", "escape", "reach"],
        ¬ word.toList <:+: source.toList)
    (hgraph : upper = .stlGo → lower ≠ .stlGo →
      ∀ word ∈ ["in", "out"], ¬ word.toList <:+: source.toList) :
    (∀ t, Tree.parse lower source = .ok t ↔ Tree.parse upper source = .ok t) ∧
      ∀ t, Tree.parse lower source = .ok t →
        Formula.parse lower source = Formula.parse upper source := by
  have hsource := common_of_absent hletters hspatial hgraph
  exact ⟨fun t => Tree.parse_eq_ok_iff_of_common h hsource,
    fun t ht => Formula.parse_eq_of_common h hsource ht⟩

/-- The base layer and the spatial one read the text to the same tree. -/
theorem Layer.parse_conservative_strel :
    ∃ t, Tree.parse .base "p -> !(\"q r\" | s)" = .ok t ∧
      Tree.parse .strel "p -> !(\"q r\" | s)" = .ok t ∧
      Formula.parse .base "p -> !(\"q r\" | s)" =
        Formula.parse .strel "p -> !(\"q r\" | s)" := by
  have hstrel : Layer.strel.includes .base = true := rfl
  obtain ⟨hiff, hformula⟩ :
      (∀ t, Tree.parse .base "p -> !(\"q r\" | s)" = .ok t ↔
      Tree.parse .strel "p -> !(\"q r\" | s)" = .ok t) ∧ _ :=
    Layer.parse_conservative hstrel (by decide +kernel) (by decide +kernel)
      (by decide +kernel)
  have hparses : (Tree.parse .base "p -> !(\"q r\" | s)").toBool = true := by
    decide +kernel
  cases ht : Tree.parse .base "p -> !(\"q r\" | s)" with
  | error e =>
      rw [ht] at hparses
      cases hparses
  | ok t => exact ⟨t, rfl, (hiff t).mp ht, hformula t ht⟩

end LayeredLogic
