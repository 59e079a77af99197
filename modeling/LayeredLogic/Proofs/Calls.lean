import Mathlib.Data.List.Chain
import Mathlib.Order.Filter.AtTopBot.Basic
import Mathlib.Order.Filter.Finite
import LayeredLogic.Formula.Modal
import LayeredLogic.Proofs.Depth
import LayeredLogic.Proofs.NormalForm

/-!
# The calls of the normal form

One call of `normalize`, with the calls that it makes and its entry into
expansion left open.  With `normalize` itself in their place it is `normalize`
again; run over a record of what it does, it tells which calls a call makes; run
over itself, with a bound on the depth of the calls, it is the recursion, which
has to be shown to end.

A call is made on an operand or on an expanded copy, which may be exponentially
larger than the formula it is a copy of.  The copy holds no derived connective,
and no operand of it does, so that a chain of calls comes to an expansion once
at most.
-/

namespace LayeredLogic

open Formula

/-- A call of `normalize`: for the formula, or for its negation when `positive`
is false. -/
structure NormalizeCall where
  positive : Bool
  formula : Formula

namespace NormalizeCall

def value (c : NormalizeCall) : Formula := normalize c.positive c.formula

section Body

variable {μ : Type → Type} [Monad μ]

/-- A modality goes to its dual under negative polarity.  Without a dual it
stays, and the negation right above it. -/
def modalBody (recur : NormalizeCall → μ Formula) (positive : Bool)
    (node : Modal) : μ Formula :=
  if positive then node.mapOperandsM fun a => recur ⟨true, a⟩
  else do
    match ← node.dualM? fun a => recur ⟨false, a⟩ with
    | some f => return f
    | none => return neg (← node.mapOperandsM fun a => recur ⟨true, a⟩)

/-- What one call does, over `expansion` and over the calls `recur` that it
makes. -/
def body (expansion : Formula → μ Formula) (recur : NormalizeCall → μ Formula)
    (c : NormalizeCall) : μ Formula :=
  match c.formula with
  | literal value => return signed c.positive (literal value)
  | var name => return signed c.positive (var name)
  | .not a => recur ⟨!c.positive, a⟩
  | junction k args => do
      return joinAll (k.signed c.positive)
        (← args.mapM fun a => recur ⟨c.positive, a⟩)
  | derived k a b => do recur ⟨c.positive, ← expansion (derived k a b)⟩
  | unary m a => modalBody recur c.positive (.unary m a)
  | binary m a b => modalBody recur c.positive (.binary m a b)

end Body

/-! ## What a call does -/

inductive Event where
  | expansion (f : Formula)
  | call (d : NormalizeCall)

@[simp] def Event.expansion? : Event → Option Formula
  | expansion f => some f
  | call _ => none

@[simp] def Event.call? : Event → Option NormalizeCall
  | expansion _ => none
  | call d => some d

/-- Returns the formula and writes the event down. -/
def Event.record (e : Event) (a : Formula) : StateM (List Event) Formula := do
  modify (· ++ [e])
  return a

/-- What a call does, in the order in which it does it. -/
def events (c : NormalizeCall) : List Event :=
  (c.body (fun f => (Event.expansion f).record f.expand)
    (fun d => (Event.call d).record d.value) |>.run []).2

private theorem run_mapM_record (c : Formula → NormalizeCall)
    (args : List Formula) (done : List Event) :
    (args.mapM fun a => (Event.call (c a)).record (c a).value).run done =
      (args.map fun a => (c a).value,
        done ++ args.map fun a => Event.call (c a)) := by
  induction args generalizing done with
  | nil =>
      rw [List.mapM_nil, List.map_nil, List.map_nil, List.append_nil]
      rfl
  | cons a rest ih =>
      -- The first call is written down before any of the others is made.
      have hstep : ∀ tail : StateM (List Event) (List Formula),
          StateT.run (do
            let f ← (Event.call (c a)).record (c a).value
            let fs ← tail
            return f :: fs) done =
          ((c a).value :: (tail.run (done ++ [.call (c a)])).1,
            (tail.run (done ++ [.call (c a)])).2) := fun _ => rfl
      rw [List.mapM_cons, hstep, ih]
      simp

def operandPolarity (positive : Bool) (m : UnaryModality) : Bool :=
  positive || m.dual?.isNone

@[simp] theorem events_literal (positive value : Bool) :
    events ⟨positive, literal value⟩ = [] := rfl

@[simp] theorem events_var (positive : Bool) (name : String) :
    events ⟨positive, var name⟩ = [] := rfl

@[simp] theorem events_not (positive : Bool) (a : Formula) :
    events ⟨positive, .not a⟩ = [.call ⟨!positive, a⟩] := rfl

@[simp] theorem events_junction (positive : Bool) (k : Junction)
    (args : List Formula) :
    events ⟨positive, junction k args⟩ = args.map fun a =>
      .call ⟨positive, a⟩ := by
  simp only [events, body, StateT.run_bind,
    run_mapM_record (fun a => ⟨positive, a⟩)]
  rfl

@[simp] theorem events_derived (positive : Bool) (k : Connective)
    (a b : Formula) :
    events ⟨positive, derived k a b⟩ =
      [.expansion (derived k a b), .call ⟨positive, (derived k a b).expand⟩] :=
        rfl

@[simp] theorem events_unary (positive : Bool) (m : UnaryModality)
    (a : Formula) :
    events ⟨positive, unary m a⟩ = [.call ⟨operandPolarity positive m, a⟩] := by
  cases positive <;> cases m <;> rfl

@[simp] theorem events_binary (positive : Bool) (m : BinaryModality)
    (a b : Formula) :
    events ⟨positive, binary m a b⟩ = [.call ⟨true, a⟩, .call ⟨true, b⟩] := by
  cases positive <;> rfl

def steps (positive : Bool) : Formula → List Event
  | literal _ | var _ => []
  | .not a => [.call ⟨!positive, a⟩]
  | junction _ args => args.map fun a => .call ⟨positive, a⟩
  | derived k a b =>
      [.expansion (derived k a b), .call ⟨positive, (derived k a b).expand⟩]
  | unary m a => [.call ⟨operandPolarity positive m, a⟩]
  | binary _ a b => [.call ⟨true, a⟩, .call ⟨true, b⟩]

private theorem events_eq_steps (c : NormalizeCall) :
    c.events = steps c.positive c.formula := by
  obtain ⟨positive, f⟩ := c
  cases f <;> simp [steps]

def calls (c : NormalizeCall) : List NormalizeCall :=
  c.events.filterMap Event.call?

def Calls (c d : NormalizeCall) : Prop := d ∈ c.calls

theorem calls_iff {c d : NormalizeCall} :
    c.Calls d ↔ Event.call d ∈ c.events := by
  unfold Calls calls
  rw [List.mem_filterMap]
  constructor
  · rintro ⟨e, he, hcall⟩
    cases e with
    | expansion => cases hcall
    | call => cases hcall; exact he
  · exact fun h => ⟨_, h, rfl⟩

def expansions (c : NormalizeCall) : List Formula :=
  c.events.filterMap Event.expansion?

theorem Calls.cases {c d : NormalizeCall} (h : c.Calls d) :
    d.formula ∈ c.formula.children ∨
      ∃ k a b, c.formula = derived k a b ∧ d.formula = c.formula.expand := by
  obtain ⟨positive, f⟩ := c
  simp only [calls_iff] at h
  cases f with
  | literal | var => simp at h
  | not a =>
      obtain rfl : d = _ := by simpa using h
      exact .inl List.mem_cons_self
  | junction k args =>
      obtain ⟨a, ha, rfl⟩ : ∃ a ∈ args, ⟨positive, a⟩ = d := by simpa using h
      exact .inl ha
  | derived k a b =>
      obtain rfl : d = _ := by simpa using h
      exact .inr ⟨k, a, b, rfl, rfl⟩
  | unary m a =>
      obtain rfl : d = _ := by simpa using h
      exact .inl List.mem_cons_self
  | binary m a b =>
      obtain rfl | rfl : d = _ ∨ d = _ := by simpa using h
      · exact .inl List.mem_cons_self
      · exact .inl (List.mem_cons_of_mem _ List.mem_cons_self)

theorem Calls.precedes {c d : NormalizeCall} (h : c.Calls d) :
    d.formula.Precedes c.formula := by
  rcases h.cases with hchild | ⟨k, a, b, hc, hd⟩
  · exact precedes_of_mem_children hchild
  · rw [hd, hc]
    exact precedes_expand_derived k a b

theorem wellFounded_calls : WellFounded fun d c : NormalizeCall => c.Calls d :=
  Subrelation.wf Calls.precedes
    (InvImage.wf (fun c : NormalizeCall => c.formula.pending)
      (WellFounded.prod_lex Nat.lt_wfRel.wf Nat.lt_wfRel.wf))

theorem Calls.hasDerived {c d : NormalizeCall} (h : c.Calls d)
    (hc : c.formula.hasDerived = false) : d.formula.hasDerived = false := by
  rcases h.cases with hchild | ⟨k, a, b, -, hd⟩
  · by_contra hd
    rw [hasDerived_of_mem_children hchild ((Bool.not_eq_false _).mp hd)] at hc
    cases hc
  · rw [hd, hasDerived_expand]

theorem expansions_cases (c : NormalizeCall) :
    c.expansions = [] ∨
      c.expansions = [c.formula] ∧ c.formula.hasDerived = true ∧
        ∀ d, c.Calls d → d.formula.hasDerived = false := by
  obtain ⟨positive, f⟩ := c
  cases f with
  | derived k a b =>
      refine .inr ⟨rfl, rfl, fun d hd => ?_⟩
      obtain rfl : d = _ := by simpa [calls_iff] using hd
      exact hasDerived_expand _
  | junction k args => exact .inl (by simp [expansions, List.filterMap_map])
  | literal | var | not | unary | binary => exact .inl (by simp [expansions])

theorem expansions_of_hasDerived_eq_false {c : NormalizeCall}
    (h : c.formula.hasDerived = false) : c.expansions = [] := by
  rcases c.expansions_cases with hnone | ⟨-, hder, -⟩
  · exact hnone
  · rw [h] at hder
    cases hder

private theorem flatMap_expansions_eq_nil {c : NormalizeCall}
    {chain : List NormalizeCall} (hchain : (c :: chain).IsChain Calls)
    (h : c.formula.hasDerived = false) :
    (c :: chain).flatMap expansions = [] := by
  induction chain generalizing c with
  | nil => simpa using expansions_of_hasDerived_eq_false h
  | cons d rest ih =>
      obtain ⟨hcall, hrest⟩ := List.isChain_cons_cons.mp hchain
      rw [List.flatMap_cons, expansions_of_hasDerived_eq_false h,
        ih hrest (hcall.hasDerived h)]
      rfl

private theorem length_flatMap_expansions_le {chain : List NormalizeCall}
    (hchain : chain.IsChain Calls) : (chain.flatMap expansions).length ≤ 1 := by
  induction chain with
  | nil => exact Nat.zero_le 1
  | cons c rest ih =>
      have hrest := ih hchain.tail
      rw [List.flatMap_cons]
      rcases c.expansions_cases with hnone | ⟨hone, -, hafter⟩
      · rwa [hnone]
      · rw [hone]
        cases rest with
        | nil => exact le_rfl
        | cons d rest =>
            obtain ⟨hcall, hchain⟩ := List.isChain_cons_cons.mp hchain
            rw [flatMap_expansions_eq_nil hchain (hafter d hcall)]
            exact le_rfl

/-! ## The recursion -/

private theorem mapM_eq_pure {μ : Type → Type} [Monad μ] [LawfulMonad μ]
    {g : Formula → μ Formula} {v : Formula → Formula} {args : List Formula}
    (h : ∀ a ∈ args, g a = pure (v a)) : args.mapM g = pure (args.map v) := by
  induction args with
  | nil => simp
  | cons a rest ih =>
      obtain ⟨ha, hrest⟩ := List.forall_mem_cons.mp h
      simp [ha, ih hrest]

theorem body_eq_pure {μ : Type → Type} [Monad μ] [LawfulMonad μ]
    {recur : NormalizeCall → μ Formula} {c : NormalizeCall}
    (h : ∀ d, c.Calls d → recur d = pure d.value) :
    c.body (fun f => pure f.expand) recur = pure c.value := by
  obtain ⟨positive, f⟩ := c
  simp only [calls_iff] at h
  cases f with
  | literal | var => simp [body, value]
  | not a =>
      rw [value, normalize_not]
      exact h _ (by simp)
  | junction k args =>
      have hargs :
          ∀ a ∈ args, recur ⟨positive, a⟩ = pure (normalize positive a) :=
        fun a ha => h _ (by simpa using ha)
      simp [body, value, mapM_eq_pure hargs]
  | derived k a b =>
      have hexpand : recur ⟨positive, (derived k a b).expand⟩ = _ :=
        h _ (by simp)
      simp only [body, pure_bind]
      rw [hexpand, value, value, normalize_derived]
  | unary m a =>
      have ha : recur ⟨operandPolarity positive m, a⟩ = _ := h _ (by simp)
      cases positive with
      | true =>
          have ha : recur ⟨true, a⟩ = pure (normalize true a) := ha
          simp [body, modalBody, Modal.mapOperandsM, value, ha]
      | false =>
          cases hdual : m.dual? with
          | none =>
              rw [operandPolarity, hdual] at ha
              have ha : recur ⟨true, a⟩ = pure (normalize true a) := ha
              simp [body, modalBody, Modal.dualM?, Modal.mapOperandsM, value,
                hdual, ha, normalize_unary_of_no_dual hdual, neg]
          | some m' =>
              rw [operandPolarity, hdual] at ha
              have ha : recur ⟨false, a⟩ = pure (normalize false a) := ha
              simp [body, modalBody, Modal.dualM?, value, hdual, ha,
                normalize_unary_of_dual hdual]
  | binary m a b =>
      have ha : recur ⟨true, a⟩ = _ := h _ (by simp)
      have hb : recur ⟨true, b⟩ = _ := h _ (by simp)
      cases positive <;>
        simp [body, modalBody, Modal.dualM?, Modal.mapOperandsM, value, signed,
          ha, hb]

/-- The recursion with a bound on the depth of the calls. -/
def runWithin : Nat → NormalizeCall → Option Formula
  | 0, _ => none
  | fuel + 1, c => c.body (fun f => some f.expand) (runWithin fuel)

private theorem exists_runWithin_eq (c : NormalizeCall) :
    ∃ depth, ∀ fuel, depth ≤ fuel → runWithin fuel c = some c.value := by
  induction c using wellFounded_calls.induction with
  | h c ih =>
      -- One bound for the finitely many calls that `c` makes.
      obtain ⟨depth, hdepth⟩ := Filter.eventually_atTop.mp
        ((Filter.eventually_all_finite c.calls.finite_toSet).mpr fun d hd =>
          Filter.eventually_atTop.mpr (ih d hd))
      refine ⟨depth + 1, fun fuel hfuel => ?_⟩
      obtain ⟨fuel, rfl⟩ :=
        Nat.exists_eq_add_one.mpr (Nat.lt_of_lt_of_le (Nat.succ_pos _) hfuel)
      exact body_eq_pure (hdepth fuel (Nat.le_of_succ_le_succ hfuel))

private theorem exists_calls_exponential (positive : Bool) (n : Nat) :
    ∃ c d : NormalizeCall, c.Calls d ∧ c.positive = positive ∧ Built c.formula ∧
      c.formula.size = 2 * n + 3 ∧ 2 ^ (n + 1) ≤ d.formula.size := by
  refine ⟨⟨positive, xorTower (n + 1)⟩, ⟨positive, (xorTower (n + 1)).expand⟩,
    ?_, rfl,
    built_xorTower _, size_xorTower _, (two_pow_le_size_expand _).1⟩
  simp [calls_iff, xorTower]

/-- Normalization ends.  It is the recursion over `body`, which does what
`steps` lists, and every call of which goes down in `pending`, although the copy
it is made on may be exponentially larger than the formula before.  Expansion
leaves no derived connective, and a chain of calls enters it once at most. -/
theorem normalize_ends :
    (∀ c : NormalizeCall, c.value =
      Id.run (c.body (fun f => pure f.expand) fun d => pure d.value)) ∧
    (∀ c : NormalizeCall, c.events = steps c.positive c.formula) ∧
    (∀ c d : NormalizeCall, c.Calls d → Prod.Lex (· < ·) (· < ·)
      (d.formula.hasDerived.toNat, d.formula.size)
        (c.formula.hasDerived.toNat, c.formula.size)) ∧
    (WellFounded fun d c : NormalizeCall => c.Calls d) ∧
    (∀ c : NormalizeCall,
      ∃ depth, ∀ fuel, depth ≤ fuel → runWithin fuel c = some c.value) ∧
    (∀ f : Formula, ∀ g ∈ f.expand.subformulas, g.operator ∉ derivedOperators) ∧
    (∀ chain : List NormalizeCall, chain.IsChain Calls →
      (chain.flatMap expansions).length ≤ 1) ∧
    ∀ positive n, ∃ c d : NormalizeCall, c.Calls d ∧ c.positive = positive ∧
    Built c.formula ∧
      c.formula.size = 2 * n + 3 ∧ 2 ^ (n + 1) ≤ d.formula.size := by
  refine ⟨?_, events_eq_steps, fun c d h => h.precedes, wellFounded_calls,
    exists_runWithin_eq, ?_, fun chain h => length_flatMap_expansions_le h,
    exists_calls_exponential⟩
  · intro c
    rw [body_eq_pure fun d _ => rfl]
    rfl
  · intro f g hg hderived
    obtain ⟨k, a, b, rfl⟩ := exists_eq_derived hderived
    have hexpand := hasDerived_of_mem_subformulas hg rfl
    rw [hasDerived_expand] at hexpand
    cases hexpand

/-- The exclusive-or of size 3 is followed by its expansion of size 9, the only
one on the chain. -/
theorem normalize_ends_xor :
    Prod.Lex (· < ·) (· < ·) (0, 9) (1, 3) ∧
    ([⟨true, .not (derived .xor (var "p") (var "q"))⟩,
      ⟨false, derived .xor (var "p") (var "q")⟩,
      ⟨false, (derived .xor (var "p") (var "q")).expand⟩].flatMap
        expansions).length ≤ 1 := by
  obtain ⟨-, -, hdown, -, -, -, honce, -⟩ := normalize_ends
  have hfirst : Calls ⟨true, .not (derived .xor (var "p") (var "q"))⟩
      ⟨false, derived .xor (var "p") (var "q")⟩ := by simp [calls_iff]
  have hsecond : Calls ⟨false, derived .xor (var "p") (var "q")⟩
      ⟨false, (derived .xor (var "p") (var "q")).expand⟩ := by simp [calls_iff]
  constructor
  · exact hdown _ _ hsecond
  · exact honce _ (.cons_cons hfirst (.cons_cons hsecond (.singleton _)))

end NormalizeCall

end LayeredLogic
