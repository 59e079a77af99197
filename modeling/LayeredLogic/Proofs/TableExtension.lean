import LayeredLogic.Proofs.Assembly
import LayeredLogic.Proofs.FirstFailure

/-!
# Tables that extend others

A table is built in stages, each of which extends the table of the stages before
it and registers handlers of its own.  The handler in force under a name is the
latest of the nearest stage that registers one, so the trees that keep clear of
what a stage registers are assembled as without it.  Only the failure of a tree
with a rule that no stage knows tells the two tables apart, as it names the
layer of the table that was asked.
-/

namespace LayeredLogic

/-! ## Registrations -/

inductive Registration (ε : Type) where
  | rule (name : String) (handler : Handler ε)
  | token (kind : String) (handler : TokenHandler ε)

variable {ε : Type}

namespace Registration

def ruleHandler? (name : String) : Registration ε → Option (Handler ε)
  | rule own handler => if name = own then some handler else none
  | token _ _ => none

def tokenHandler? (kind : String) :
    Registration ε → Option (TokenHandler ε)
  | rule _ _ => none
  | token own handler => if kind = own then some handler else none

def latest? {α : Type} (handler? : Registration ε → Option α)
    (rs : List (Registration ε)) : Option α :=
  rs.reverse.findSome? handler?

variable {α : Type} {handler? : Registration ε → Option α}
  {rs : List (Registration ε)}

private theorem latest?_cons (r : Registration ε) :
    latest? handler? (r :: rs) = (latest? handler? rs).or (handler? r) := by
  simp [latest?, List.findSome?_append]

theorem latest?_eq_none_iff :
    latest? handler? rs = none ↔ ∀ r ∈ rs, handler? r = none := by
  simp [latest?, List.findSome?_eq_none_iff]

private theorem latest?_eq_some_iff {handler : α} :
    latest? handler? rs = some handler ↔
      ∃ earlier r later, rs = earlier ++ r :: later ∧
      handler? r = some handler ∧
        ∀ r ∈ later, handler? r = none := by
  rw [latest?, List.findSome?_eq_some_iff]
  constructor
  · rintro ⟨later, r, earlier, hrs, hr, hlater⟩
    refine ⟨earlier.reverse, r, later.reverse, ?_, hr, ?_⟩
    · rw [← List.reverse_reverse rs, hrs]
      simp
    · simpa using hlater
  · rintro ⟨earlier, r, later, rfl, hr, hlater⟩
    exact ⟨later.reverse, r, earlier.reverse, by simp,
      hr, by simpa using hlater⟩

end Registration

namespace RuleTable

def register (table : RuleTable ε) : Registration ε → RuleTable ε
  | .rule name handler => table.rule name handler
  | .token kind handler => table.token kind handler

def registerAll (table : RuleTable ε) (rs : List (Registration ε)) :
    RuleTable ε :=
  rs.foldl register table

@[simp] theorem layer_registerAll (table : RuleTable ε)
    (rs : List (Registration ε)) :
    (table.registerAll rs).layer = table.layer := by
  induction rs generalizing table with
  | nil => rfl
  | cons r rs ih =>
      have hregister : (table.register r).layer = table.layer := by
        cases r <;> rfl
      exact (ih (table.register r)).trans hregister

@[simp] theorem fallback_registerAll (table : RuleTable ε)
    (rs : List (Registration ε)) :
    (table.registerAll rs).fallback = table.fallback := by
  induction rs generalizing table with
  | nil => rfl
  | cons r rs ih =>
      have hregister : (table.register r).fallback = table.fallback := by
        cases r <;> rfl
      exact (ih (table.register r)).trans hregister

theorem lookup_cons_eq_or {α : Type} (own : String) (handler : α)
    (entries : List (String × α)) (name : String) :
    ((own, handler) :: entries).lookup name =
      (if name = own then some handler else none).or (entries.lookup name) := by
  by_cases h : name = own
  · simp [h]
  · have hne : (name == own) = false := beq_eq_false_iff_ne.mpr h
    simp [List.lookup_cons, hne, h]

/-- A kind of handler: where a registry keeps its handlers and what a
registration adds to them. -/
structure HandlerKind (ε α : Type) where
  entries : Registry ε → List (String × α)
  handler? : String → Registration ε → Option α
  entries_empty : ∀ layer, entries ⟨layer, [], []⟩ = []
  lookup_register : ∀ (table : RuleTable ε) r name,
    (entries (table.register r).own).lookup name =
      (handler? name r).or ((entries table.own).lookup name)

namespace HandlerKind

def rule : HandlerKind ε (Handler ε) where
  entries := Registry.rules
  handler? := Registration.ruleHandler?
  entries_empty _ := rfl
  lookup_register table r name := by
    cases r with
    | rule own handler =>
        exact lookup_cons_eq_or own handler table.own.rules name
    | token kind handler => rfl

def token : HandlerKind ε (TokenHandler ε) where
  entries := Registry.tokens
  handler? := Registration.tokenHandler?
  entries_empty _ := rfl
  lookup_register table r name := by
    cases r with
    | rule own handler => rfl
    | token kind handler =>
        exact lookup_cons_eq_or kind handler table.own.tokens name

variable {α : Type} (k : HandlerKind ε α)

def resolve (table : RuleTable ε) (name : String) : Option (Layer × α) :=
  table.chain.findSome? fun registry =>
    ((k.entries registry).lookup name).map fun handler =>
      (registry.layer, handler)

def answer? (layer : Layer) (rs : List (Registration ε)) (name : String) :
    Option (Layer × α) :=
  (Registration.latest? (k.handler? name) rs).map fun handler =>
    (layer, handler)

variable (layer : Layer) (table : RuleTable ε) (rs : List (Registration ε))
  (name : String)

private theorem lookup_registerAll :
    (k.entries (table.registerAll rs).own).lookup name =
      (Registration.latest? (k.handler? name) rs).or
        ((k.entries table.own).lookup name) := by
  induction rs generalizing table with
  | nil => rfl
  | cons r rs ih =>
      rw [Registration.latest?_cons, Option.or_assoc, ← k.lookup_register]
      exact ih (table.register r)

theorem resolve_registerAll :
    k.resolve (table.registerAll rs) name =
      (k.answer? table.layer rs name).or (k.resolve table name) := by
  have hlookup := k.lookup_registerAll table rs name
  have hlayer : (table.registerAll rs).own.layer = table.own.layer :=
    layer_registerAll table rs
  simp only [resolve, chain, List.findSome?_cons, hlookup, hlayer,
    fallback_registerAll, answer?]
  cases Registration.latest? (k.handler? name) rs <;> rfl

private theorem resolve_new : k.resolve (new layer) name = none := by
  simp [resolve, chain, new, k.entries_empty]

theorem resolve_extending :
    k.resolve (extending layer table) name = k.resolve table name := by
  simp [resolve, k.entries_empty]

end HandlerKind

/-! ## Stages -/

structure Stage (ε : Type) where
  layer : Layer
  registrations : List (Registration ε)

/-- The table of a chain, whose nearest stage is the first. -/
def ofStages (stage : Stage ε) : List (Stage ε) → RuleTable ε
  | [] => (new stage.layer).registerAll stage.registrations
  | farther :: rest =>
      (extending stage.layer (ofStages farther rest)).registerAll
      stage.registrations

/-- A handler is the last of its kind in the nearest stage that registers one.
-/
def InForce {α : Type} (handler? : Registration ε → Option α)
    (stages : List (Stage ε)) (layer : Layer) (handler : α) : Prop :=
  ∃ nearer stage farther earlier r later,
    stages = nearer ++ stage :: farther ∧
    (∀ s ∈ nearer, ∀ r ∈ s.registrations, handler? r = none) ∧
    stage.layer = layer ∧
    stage.registrations = earlier ++ r :: later ∧ handler? r = some handler ∧
    ∀ r ∈ later, handler? r = none

namespace HandlerKind

variable {α : Type} (k : HandlerKind ε α) {name : String}

private theorem resolve_ofStages (stage : Stage ε) (rest : List (Stage ε)) :
    k.resolve (ofStages stage rest) name =
      (stage :: rest).findSome? fun s =>
        k.answer? s.layer s.registrations name := by
  induction rest generalizing stage with
  | nil =>
      rw [ofStages, resolve_registerAll, resolve_new, Option.or_none,
        List.findSome?_singleton]
      rfl
  | cons farther rest ih =>
      have hlayer : (extending stage.layer (ofStages farther rest)).layer =
          stage.layer := rfl
      rw [ofStages, resolve_registerAll, resolve_extending, ih, hlayer]
      conv_rhs => rw [List.findSome?_cons]
      cases k.answer? stage.layer stage.registrations name <;> rfl

private theorem findSome?_answer?_iff {stages : List (Stage ε)} {layer : Layer}
    {handler : α} :
    (stages.findSome? fun s => k.answer? s.layer s.registrations name) =
      some (layer, handler) ↔
      InForce (k.handler? name) stages layer handler := by
  simp only [answer?, List.findSome?_eq_some_iff, Option.map_eq_some_iff,
    Option.map_eq_none_iff, Registration.latest?_eq_none_iff,
    Registration.latest?_eq_some_iff, Prod.mk.injEq]
  constructor
  · rintro ⟨nearer, stage, farther, hstages,
      ⟨_, ⟨earlier, r, later, hrs, hr, hlater⟩, hlayer, rfl⟩, hnearer⟩
    exact ⟨nearer, stage, farther, earlier, r, later, hstages, hnearer, hlayer,
      hrs, hr, hlater⟩
  · rintro ⟨nearer, stage, farther, earlier, r, later, hstages, hnearer, hlayer,
      hrs, hr, hlater⟩
    exact ⟨nearer, stage, farther, hstages,
      ⟨handler, ⟨earlier, r, later, hrs, hr, hlater⟩, hlayer, rfl⟩, hnearer⟩

theorem resolve_ofStages_iff {stage : Stage ε} {rest : List (Stage ε)}
    {layer : Layer} {handler : α} :
    k.resolve (ofStages stage rest) name = some (layer, handler) ↔
      InForce (k.handler? name) (stage :: rest) layer handler := by
  rw [resolve_ofStages, findSome?_answer?_iff]

end HandlerKind

example :
    let near : Stage AssemblyError :=
      ⟨.ltl, [.rule "and" .negation, .rule "and" (.junction .and)]⟩
    (ofStages near [⟨.base, [.rule "and" .atom]⟩]).resolve "and" =
      some (.ltl, .junction .and) := rfl

/-- Two tables look an item up alike. -/
def AgreeOn (table other : RuleTable ε) : Item → Prop
  | .token t => other.resolveToken t.kind = table.resolveToken t.kind
  | .node rule _ => other.resolve rule = table.resolve rule

private theorem tokenValue_of_agreeOn {table other : RuleTable ε} {t : Token}
    (h : AgreeOn table other (.token t)) :
    other.tokenValue t = table.tokenValue t := by
  have hresolve : other.resolveToken t.kind = table.resolveToken t.kind := h
  rw [tokenValue, tokenValue, hresolve]

/-! ## Unknown rules -/

/-- The values of a tree are found from the left up to a rule of this name,
which no table of the chain knows. -/
inductive MeetsUnknown [Reports ε] (table : RuleTable ε) : Tree → String → Prop
  | atNode {name : String} {parts : List Part} {span : Span} {vs : List Value}
      (values : table.values parts = .ok vs)
      (unknown : table.resolve name = none) :
      MeetsUnknown table (.node name parts span) name
  | inPart {rule name : String} {before after : List Part} {t : Tree}
      {span : Span}
      {vs : List Value} (values : table.values before = .ok vs)
      (meets : MeetsUnknown table t name) :
      MeetsUnknown table (.node rule (before ++ .tree t :: after) span) name

section

variable [Reports ε] {table other : RuleTable ε} {t : Tree} {parts : List Part}
  {name : String}

theorem values_append_of_error {before after : List Part} {part : Part}
    {vs : List Value} {e : ε} (hbefore : table.values before = .ok vs)
    (hpart : table.partValue part = .error e) :
    table.values (before ++ part :: after) = .error e := by
  induction before generalizing vs with
  | nil =>
      rw [List.nil_append, values_cons, hpart]
      rfl
  | cons first before ih =>
      obtain ⟨v, rest, hfirst, hrest, -⟩ := values_cons_iff.mp hbefore
      rw [List.cons_append, values_cons, hfirst, ih hrest]
      rfl

theorem MeetsUnknown.value_eq (h : table.MeetsUnknown t name) :
    table.value t =
      .error (Reports.ofAssembly (.unknownRule name table.layer)) := by
  induction h with
  | atNode hvalues hunknown =>
      rw [value, hvalues]
      show table.ruleValue _ _ = _
      rw [ruleValue, hunknown]
  | @inPart _ _ before after t _ _ hvalues _ ih =>
      have hpart : table.partValue (.tree t) = _ := ih
      rw [value, values_append_of_error hvalues hpart]
      rfl

theorem MeetsUnknown.assemble_eq (h : table.MeetsUnknown t name) :
    table.assemble t =
      .error (Reports.ofAssembly (.unknownRule name table.layer)) := by
  rw [assemble, h.value_eq]
  rfl

theorem values_eq_or_meetsUnknown
    (hagree : ∀ item ∈ Tree.postorderOfParts parts, AgreeOn table other item)
    (htrees :
      ∀ t, Part.tree t ∈ parts →
        (∀ item ∈ t.postorder, AgreeOn table other item) →
          (∃ name, table.MeetsUnknown t name) ∨ other.value t = table.value t) :
    (∃ before t after vs name, parts = before ++ .tree t :: after ∧
      table.values before = .ok vs ∧ table.MeetsUnknown t name) ∨
    other.values parts = table.values parts := by
  induction parts with
  | nil =>
      right
      rw [values_nil, values_nil]
  | cons part parts ih =>
      have hpart : (∃ t name, part = .tree t ∧ table.MeetsUnknown t name) ∨
          other.partValue part = table.partValue part := by
        cases part with
        | tree t =>
            have ht : ∀ item ∈ t.postorder, AgreeOn table other item :=
              fun item hitem => hagree item (List.mem_append_left _ hitem)
            rcases htrees t List.mem_cons_self ht with ⟨name, hname⟩ | hvalue
            · exact Or.inl ⟨t, name, rfl, hname⟩
            · exact Or.inr hvalue
        | token t =>
            exact Or.inr
              (tokenValue_of_agreeOn (hagree (.token t) List.mem_cons_self))
        | absent => exact Or.inr rfl
      have hparts :
          ∀ item ∈ Tree.postorderOfParts parts, AgreeOn table other item := by
        intro item hitem
        apply hagree item
        cases part with
        | tree t => exact List.mem_append_right _ hitem
        | token t => exact List.mem_cons_of_mem _ hitem
        | absent => exact hitem
      rcases hpart with ⟨t, name, rfl, hname⟩ | hpart
      · exact Or.inl ⟨[], t, parts, [], name, rfl, values_nil, hname⟩
      · rw [values_cons, values_cons, hpart]
        cases hv : table.partValue part with
        | error e => exact Or.inr rfl
        | ok v =>
            rcases ih hparts (fun t ht => htrees t (List.mem_cons_of_mem _ ht))
              with
              ⟨before, t, after, vs, name, rfl, hvs, hname⟩ | hrest
            · exact Or.inl ⟨part :: before, t, after, v :: vs, name, rfl,
                values_cons_iff.mpr ⟨v, vs, hv, hvs, rfl⟩, hname⟩
            · rw [hrest]
              exact Or.inr rfl

/-- Where the values of a tree differ, an unknown rule is met. -/
theorem value_eq_or_meetsUnknown
    (hagree : ∀ item ∈ t.postorder, AgreeOn table other item) :
    (∃ name, table.MeetsUnknown t name) ∨ other.value t = table.value t := by
  induction t using Tree.induct with
  | node rule parts span ih =>
      have hparts :
          ∀ item ∈ Tree.postorderOfParts parts, AgreeOn table other item :=
        fun item hitem => hagree item (List.mem_append_left _ hitem)
      have hrule : other.resolve rule = table.resolve rule :=
        hagree (.node rule parts) (List.mem_append_right _ List.mem_cons_self)
      rcases values_eq_or_meetsUnknown hparts
        (fun t ht hagree => ih t ht hagree) with
        ⟨before, t, after, vs, name, rfl, hvs, hname⟩ | hvalues
      · exact Or.inl ⟨name, .inPart hvs hname⟩
      · rw [value, value, hvalues]
        cases hvs : table.values parts with
        | error e => exact Or.inr rfl
        | ok vs =>
            cases hresolve : table.resolve rule with
            | none => exact Or.inl ⟨rule, .atNode hvs hresolve⟩
            | some found =>
                right
                show other.ruleValue rule vs = table.ruleValue rule vs
                rw [ruleValue, ruleValue, hrule, hresolve]

theorem values_of_agreeOn
    (hagree : ∀ item ∈ Tree.postorderOfParts parts, AgreeOn table other item)
    {vs : List Value} (hvs : table.values parts = .ok vs) :
    other.values parts = .ok vs := by
  rcases values_eq_or_meetsUnknown hagree (fun _ _ => value_eq_or_meetsUnknown)
    with
    ⟨before, t, after, _, name, rfl, hbefore, hname⟩ | hvalues
  · have hpart : table.partValue (.tree t) = _ := hname.value_eq
    rw [values_append_of_error hbefore hpart] at hvs
    cases hvs
  · rw [hvalues, hvs]

private theorem postorderOfParts_append (before after : List Part) :
    Tree.postorderOfParts (before ++ after) =
      Tree.postorderOfParts before ++ Tree.postorderOfParts after := by
  induction before with
  | nil => rfl
  | cons part before ih => cases part <;> simp [Tree.postorderOfParts, ih]

private theorem MeetsUnknown.of_agreeOn (h : table.MeetsUnknown t name)
    (hagree : ∀ item ∈ t.postorder, AgreeOn table other item) :
    other.MeetsUnknown t name := by
  induction h with
  | @atNode name parts span vs hvalues hunknown =>
      have hrule : other.resolve name = table.resolve name :=
        hagree (.node name parts) (List.mem_append_right _ List.mem_cons_self)
      refine .atNode (values_of_agreeOn ?_ hvalues) (hrule.trans hunknown)
      exact fun item hitem => hagree item (List.mem_append_left _ hitem)
  | @inPart rule name before after t span vs hvalues _ ih =>
      have hparts : ∀ item ∈ Tree.postorderOfParts before ++
          Tree.postorderOfParts (.tree t :: after),
            AgreeOn table other item := by
        rw [← postorderOfParts_append]
        exact fun item hitem => hagree item (List.mem_append_left _ hitem)
      refine .inPart (values_of_agreeOn ?_ hvalues) (ih ?_)
      · exact fun item hitem => hparts item (List.mem_append_left _ hitem)
      · intro item hitem
        exact hparts item
          (List.mem_append_right _ (List.mem_append_left _ hitem))

private theorem assemble_of_agreeOn
    (hagree : ∀ item ∈ t.postorder, AgreeOn table other item)
    (h : ∀ name, ¬ table.MeetsUnknown t name) :
    other.assemble t = table.assemble t := by
  rcases value_eq_or_meetsUnknown hagree with ⟨name, hname⟩ | hvalue
  · exact absurd hname (h name)
  · rw [assemble, assemble, hvalue]

end

end RuleTable

/-! ## Lifted tables -/

section

variable (ε : Type) [Reports ε]

def Handler.lift (handler : Handler) : Handler ε :=
  ExceptT.adapt Reports.ofAssembly handler

def TokenHandler.lift (handler : TokenHandler) : TokenHandler ε := fun text =>
  (handler text).mapError Reports.ofAssembly

/-- The handlers of a registry, for a table in which others may fail in ways of
their own. -/
def Registry.lift (registry : Registry) : Registry ε where
  layer := registry.layer
  rules := registry.rules.map fun (name, handler) =>
    (name, Handler.lift ε handler)
  tokens := registry.tokens.map fun (kind, handler) =>
    (kind, TokenHandler.lift ε handler)

def RuleTable.lift (table : RuleTable) : RuleTable ε :=
  ⟨table.own.lift ε, table.fallback.map (Registry.lift ε)⟩

end

namespace RuleTable

section

variable [Reports ε] {table : RuleTable}

private theorem lookup_map {α β : Type} (f : α → β)
    (entries : List (String × α)) (name : String) :
    (entries.map fun (own, a) => (own, f a)).lookup name =
      (entries.lookup name).map f := by
  induction entries with
  | nil => rfl
  | cons entry entries ih =>
      obtain ⟨own, a⟩ := entry
      cases h : name == own <;> simp [List.lookup_cons, h, ih]

private theorem findSome?_lookup_map {α β : Type} (f : α → β)
    (entries : Registry → List (String × α)) (chain : List Registry)
    (name : String) :
    (chain.findSome? fun registry =>
      (((entries registry).map fun (own, a) => (own, f a)).lookup name).map
        fun b => (registry.layer, b)) =
      (chain.findSome? fun registry =>
        ((entries registry).lookup name).map fun a => (registry.layer, a)).map
          fun found => (found.1, f found.2) := by
  rw [List.map_findSome?]
  congr 1
  funext registry
  rw [Function.comp_apply, lookup_map, Option.map_map, Option.map_map]
  rfl

private theorem resolve_lift (name : String) :
    (table.lift ε).resolve name = (table.resolve name).map
      fun found => (found.1, Handler.lift ε found.2) := by
  have hchain : (table.lift ε).chain = table.chain.map (Registry.lift ε) := rfl
  rw [resolve, resolve, hchain, List.findSome?_map]
  exact findSome?_lookup_map (Handler.lift ε) Registry.rules table.chain name

private theorem resolveToken_lift (kind : String) :
    (table.lift ε).resolveToken kind = (table.resolveToken kind).map
      fun found => (found.1, TokenHandler.lift ε found.2) := by
  have hchain : (table.lift ε).chain = table.chain.map (Registry.lift ε) := rfl
  rw [resolveToken, resolveToken, hchain, List.findSome?_map]
  exact findSome?_lookup_map (TokenHandler.lift ε) Registry.tokens table.chain
    kind

private theorem consume_lift (handler : Handler) (rule : String)
    (vs : List Value) : Args.consume (Handler.lift ε handler) rule vs =
      (Args.consume handler rule vs).mapError Reports.ofAssembly := by
  have hrun : Handler.lift ε handler (.ofValues rule vs) =
      ((handler (.ofValues rule vs)).1.mapError Reports.ofAssembly,
        (handler (.ofValues rule vs)).2) := rfl
  unfold Args.consume
  rw [hrun]
  rcases handler (.ofValues rule vs) with ⟨e | v, rest⟩
  · rfl
  · show (do rest.finish.mapError Reports.ofAssembly; return v) =
      Except.mapError _ (do rest.finish.mapError Reports.ofAssembly; return v)
    cases rest.finish <;> rfl

private theorem partValue_lift {part : Part}
    (h : ∀ t, part = .tree t → (table.lift ε).value t =
      (table.value t).mapError Reports.ofAssembly) :
    (table.lift ε).partValue part =
      (table.partValue part).mapError Reports.ofAssembly := by
  cases part with
  | tree t => exact h t rfl
  | absent => rfl
  | token t =>
      show (table.lift ε).tokenValue t = (table.tokenValue t).mapError _
      rw [tokenValue, tokenValue, resolveToken_lift]
      cases table.resolveToken t.kind <;> rfl

private theorem values_lift {parts : List Part}
    (h : ∀ t, Part.tree t ∈ parts → (table.lift ε).value t =
      (table.value t).mapError Reports.ofAssembly) :
    (table.lift ε).values parts =
      (table.values parts).mapError Reports.ofAssembly := by
  induction parts with
  | nil =>
      rw [values_nil, values_nil]
      rfl
  | cons part parts ih =>
      have hpart : (table.lift ε).partValue part = _ :=
        partValue_lift fun t ht => h t (ht ▸ List.mem_cons_self)
      have hparts := ih fun t ht => h t (List.mem_cons_of_mem _ ht)
      rw [values_cons, values_cons, hpart, hparts]
      cases table.partValue part with
      | error e => rfl
      | ok v => cases table.values parts <;> rfl

private theorem value_lift (t : Tree) : (table.lift ε).value t =
    (table.value t).mapError Reports.ofAssembly := by
  induction t using Tree.induct with
  | node rule parts span ih =>
      rw [value, value, values_lift ih]
      cases table.values parts with
      | error e => rfl
      | ok vs =>
          show (table.lift ε).ruleValue rule vs =
            (table.ruleValue rule vs).mapError _
          rw [ruleValue, ruleValue, resolve_lift]
          cases table.resolve rule with
          | none => rfl
          | some found => exact consume_lift found.2 rule vs

/-- A lifted table assembles what the table assembles and reports its
failures. -/
theorem assemble_lift (t : Tree) : (table.lift ε).assemble t =
    (table.assemble t).mapError Reports.ofAssembly := by
  rw [assemble, assemble, value_lift]
  cases table.value t with
  | error e => rfl
  | ok v => cases v <;> rfl

end

end RuleTable

/-! ## Extensions -/

/-- Nothing is registered under the name of the item. -/
def Item.Avoids (rs : List (Registration ε)) : Item → Prop
  | token t => ∀ r ∈ rs, r.tokenHandler? t.kind = none
  | node rule _ => ∀ r ∈ rs, r.ruleHandler? rule = none

namespace RuleTable

variable {layer : Layer} {table : RuleTable ε} {rs : List (Registration ε)}
  {t : Tree}

theorem HandlerKind.resolve_extending_of_forall {α : Type} {k : HandlerKind ε α}
    {name : String} (h : ∀ r ∈ rs, k.handler? name r = none) :
    k.resolve ((extending layer table).registerAll rs) name =
      k.resolve table name := by
  rw [k.resolve_registerAll, k.resolve_extending, answer?,
    Registration.latest?_eq_none_iff.mpr h]
  rfl

private theorem agreeOn_extending {item : Item} (h : item.Avoids rs) :
    AgreeOn table ((extending layer table).registerAll rs) item := by
  cases item with
  | token t => exact HandlerKind.resolve_extending_of_forall (k := .token) h
  | node rule parts =>
      exact HandlerKind.resolve_extending_of_forall (k := .rule) h

private theorem value_node_of_inForce [Reports ε] {stage : Stage ε}
    {rest : List (Stage ε)} {name : String} {handler : Handler ε}
    (h : InForce (Registration.ruleHandler? name) (stage :: rest) layer handler)
    (parts : List Part) (span : Span) :
    (ofStages stage rest).value (.node name parts span) =
      (ofStages stage rest).values parts >>= Args.consume handler name := by
  have hresolve : (ofStages stage rest).resolve name = some (layer, handler) :=
    (HandlerKind.resolve_ofStages_iff .rule).mpr h
  rw [value]
  congr 1
  funext vs
  rw [ruleValue, hresolve]

private theorem tokenValue_of_inForce {stage : Stage ε} {rest : List (Stage ε)}
    {t : Token} {handler : TokenHandler ε}
    (h : InForce (Registration.tokenHandler? t.kind)
      (stage :: rest) layer handler) :
    (ofStages stage rest).tokenValue t = handler t.text := by
  have hresolve : (ofStages stage rest).resolveToken t.kind =
      some (layer, handler) :=
    (HandlerKind.resolve_ofStages_iff .token).mpr h
  rw [tokenValue, hresolve]

/-- A table that extends another changes nothing for the trees whose names it
does not register: they have the same result, unless a rule that neither table
knows is met, for which each of the two reports its own layer.  In a chain of
any length, the handler of a name is the last one that is registered under it in
the nearest table that registers one. -/
theorem assemble_extending [Reports ε]
    (h : ∀ item ∈ t.postorder, item.Avoids rs) :
    (∀ name, table.MeetsUnknown t name →
      table.assemble t =
        .error (Reports.ofAssembly (.unknownRule name table.layer)) ∧
      ((extending layer table).registerAll rs).assemble t =
        .error (Reports.ofAssembly (.unknownRule name layer))) ∧
    ((∀ name, ¬ table.MeetsUnknown t name) →
      ((extending layer table).registerAll rs).assemble t = table.assemble t) ∧
    ∀ (stage : Stage ε) (rest : List (Stage ε)) (layer : Layer),
      (∀ name handler,
        (ofStages stage rest).resolve name = some (layer, handler) ↔
        InForce (Registration.ruleHandler? name)
          (stage :: rest) layer handler) ∧
      (∀ kind handler,
        (ofStages stage rest).resolveToken kind = some (layer, handler) ↔
        InForce (Registration.tokenHandler? kind)
          (stage :: rest) layer handler) ∧
      (∀ name handler,
        InForce (Registration.ruleHandler? name) (stage :: rest) layer handler →
        ∀ parts span, (ofStages stage rest).value (.node name parts span) =
          (ofStages stage rest).values parts >>= Args.consume handler name) ∧
      (∀ t : Token, ∀ handler,
        InForce (Registration.tokenHandler? t.kind)
          (stage :: rest) layer handler →
        (ofStages stage rest).tokenValue t = handler t.text) := by
  have hagree : ∀ item ∈ t.postorder,
      AgreeOn table ((extending layer table).registerAll rs) item :=
    fun item hitem => agreeOn_extending (h item hitem)
  have hlayer : ((extending layer table).registerAll rs).layer = layer :=
    layer_registerAll _ rs
  refine ⟨fun name hname => ⟨hname.assemble_eq, ?_⟩, assemble_of_agreeOn hagree,
    fun stage rest layer => ⟨?_, ?_, ?_, ?_⟩⟩
  · rw [(hname.of_agreeOn hagree).assemble_eq, hlayer]
  · exact fun name handler => HandlerKind.resolve_ofStages_iff .rule
  · exact fun kind handler => HandlerKind.resolve_ofStages_iff .token
  · exact fun name handler hforce => value_node_of_inForce hforce
  · exact fun t handler hforce => tokenValue_of_inForce hforce

/-- A table that takes the negation sign for itself still reads a name, and it
is the one that does not know a rule.  A handler of its own may fail as no
handler of the tables below does. -/
theorem assemble_extending_negation :
    let rs := [Registration.rule Rule.negation.name .atom]
    let name :=
      Tree.node Rule.variable.name [.token ⟨TokenKind.name.tag, "a", ⟨1, 2⟩⟩]
        ⟨1, 2⟩
    let reach :=
      Tree.node Rule.reach.name [.tree name, .absent, .tree name] ⟨0, 2⟩
    let failure := ReadError.malformed (.refusal "!a" 1)
    let refuse : Handler ReadError := fun args => (.error failure, args)
    let failing := (extending .stlGo (ltl.lift ReadError)).registerAll
      [.rule Rule.negation.name refuse]
    (∀ item ∈ name.postorder ++ reach.postorder, item.Avoids rs) ∧
    ((extending .stlGo ltl).registerAll rs).assemble name = .ok (.var "a") ∧
    ltl.assemble reach = .error (.unknownRule Rule.reach.name .ltl) ∧
    ((extending .stlGo ltl).registerAll rs).assemble reach =
      .error (.unknownRule Rule.reach.name .stlGo) ∧
    failing.assemble name = .ok (.var "a") ∧
    failing.assemble (.node Rule.negation.name [.tree name] ⟨0, 2⟩) =
      .error failure := by
  intro rs name reach failure refuse failing
  have hname : ltl.assemble name = .ok (.var "a") := rfl
  have hlift : (ltl.lift ReadError).assemble name = .ok (.var "a") := by
    rw [assemble_lift, hname]
    rfl
  have havoids :
      ∀ item ∈ name.postorder ++ reach.postorder, item.Avoids rs := by
    simp [name, reach, rs, Tree.postorder, Tree.postorderOfParts, Item.Avoids,
      Registration.ruleHandler?, Registration.tokenHandler?, Rule.name]
  have hfailing : ∀ item ∈ name.postorder,
      item.Avoids [Registration.rule Rule.negation.name refuse] := by
    simp [name, Tree.postorder, Tree.postorderOfParts, Item.Avoids,
      Registration.ruleHandler?, Registration.tokenHandler?, Rule.name]
  have hvalues : ltl.values reach.parts =
      .ok [.formula (.var "a"), .absent, .formula (.var "a")] := rfl
  have hmeets : ltl.MeetsUnknown reach Rule.reach.name := .atNode hvalues rfl
  have hreach : ltl.assemble reach = .error (.unknownRule _ .ltl) ∧
      ((extending .stlGo ltl).registerAll rs).assemble reach =
        .error (.unknownRule _ .stlGo) :=
    (assemble_extending fun item hitem =>
      havoids item (List.mem_append_right _ hitem)).1 _ hmeets
  refine ⟨havoids, ?_, hreach.1, hreach.2, ?_, rfl⟩
  · rw [← hname]
    refine (assemble_extending fun item hitem =>
      havoids item (List.mem_append_left _ hitem)).2.1 ?_
    intro unknown hunknown
    cases hunknown.assemble_eq.symm.trans hname
  · rw [← hlift]
    refine (assemble_extending hfailing).2.1 ?_
    intro unknown hunknown
    cases hunknown.assemble_eq.symm.trans hlift

end RuleTable

end LayeredLogic
