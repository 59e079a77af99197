import LayeredLogic.Grammar.Formula

/-!
# Spans of trees

A node is placed in a source when its span takes up a piece of it, the text of
each of its tokens is the piece at the span of the token, and the spans of its
parts lie inside its own in order and apart from each other.  The parts of a
node are put in a row, which grows to the right, and a row gives a node whose
span goes from one end of it to the other.
-/

namespace LayeredLogic

/-- The span takes up a piece of the source, whole characters of it. -/
def Span.Cuts (span : Span) (source piece : String) : Prop :=
  ∃ before after : String, source = before ++ piece ++ after ∧
    span.start = before.utf8ByteSize ∧
      span.stop = before.utf8ByteSize + piece.utf8ByteSize

theorem bytes_append (cs ds : List Char) :
    bytes (cs ++ ds) = bytes cs + bytes ds := by
  induction cs with
  | nil => exact (Nat.zero_add _).symm
  | cons c cs ih => rw [List.cons_append, bytes, bytes, ih, Nat.add_assoc]

theorem utf8ByteSize_ofList (cs : List Char) :
    (String.ofList cs).utf8ByteSize = bytes cs := by
  induction cs with
  | nil => rfl
  | cons c cs ih =>
      have hone : (String.ofList [c]).utf8ByteSize = c.utf8Size := by
        rw [← String.singleton_eq_ofList, String.utf8ByteSize_singleton]
      rw [← List.singleton_append, String.ofList_append,
        String.utf8ByteSize_append, hone, ih]
      rfl

theorem eq_nil_of_bytes_eq_zero {cs : List Char} (h : bytes cs = 0) :
    cs = [] := by
  cases cs with
  | nil => rfl
  | cons c cs =>
      have hpos := c.utf8Size_pos
      rw [bytes] at h
      omega

/-- An offset between two characters of a source. -/
def Boundary (source : String) (n : Nat) : Prop :=
  ∃ before after : List Char, source.toList = before ++ after ∧ n = bytes before

theorem Span.cuts_ofList {source : String} {before piece after : List Char}
    (h : source.toList = before ++ piece ++ after) :
    Cuts ⟨bytes before, bytes (before ++ piece)⟩ source
      (String.ofList piece) := by
  refine ⟨String.ofList before, String.ofList after, ?_, ?_, ?_⟩
  · rw [← String.ofList_append, ← String.ofList_append, ← h,
      String.ofList_toList]
  · rw [utf8ByteSize_ofList]
  · rw [utf8ByteSize_ofList, utf8ByteSize_ofList, bytes_append]

private theorem Span.exists_cuts {source : String} {m n : Nat}
    (hm : Boundary source m) (hn : Boundary source n) (h : m ≤ n) :
    ∃ piece, Cuts ⟨m, n⟩ source piece := by
  obtain ⟨before, after, hbefore, rfl⟩ := hm
  obtain ⟨before', after', hbefore', rfl⟩ := hn
  rcases List.append_eq_append_iff.mp (hbefore.symm.trans hbefore') with
    ⟨piece, rfl, rfl⟩ | ⟨piece, rfl, rfl⟩
  · exact ⟨_, cuts_ofList (by rw [hbefore, List.append_assoc])⟩
  · have hnil : piece = [] := by
      apply eq_nil_of_bytes_eq_zero
      rw [bytes_append] at h
      omega
    have hcuts := cuts_ofList hbefore
    rw [hnil, List.append_nil] at hcuts ⊢
    exact ⟨_, hcuts⟩

theorem Span.Cuts.boundaries {span : Span} {source piece : String}
    (h : span.Cuts source piece) :
    Boundary source span.start ∧ Boundary source span.stop ∧
    span.start ≤ span.stop := by
  obtain ⟨before, after, rfl, hstart, hstop⟩ := h
  have hbytes : ∀ s : String, s.utf8ByteSize = bytes s.toList := fun s => by
    rw [← utf8ByteSize_ofList, String.ofList_toList]
  refine ⟨⟨before.toList, piece.toList ++ after.toList, ?_, ?_⟩,
    ⟨before.toList ++ piece.toList, after.toList, ?_, ?_⟩, by omega⟩
  · simp
  · rw [hstart, hbytes]
  · simp
  · rw [hstop, hbytes, hbytes, bytes_append]

/-! ## Placed trees -/

def Part.span? : Part → Option Span
  | tree t => some t.span
  | token t => some t.span
  | absent => none

namespace Tree

mutual

def subtrees : Tree → List Tree
  | node rule parts span => node rule parts span :: subtreesOfParts parts

def subtreesOfParts : List Part → List Tree
  | [] => []
  | .tree t :: rest => t.subtrees ++ subtreesOfParts rest
  | .token _ :: rest | .absent :: rest => subtreesOfParts rest

end

/-- A node whose span and parts are where the source has them. -/
structure Placed (source : String) (t : Tree) : Prop where
  piece : ∃ piece, t.span.Cuts source piece
  tokens :
    ∀ token, Part.token token ∈ t.parts → token.span.Cuts source token.text
  inside : ∀ s ∈ t.parts.filterMap Part.span?, t.span.start ≤ s.start ∧
    s.stop ≤ t.span.stop
  ordered : (t.parts.filterMap Part.span?).Pairwise fun s s' =>
    s.stop ≤ s'.start

/-- A tree with all its nodes placed in the source. -/
def Faithful (source : String) (t : Tree) : Prop :=
  ∀ u ∈ t.subtrees, u.Placed source

theorem mem_subtreesOfParts {u : Tree} {parts : List Part} :
    u ∈ subtreesOfParts parts ↔ ∃ t, .tree t ∈ parts ∧ u ∈ t.subtrees := by
  induction parts with
  | nil => simp [subtreesOfParts]
  | cons part parts ih =>
      cases part <;> simp [subtreesOfParts, ih, or_and_right, exists_or]

theorem faithful_node_iff {source : String} {rule : String} {parts : List Part}
    {span : Span} :
    (node rule parts span).Faithful source ↔
      (node rule parts span).Placed source ∧
      ∀ t, .tree t ∈ parts → t.Faithful source := by
  simp only [Faithful, subtrees, List.forall_mem_cons, mem_subtreesOfParts]
  refine and_congr_right fun _ => ⟨fun h t ht u hu => h u ⟨t, ht, hu⟩, ?_⟩
  rintro h u ⟨t, ht, hu⟩
  exact h t ht u hu

private theorem Faithful.placed {source : String} {t : Tree}
    (h : t.Faithful source) : t.Placed source := by
  obtain ⟨rule, parts, span⟩ := t
  exact (faithful_node_iff.mp h).1

end Tree

namespace Part

def Faithful (source : String) : Part → Prop
  | tree t => t.Faithful source
  | token t => t.span.Cuts source t.text
  | absent => True

theorem Faithful.cuts {source : String} {part : Part} (h : part.Faithful source)
    {s : Span} (hs : s ∈ part.span?) : ∃ piece, s.Cuts source piece := by
  cases part with
  | tree t =>
      obtain rfl := Option.some.inj hs
      exact Tree.Faithful.placed h |>.piece
  | token t =>
      obtain rfl := Option.some.inj hs
      exact ⟨_, h⟩
  | absent => cases hs

structure Between (source : String) (m : Nat) (part : Part) (n : Nat) :
    Prop where
  le : m ≤ n
  faithful : part.Faithful source
  inside : ∀ s ∈ part.span?, m ≤ s.start ∧ s.stop ≤ n

inductive InOrder (source : String) : Nat → List Part → Nat → Prop
  | nil {m n : Nat} (h : m ≤ n) : InOrder source m [] n
  | cons {m k n : Nat} {part : Part} {parts : List Part}
      (h : part.Between source m k)
      (hs : InOrder source k parts n) : InOrder source m (part :: parts) n

variable {source : String} {m k n : Nat} {part : Part}
  {parts others : List Part}

theorem InOrder.le (h : InOrder source m parts n) : m ≤ n := by
  induction h with
  | nil h => exact h
  | cons h _ ih => exact Nat.le_trans h.le ih

theorem Between.weaken {m' n' : Nat} (h : part.Between source m n) (hm : m' ≤ m)
    (hn : n ≤ n') :
    part.Between source m' n' where
  le := Nat.le_trans hm (Nat.le_trans h.le hn)
  faithful := h.faithful
  inside s hs :=
    ⟨Nat.le_trans hm (h.inside s hs).1, Nat.le_trans (h.inside s hs).2 hn⟩

theorem InOrder.append (h : InOrder source m parts k)
    (hs : InOrder source k others n) :
    InOrder source m (parts ++ others) n := by
  induction h with
  | nil h =>
      cases hs with
      | nil h' => exact .nil (Nat.le_trans h h')
      | cons h' hs => exact .cons (h'.weaken h (Nat.le_refl _)) hs
  | cons h _ ih => exact .cons h (ih hs)

theorem InOrder.weaken (h : InOrder source m parts k) (hk : k ≤ n) :
    InOrder source m parts n := by
  rw [← List.append_nil parts]
  exact h.append (.nil hk)

theorem inOrder_append_iff :
    InOrder source m (parts ++ others) n ↔
      ∃ k, InOrder source m parts k ∧ InOrder source k others n := by
  constructor
  · intro h
    induction parts generalizing m with
    | nil => exact ⟨m, .nil (Nat.le_refl m), h⟩
    | cons part parts ih =>
        cases h with
        | cons h hs =>
            obtain ⟨k, hparts, hothers⟩ := ih hs
            exact ⟨k, .cons h hparts, hothers⟩
  · rintro ⟨k, hparts, hothers⟩
    exact hparts.append hothers

theorem inOrder_singleton_iff :
    InOrder source m [part] n ↔ part.Between source m n := by
  constructor
  · rintro ⟨⟩
    rename_i k h hs
    cases hs with
    | nil hk => exact h.weaken (Nat.le_refl _) hk
  · exact fun h => .cons h (.nil (Nat.le_refl n))

theorem between_absent (n : Nat) : absent.Between source n n :=
  ⟨Nat.le_refl n, trivial, by simp [span?]⟩

theorem InOrder.faithful (h : InOrder source m parts n) :
    ∀ part ∈ parts, part.Faithful source := by
  induction h with
  | nil => simp
  | cons h _ ih => exact List.forall_mem_cons.mpr ⟨h.faithful, ih⟩

theorem InOrder.inside (h : InOrder source m parts n) :
    ∀ s ∈ parts.filterMap span?, m ≤ s.start ∧ s.stop ≤ n := by
  induction h with
  | nil => simp
  | @cons m k n part parts h hs ih =>
      have hk := hs.le
      intro s hmem
      obtain ⟨p, hp, hspan⟩ := List.mem_filterMap.mp hmem
      rcases List.mem_cons.mp hp with rfl | hp
      · obtain ⟨hstart, hstop⟩ := h.inside s hspan
        omega
      · obtain ⟨hstart, hstop⟩ := ih s (List.mem_filterMap.mpr ⟨p, hp, hspan⟩)
        have hm := h.le
        omega

theorem InOrder.ordered (h : InOrder source m parts n) :
    (parts.filterMap span?).Pairwise fun s s' => s.stop ≤ s'.start := by
  induction h with
  | nil => exact .nil
  | @cons m k n part parts h hs ih =>
      cases hspan : part.span? with
      | none => rwa [List.filterMap_cons_none hspan]
      | some s =>
          rw [List.filterMap_cons_some hspan]
          refine .cons (fun s' hs' => ?_) ih
          exact Nat.le_trans (h.inside s hspan).2 (hs.inside s' hs').1

theorem InOrder.faithful_node (h : InOrder source m parts n)
    (hm : Boundary source m) (hn : Boundary source n) (rule : String) :
    (Tree.node rule parts ⟨m, n⟩).Faithful source := by
  refine Tree.faithful_node_iff.mpr
    ⟨⟨Span.exists_cuts hm hn h.le, ?_, h.inside, h.ordered⟩, ?_⟩
  · exact fun token htoken => h.faithful _ htoken
  · exact fun t ht => h.faithful _ ht

private theorem Between.start_le {s : Span} (h : part.Between source m n)
    (hs : s ∈ part.span?) : part.Between source s.start n := by
  obtain ⟨piece, hpiece⟩ := h.faithful.cuts hs
  have horder := hpiece.boundaries.2.2
  refine ⟨Nat.le_trans horder (h.inside s hs).2, h.faithful, fun s' hs' => ?_⟩
  obtain rfl := Option.some.inj (hs.symm.trans hs')
  exact ⟨Nat.le_refl _, (h.inside s hs).2⟩

private theorem Between.le_stop {s : Span} (h : part.Between source m n)
    (hs : s ∈ part.span?) : part.Between source m s.stop := by
  obtain ⟨piece, hpiece⟩ := h.faithful.cuts hs
  have horder := hpiece.boundaries.2.2
  refine ⟨Nat.le_trans (h.inside s hs).1 horder, h.faithful, fun s' hs' => ?_⟩
  obtain rfl := Option.some.inj (hs.symm.trans hs')
  exact ⟨(h.inside s hs).1, Nat.le_refl _⟩

end Part

/-! ## Nodes from their first operand to their last -/

namespace Tree

open LayeredLogic.Part

variable {source : String} {m n : Nat} {first last : Tree} {middle : List Part}

theorem between_of_inOrder
    (h : InOrder source m (.tree first :: (middle ++ [.tree last])) n)
    (rule : String) :
    (Part.tree (node rule (.tree first :: (middle ++ [.tree last]))
      ⟨first.span.start, last.span.stop⟩)).Between source m n := by
  cases h with
  | @cons _ k _ _ _ hfirst hs =>
      obtain ⟨l, hmiddle, hlast⟩ := inOrder_append_iff.mp hs
      have hlast := inOrder_singleton_iff.mp hlast
      obtain ⟨piece, hpiece⟩ := hfirst.faithful.cuts rfl
      obtain ⟨piece', hpiece'⟩ := hlast.faithful.cuts rfl
      have hrow :
          InOrder source first.span.start
            (.tree first :: (middle ++ [.tree last]))
          last.span.stop :=
        .cons (hfirst.start_le rfl)
          (hmiddle.append (inOrder_singleton_iff.mpr (hlast.le_stop rfl)))
      have hstart := (hfirst.inside _ rfl).1
      have hstop := (hlast.inside _ rfl).2
      refine ⟨Nat.le_trans hstart (Nat.le_trans hrow.le hstop), ?_, ?_⟩
      · exact hrow.faithful_node hpiece.boundaries.1 hpiece'.boundaries.2.1 rule
      · rintro _ ⟨⟩
        exact ⟨hstart, hstop⟩

theorem between_pair (h : InOrder source m [.tree first, .tree last] n)
    (rule : Rule) : (Part.tree (pair rule first last)).Between source m n := by
  have hrow : InOrder source m (.tree first :: ([] ++ [.tree last])) n := h
  exact between_of_inOrder hrow rule.name

private theorem between_modal {bounds : Option Tree}
    (h : InOrder source m [.tree first, .ofTree? bounds, .tree last] n)
    (rule : Rule) :
    (Part.tree (modal rule first bounds last)).Between source m n := by
  have hrow :
      InOrder source m (.tree first :: ([.ofTree? bounds] ++ [.tree last])) n :=
        h
  exact between_of_inOrder hrow rule.name

theorem between_chain {others : List Tree}
    (h : InOrder source m (.tree first :: others.map .tree) n) (rule : Rule) :
    (Part.tree (chain rule first others)).Between source m n := by
  unfold chain
  cases hlast : others.getLast? with
  | none =>
      obtain rfl := List.getLast?_eq_none_iff.mp hlast
      exact inOrder_singleton_iff.mp h
  | some last =>
      obtain ⟨init, rfl⟩ := List.getLast?_eq_some_iff.mp hlast
      rw [List.map_append] at h ⊢
      exact between_of_inOrder h rule.name

theorem between_groupLeft {others : List Tree}
    (h : InOrder source m (.tree first :: others.map .tree) n) (rule : Rule) :
    (Part.tree (groupLeft rule first others)).Between source m n := by
  induction others generalizing first with
  | nil => exact inOrder_singleton_iff.mp h
  | cons second others ih =>
      have hsplit :
          InOrder source m ([.tree first, .tree second] ++ others.map .tree)
            n := h
      obtain ⟨k, hpair, hothers⟩ := inOrder_append_iff.mp hsplit
      exact ih (.cons (between_pair hpair rule) hothers)

theorem between_groupRight {others : List Tree}
    (h : InOrder source m (.tree first :: others.map .tree) n) (rule : Rule) :
    (Part.tree (groupRight rule first others)).Between source m n := by
  induction others generalizing m first with
  | nil => exact inOrder_singleton_iff.mp h
  | cons second others ih =>
      cases h with
      | cons hfirst hs =>
          exact between_pair
            (.cons hfirst (inOrder_singleton_iff.mpr (ih hs))) rule

theorem between_modals {others : List (Rule × Option Tree × Tree)}
    (h : InOrder source m
      (.tree first :: others.flatMap fun x =>
      [.ofTree? x.2.1, .tree x.2.2]) n) :
    (Part.tree
      (others.foldl (fun lhs (rule, bounds, rhs) => modal rule lhs bounds rhs)
      first)).Between source m n := by
  induction others generalizing first with
  | nil => exact inOrder_singleton_iff.mp h
  | cons item others ih =>
      have hsplit :
          InOrder source m ([.tree first, .ofTree? item.2.1, .tree item.2.2] ++
          others.flatMap fun x => [.ofTree? x.2.1, .tree x.2.2]) n := h
      obtain ⟨k, hmodal, hothers⟩ := inOrder_append_iff.mp hsplit
      exact ih (.cons (between_modal hmodal item.1) hothers)

end Tree

end LayeredLogic
