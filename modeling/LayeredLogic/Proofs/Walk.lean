import LayeredLogic.Formula.Traversal
import LayeredLogic.Formula.Walk
import Mathlib.Data.List.Nodup
import Mathlib.Data.List.Perm.Subperm

/-!
# Walks come to an end

A visitor may put operands of the node it sees at either end of the agenda and
clear the agenda as often as it likes.  As long as no visit schedules an operand
twice, every place of the formula is scheduled at most once in the whole walk:
it could only be scheduled at the visit of its parent, and the parent is visited
at most once.  A visit also takes more nodes off the agenda, counted with all
that is below them, than it puts there, so there are no more visits than nodes.

The invariant is on all that was ever scheduled: it has been visited, is on the
agenda, or was dropped, and nothing is dropped unless the agenda is cleared.
-/

namespace LayeredLogic

open List

/-- The node at a place, which is given by the indices of the operands on the
way to it. -/
def Formula.at? : Formula → List Nat → Option Formula
  | f, [] => some f
  | f, index :: path => f.children[index]?.bind fun a => a.at? path

private theorem Formula.at?_append_singleton (f : Formula) (path : List Nat)
    (index : Nat) :
    f.at? (path ++ [index]) = (f.at? path).bind fun a =>
      a.children[index]? := by
  induction path generalizing f with
  | nil => simp [at?]
  | cons i path ih =>
      rw [List.cons_append, at?, at?]
      cases f.children[i]? with
      | none => rfl
      | some a => exact ih a

theorem Formula.sizeAll_perm {as bs : List Formula} (h : as ~ bs) :
    sizeAll as = sizeAll bs := by
  induction h with
  | nil => rfl
  | cons a _ ih => rw [sizeAll, sizeAll, ih]
  | swap a b rest => simp only [sizeAll, Nat.add_left_comm]
  | trans _ _ ih ih' => exact ih.trans ih'

private theorem Formula.sizeAll_le_of_sublist {as bs : List Formula}
    (h : as <+ bs) : sizeAll as ≤ sizeAll bs := by
  induction h with
  | slnil => exact Nat.le_refl _
  | cons a _ ih => exact Nat.le_trans ih (Nat.le_add_left _ _)
  | cons_cons a _ ih => exact Nat.add_le_add_left ih _

private theorem Formula.sizeAll_le_of_subperm {as bs : List Formula}
    (h : as <+~ bs) : sizeAll as ≤ sizeAll bs := by
  obtain ⟨cs, hperm, hsublist⟩ := h
  rw [← sizeAll_perm hperm]
  exact sizeAll_le_of_sublist hsublist

/-! ## Visits of operands -/

variable {σ ι : Type}

namespace Visit

variable {v x : Visit ι} {index : Nat} {input : ι}

structure IsChildOf (x v : Visit ι) (index : Nat) : Prop where
  parent : x.parent? = some v.node
  path : x.path = v.path ++ [index]
  node : v.node.children[index]? = some x.node

private theorem isChildOf_of_child? (h : v.child? index input = some x) :
    x.IsChildOf v index := by
  obtain ⟨a, ha, rfl⟩ := Option.map_eq_some_iff.mp h
  exact ⟨rfl, rfl, ha⟩

private theorem isChildOf_of_mem_childVisits (h : x ∈ v.childVisits input) :
    ∃ index, x.IsChildOf v index := by
  obtain ⟨index, hindex, rfl⟩ := List.mem_mapIdx.mp h
  exact ⟨index, rfl, rfl, List.getElem?_eq_getElem hindex⟩

private theorem nodup_path_childVisits (v : Visit ι) (input : ι) :
    ((v.childVisits input).map path).Nodup := by
  have hpath : (v.childVisits input).map path =
      (List.range v.node.children.length).map fun index => v.path ++ [index] :=
    List.ext_getElem (by simp [childVisits]) (by simp [childVisits, child])
  rw [hpath]
  exact List.nodup_range.map fun i j h => by simpa using h

private theorem node_subperm_children {xs : List (Visit ι)}
    (hchild : ∀ x ∈ xs, ∃ index, x.IsChildOf v index)
    (hnodup : (xs.map path).Nodup) : xs.map node <+~ v.node.children := by
  -- Equal nodes may stand at different places, so the places are what is
  -- compared.
  have hplaces : (xs.map fun x => (x.path, x.node)) <+~
      v.node.children.mapIdx fun index a => (v.path ++ [index], a) := by
    apply subperm_of_subset
    · refine Nodup.of_map Prod.fst ?_
      rw [List.map_map]
      exact hnodup
    · intro place hplace
      obtain ⟨x, hx, rfl⟩ := List.mem_map.mp hplace
      obtain ⟨index, hpath⟩ := hchild x hx
      obtain ⟨hindex, hnode⟩ := List.getElem?_eq_some_iff.mp hpath.node
      exact List.mem_mapIdx.mpr ⟨index, hindex, by rw [hpath.path, hnode]⟩
  obtain ⟨places, hperm, hsublist⟩ := hplaces
  have hnodes :
      (v.node.children.mapIdx fun index a => (v.path ++ [index], a)).map
        Prod.snd =
      v.node.children := List.ext_getElem (by simp) (by simp)
  refine ⟨places.map Prod.snd, ?_, ?_⟩
  · have := hperm.map Prod.snd
    rwa [List.map_map] at this
  · have := hsublist.map Prod.snd
    rwa [hnodes] at this

end Visit

/-! ## What a visit schedules -/

def Command.visits (v : Visit ι) : Command ι → List (Visit ι)
  | next index input | later index input => (v.child? index input).toList
  | children input => v.childVisits input
  | clear => []

theorem perm_append_append {α : Type} {xs ys zs added first others : List α}
    (hothers : xs ++ others ~ ys ++ added) (hfirst : ys ++ first ~ zs) :
    xs ++ (others ++ first) ~ zs ++ added :=
  calc xs ++ (others ++ first)
      ~ ys ++ added ++ first := by
        rw [← List.append_assoc]
        exact hothers.append_right first
    _ ~ ys ++ first ++ added := by
        rw [List.append_assoc, List.append_assoc]
        exact perm_append_comm.append_left ys
    _ ~ zs ++ added := hfirst.append_right added

namespace Command

variable {v x : Visit ι} {c : Command ι}

private theorem isChildOf_of_mem_visits (h : x ∈ c.visits v) :
    ∃ index, x.IsChildOf v index := by
  cases c with
  | next index input | later index input =>
      exact ⟨index, Visit.isChildOf_of_child? (Option.mem_toList.mp h)⟩
  | children input => exact Visit.isChildOf_of_mem_childVisits h
  | clear => cases h

theorem isChildOf_of_mem_flatMap_visits {cs : List (Command ι)}
    (h : x ∈ cs.flatMap (visits v)) : ∃ index, x.IsChildOf v index := by
  obtain ⟨c, -, hx⟩ := List.mem_flatMap.mp h
  exact isChildOf_of_mem_visits hx

private theorem apply_perm (v : Visit ι) (agenda : List (Visit ι))
    (c : Command ι) :
    ∃ dropped, c.apply v agenda ++ dropped ~ agenda ++ c.visits v ∧
      (c ≠ clear → dropped = []) := by
  cases c with
  | next index input | children input =>
      exact ⟨[], by rw [List.append_nil]; exact perm_append_comm, fun _ => rfl⟩
  | later index input =>
      exact ⟨[], by rw [List.append_nil]; exact Perm.refl _, fun _ => rfl⟩
  | clear =>
      exact ⟨agenda, by rw [visits, List.append_nil]; exact Perm.refl _,
        absurd rfl⟩

/-- Commands only reorder the agenda and add what they schedule, unless one of
them clears it. -/
theorem foldl_apply_perm (v : Visit ι) (agenda : List (Visit ι))
    (cs : List (Command ι)) :
    ∃ dropped,
      cs.foldl (apply v) agenda ++ dropped ~ agenda ++ cs.flatMap (visits v) ∧
      (clear ∉ cs → dropped = []) := by
  induction cs generalizing agenda with
  | nil => exact ⟨[], by simp, fun _ => rfl⟩
  | cons c cs ih =>
      obtain ⟨first, hfirst, hfirstNil⟩ := apply_perm v agenda c
      obtain ⟨others, hothers, hothersNil⟩ := ih (c.apply v agenda)
      refine ⟨others ++ first, ?_, ?_⟩
      · rw [List.foldl_cons, List.flatMap_cons, ← List.append_assoc agenda]
        exact perm_append_append hothers hfirst
      · intro h
        rw [List.mem_cons, not_or] at h
        rw [hothersNil h.2, hfirstNil (Ne.symm h.1)]
        rfl

end Command

namespace Walk

variable {visitor : Visitor σ ι} {w : Walk σ ι} {v x : Visit ι}
  {rest : List (Visit ι)} {n : Nat}

def commands (visitor : Visitor σ ι) (w : Walk σ ι) : List (Command ι) :=
  match w.agenda with
  | [] => []
  | v :: _ => (visitor w.state v).2

/-- The visits that are scheduled at the next visit, also those that it drops
again. -/
def scheduled (visitor : Visitor σ ι) (w : Walk σ ι) : List (Visit ι) :=
  match w.agenda with
  | [] => []
  | v :: _ => (visitor w.state v).2.flatMap (Command.visits v)

/-- No visit of the walk schedules an operand twice. -/
def SchedulesOnce (visitor : Visitor σ ι) (w : Walk σ ι) : Prop :=
  ∀ n, ((scheduled visitor (run visitor n w)).map Visit.path).Nodup

private theorem schedulesOnce_of_forall
    (h : ∀ s v,
      (((visitor s v).2.flatMap (Command.visits v)).map Visit.path).Nodup)
    (w : Walk σ ι) : SchedulesOnce visitor w := by
  intro n
  rw [scheduled]
  split
  · exact nodup_nil
  · exact h _ _

def NeverClears (visitor : Visitor σ ι) (w : Walk σ ι) : Prop :=
  ∀ n, Command.clear ∉ commands visitor (run visitor n w)

/-- The walk without a limit on its steps: visits are made while there is one on
the agenda. -/
inductive Finishes (visitor : Visitor σ ι) : Nat → Walk σ ι → Walk σ ι → Prop
  | done {w : Walk σ ι} : w.agenda = [] → Finishes visitor 0 w w
  | visit {n : Nat} {w w' : Walk σ ι} :
      w.agenda ≠ [] → Finishes visitor n (step visitor w) w' →
        Finishes visitor (n + 1) w w'

/-! ## Steps -/

theorem step_of_nil (h : w.agenda = []) : step visitor w = w := by
  rw [step, h]

theorem step_of_cons (h : w.agenda = v :: rest) :
    step visitor w = ⟨(visitor w.state v).1,
      (visitor w.state v).2.foldl (Command.apply v) rest,
        w.visited ++ [v]⟩ := by
  rw [step, h]

theorem run_succ (visitor : Visitor σ ι) (n : Nat) (w : Walk σ ι) :
    run visitor (n + 1) w = step visitor (run visitor n w) := by
  induction n generalizing w with
  | zero => rfl
  | succ n ih => exact ih (step visitor w)

theorem exists_isChildOf_of_mem_scheduled (h : x ∈ scheduled visitor w) :
    ∃ v rest index, w.agenda = v :: rest ∧ x.IsChildOf v index := by
  rw [scheduled] at h
  split at h
  · cases h
  · rename_i v rest hagenda
    obtain ⟨index, hx⟩ := Command.isChildOf_of_mem_flatMap_visits h
    exact ⟨v, rest, index, hagenda, hx⟩

private theorem step_perm (visitor : Visitor σ ι) (w : Walk σ ι) :
    ∃ dropped, (step visitor w).visited ++ (step visitor w).agenda ++ dropped ~
      w.visited ++ w.agenda ++ scheduled visitor w ∧
      (Command.clear ∉ commands visitor w → dropped = []) := by
  cases hagenda : w.agenda with
  | nil =>
      refine ⟨[], ?_, fun _ => rfl⟩
      rw [step_of_nil hagenda, scheduled, hagenda]
  | cons v rest =>
      obtain ⟨dropped, hperm, hnil⟩ :=
        Command.foldl_apply_perm v rest (visitor w.state v).2
      refine ⟨dropped, ?_, ?_⟩
      · rw [step_of_cons hagenda, scheduled, hagenda]
        simp only [List.append_assoc, List.cons_append, List.nil_append]
        exact (hperm.cons v).append_left w.visited
      · rw [commands, hagenda]
        exact hnil

/-- The visit that is made pays for the operands that it schedules. -/
private theorem step_size_le
    (h : ((scheduled visitor w).map Visit.path).Nodup) :
    (step visitor w).visited.length +
      Formula.sizeAll ((step visitor w).agenda.map Visit.node) ≤
      w.visited.length + Formula.sizeAll (w.agenda.map Visit.node) := by
  cases hagenda : w.agenda with
  | nil => exact Nat.le_of_eq (by rw [step_of_nil hagenda, hagenda])
  | cons v rest =>
      rw [scheduled, hagenda] at h
      obtain ⟨dropped, hperm, -⟩ :=
        Command.foldl_apply_perm v rest (visitor w.state v).2
      have hsize := Formula.sizeAll_perm (hperm.map Visit.node)
      have hchildren := Formula.sizeAll_le_of_subperm
        (Visit.node_subperm_children
          (fun _ => Command.isChildOf_of_mem_flatMap_visits) h)
      -- The visited node is larger than its operands, by the one visit that is
      -- added.
      rw [List.map_append, List.map_append, Formula.sizeAll_append,
        Formula.sizeAll_append] at hsize
      rw [step_of_cons hagenda, List.length_append, List.length_singleton,
        List.map_cons, Formula.sizeAll, v.node.size_eq]
      dsimp only
      omega

/-! ## Runs -/

theorem run_of_le {m : Nat} (h : (run visitor n w).agenda = []) (hm : n ≤ m) :
    run visitor m w = run visitor n w := by
  obtain ⟨more, rfl⟩ := Nat.exists_eq_add_of_le hm
  induction more with
  | zero => rfl
  | succ more ih =>
      rw [← Nat.add_assoc, run_succ, ih (Nat.le_add_right n more),
        step_of_nil h]

private theorem exists_finishes (h : (run visitor n w).agenda = []) :
    ∃ m ≤ n, Finishes visitor m w (run visitor n w) := by
  induction n generalizing w with
  | zero => exact ⟨0, Nat.le_refl 0, .done h⟩
  | succ n ih =>
      cases hagenda : w.agenda with
      | nil =>
          rw [run_of_le (n := 0) hagenda (Nat.zero_le _)]
          exact ⟨0, Nat.zero_le _, .done hagenda⟩
      | cons v rest =>
          obtain ⟨m, hm, hfinishes⟩ := ih (w := step visitor w) h
          exact ⟨m + 1, Nat.succ_le_succ hm,
            .visit (by simp [hagenda]) hfinishes⟩

private theorem Finishes.length_visited {w' : Walk σ ι}
    (h : Finishes visitor n w w') :
    w'.visited.length = w.visited.length + n := by
  induction h with
  | done _ => rfl
  | @visit n w w' hagenda _ ih =>
      obtain ⟨v, rest, hagenda⟩ := List.exists_cons_of_ne_nil hagenda
      rw [ih, step_of_cons hagenda, List.length_append, List.length_singleton]
      omega

private theorem run_size_le (h : SchedulesOnce visitor w) (n : Nat) :
    (run visitor n w).visited.length +
      Formula.sizeAll ((run visitor n w).agenda.map Visit.node) ≤
      w.visited.length + Formula.sizeAll (w.agenda.map Visit.node) := by
  induction n with
  | zero => exact Nat.le_refl _
  | succ n ih =>
      rw [run_succ]
      exact Nat.le_trans (step_size_le (h n)) ih

theorem agenda_nil_or_length_visited (hw : w.visited = [])
    (visitor : Visitor σ ι) (n : Nat) :
    (run visitor n w).agenda = [] ∨ (run visitor n w).visited.length = n := by
  induction n with
  | zero => exact Or.inr (by rw [run, hw]; rfl)
  | succ n ih =>
      rw [run_succ]
      cases hagenda : (run visitor n w).agenda with
      | nil => exact Or.inl (by rw [step_of_nil hagenda, hagenda])
      | cons v rest =>
          rcases ih with h | h
          · rw [hagenda] at h
            cases h
          · exact Or.inr
              (by rw [step_of_cons hagenda, List.length_append, h]; rfl)

theorem getElem?_visited (hw : w.visited = []) (visitor : Visitor σ ι)
    (n i : Nat) :
    (run visitor n w).visited[i]? = if i < n then (run visitor i w).agenda.head?
      else none := by
  induction n with
  | zero => rw [run, hw]; simp
  | succ n ih =>
      rw [run_succ]
      cases hagenda : (run visitor n w).agenda with
      | nil =>
          rw [step_of_nil hagenda, ih]
          rcases Nat.lt_trichotomy i n with h | rfl | h
          · rw [if_pos h, if_pos (by omega)]
          · rw [if_neg (Nat.lt_irrefl i), if_pos (Nat.lt_succ_self i), hagenda,
              List.head?_nil]
          · rw [if_neg (by omega), if_neg (by omega)]
      | cons v rest =>
          have hlength : (run visitor n w).visited.length = n := by
            rcases agenda_nil_or_length_visited hw visitor n with h | h
            · rw [hagenda] at h
              cases h
            · exact h
          rw [step_of_cons hagenda]
          rcases Nat.lt_trichotomy i n with h | rfl | h
          · rw [List.getElem?_append_left (by omega), ih, if_pos h,
              if_pos (by omega)]
          · rw [if_pos (Nat.lt_succ_self i), hagenda, List.head?_cons,
              List.getElem?_append_right (by omega), hlength, Nat.sub_self]
            rfl
          · rw [if_neg (by omega), List.getElem?_eq_none]
            rw [List.length_append, hlength]
            exact h

def everScheduled (visitor : Visitor σ ι) (w : Walk σ ι) (n : Nat) :
    List (Visit ι) :=
  w.agenda ++ (List.range n).flatMap fun i =>
    scheduled visitor (run visitor i w)

theorem everScheduled_succ (visitor : Visitor σ ι) (w : Walk σ ι) (n : Nat) :
    everScheduled visitor w (n + 1) =
      everScheduled visitor w n ++ scheduled visitor (run visitor n w) := by
  simp [everScheduled, List.range_succ]

theorem mem_everScheduled : x ∈ everScheduled visitor w n ↔
    x ∈ w.agenda ∨ ∃ i < n, x ∈ scheduled visitor (run visitor i w) := by
  simp [everScheduled]

/-- Whatever was scheduled has been visited, is on the agenda, or was dropped.
-/
theorem run_perm (hw : w.visited = []) (visitor : Visitor σ ι) (n : Nat) :
    ∃ dropped,
      (run visitor n w).visited ++ (run visitor n w).agenda ++ dropped ~
      everScheduled visitor w n ∧ (NeverClears visitor w → dropped = []) := by
  induction n with
  | zero => exact ⟨[], by simp [run, hw, everScheduled], fun _ => rfl⟩
  | succ n ih =>
      obtain ⟨before, hbefore, hbeforeNil⟩ := ih
      obtain ⟨dropped, hdropped, hdroppedNil⟩ :=
        step_perm visitor (run visitor n w)
      refine ⟨dropped ++ before, ?_, ?_⟩
      · rw [run_succ, everScheduled_succ]
        exact perm_append_append hdropped hbefore
      · intro h
        rw [hdroppedNil (h n), hbeforeNil h]
        rfl

theorem mem_everScheduled_of_mem_visited (hw : w.visited = [])
    (h : x ∈ (run visitor n w).visited ∨ x ∈ (run visitor n w).agenda) :
    x ∈ everScheduled visitor w n := by
  obtain ⟨dropped, hperm, -⟩ := run_perm hw visitor n
  apply hperm.subset
  rcases h with h | h <;> simp [h]

theorem nodup_path_visited_append_agenda (hw : w.visited = [])
    (h : ((everScheduled visitor w n).map Visit.path).Nodup) :
    ((run visitor n w).visited.map Visit.path ++
      (run visitor n w).agenda.map Visit.path).Nodup := by
  obtain ⟨dropped, hperm, -⟩ := run_perm hw visitor n
  have hall := (hperm.map Visit.path).nodup_iff.mpr h
  rw [List.map_append, List.map_append] at hall
  exact hall.of_append_left

/-! ## Walks of a formula -/

variable {f : Formula} {input : ι} {state : σ}

theorem origin_of_mem_everScheduled {x : Visit ι} {n : Nat}
    (h : x ∈ everScheduled visitor (start f input state) n) :
    x = ⟨f, none, [], input⟩ ∨ ∃ i < n, ∃ u rest index,
      (run visitor i (start f input state)).agenda = u :: rest ∧
      x ∈ scheduled visitor (run visitor i (start f input state)) ∧
      x.IsChildOf u index := by
  rcases mem_everScheduled.mp h with h | ⟨i, hi, hx⟩
  · exact Or.inl (List.mem_singleton.mp h)
  · obtain ⟨u, rest, index, hagenda, hchild⟩ :=
      exists_isChildOf_of_mem_scheduled hx
    exact Or.inr ⟨i, hi, u, rest, index, hagenda, hx, hchild⟩

private theorem at?_of_mem_everScheduled {x : Visit ι} {n : Nat}
    (h : x ∈ everScheduled visitor (start f input state) n) :
    f.at? x.path = some x.node := by
  induction n using Nat.strongRecOn generalizing x with
  | ind n ih =>
      rcases origin_of_mem_everScheduled h
        with rfl | ⟨i, hi, u, rest, index, hagenda, -, hchild⟩
      · rfl
      · have hu : f.at? u.path = some u.node :=
          ih i hi (mem_everScheduled_of_mem_visited rfl
            (Or.inr (by simp [hagenda])))
        rw [hchild.path, Formula.at?_append_singleton, hu, Option.bind_some,
          hchild.node]

/-- What was scheduled before does not come again: its place would be below a
node that was visited before and is visited now. -/
private theorem path_ne_of_mem_scheduled {x y : Visit ι} {n : Nat}
    (hnodup :
      ((everScheduled visitor (start f input state) n).map Visit.path).Nodup)
    (hx : x ∈ everScheduled visitor (start f input state) n)
    (hy : y ∈ scheduled visitor (run visitor n (start f input state))) :
    x.path ≠ y.path := by
  intro hpath
  obtain ⟨v, rest, index, hagenda, hyv⟩ := exists_isChildOf_of_mem_scheduled hy
  rw [hyv.path] at hpath
  rcases origin_of_mem_everScheduled hx
    with rfl | ⟨i, hi, u, others, j, hu, -, hxu⟩
  · simp at hpath
  · have hparent : u.path = v.path :=
      (List.append_inj' (hxu.path.symm.trans hpath) rfl).1
    have huvisited : u ∈ (run visitor n (start f input state)).visited :=
      List.mem_of_getElem? (i :=
        i) (by rw [getElem?_visited rfl, if_pos hi, hu]; rfl)
    have hvagenda : v ∈ (run visitor n (start f input state)).agenda := by
      rw [hagenda]
      exact List.mem_cons_self
    have hdisjoint :=
      (List.nodup_append.mp (nodup_path_visited_append_agenda rfl hnodup)).2.2
    exact hdisjoint u.path (List.mem_map_of_mem huvisited) v.path
      (List.mem_map_of_mem hvagenda)
      hparent

theorem nodup_path_everScheduled
    (honce : SchedulesOnce visitor (start f input state)) (n : Nat) :
    ((everScheduled visitor (start f input state) n).map Visit.path).Nodup := by
  induction n with
  | zero => simp [everScheduled, start]
  | succ n ih =>
      rw [everScheduled_succ, List.map_append, List.nodup_append]
      refine ⟨ih, honce n, ?_⟩
      intro before hbefore now hnow
      obtain ⟨x, hx, rfl⟩ := List.mem_map.mp hbefore
      obtain ⟨y, hy, rfl⟩ := List.mem_map.mp hnow
      exact path_ne_of_mem_scheduled ih hx hy

theorem agenda_walk (honce : SchedulesOnce visitor (start f input state)) :
    (f.walk input state visitor).agenda = [] := by
  rcases agenda_nil_or_length_visited (w :=
    start f input state) rfl visitor f.size with h | h
  · exact h
  · cases hagenda : (run visitor f.size (start f input state)).agenda with
    | nil => exact hagenda
    | cons v rest =>
        have hsize :
            f.size + (v.node.size + Formula.sizeAll (rest.map Visit.node)) ≤
              f.size := by
          have := run_size_le honce f.size
          rw [h, hagenda] at this
          simpa [start, Formula.sizeAll] using this
        have := v.node.size_pos
        omega

theorem mem_everScheduled_walk
    (honce : SchedulesOnce visitor (start f input state)) {x : Visit ι}
    {n : Nat}
    (h : x ∈ scheduled visitor (run visitor n (start f input state))) :
    x ∈ everScheduled visitor (start f input state) f.size := by
  refine mem_everScheduled.mpr (Or.inr ⟨n, ?_, h⟩)
  by_contra hn
  rw [run_of_le (agenda_walk honce) (Nat.le_of_not_lt hn), scheduled] at h
  rw [show (run visitor f.size (start f input state)).agenda =
    [] from agenda_walk honce] at h
  cases h

private theorem finishes_walk
    (honce : SchedulesOnce visitor (start f input state)) :
    ∃ n ≤ f.size,
      Finishes visitor n (start f input state) (f.walk input state visitor) ∧
      (f.walk input state visitor).visited.length = n := by
  obtain ⟨n, hn, hfinishes⟩ := exists_finishes (agenda_walk honce)
  refine ⟨n, hn, hfinishes, ?_⟩
  rw [Formula.walk, hfinishes.length_visited, start, List.length_nil,
    Nat.zero_add]

theorem nodup_path_walk (honce : SchedulesOnce visitor (start f input state)) :
    ((f.walk input state visitor).visited.map Visit.path).Nodup :=
  (nodup_path_visited_append_agenda rfl
    (nodup_path_everScheduled honce f.size)).of_append_left

theorem eq_of_getElem?_walk
    (honce : SchedulesOnce visitor (start f input state)) {i j : Nat}
    {v : Visit ι} (hi : (f.walk input state visitor).visited[i]? = some v)
    (hj : (f.walk input state visitor).visited[j]? = some v) : i = j :=
  (List.getElem?_inj (List.getElem?_eq_some_iff.mp hi).1
    ((nodup_path_walk honce).of_map _)).mp
    (hi.trans hj.symm)

private theorem origin_of_visited_walk
    (honce : SchedulesOnce visitor (start f input state)) {i : Nat}
    {v : Visit ι} (h : (f.walk input state visitor).visited[i]? = some v) :
    (i = 0 ∧ v = ⟨f, none, [], input⟩) ∨ ∃ j < i, ∃ u index,
      (f.walk input state visitor).visited[j]? = some u ∧ v.IsChildOf u index ∧
      v ∈ scheduled visitor (run visitor j (start f input state)) := by
  have hvisited := h
  rw [Formula.walk, getElem?_visited rfl] at h
  split at h
  · rename_i hi
    have hagenda : v ∈ (run visitor i (start f input state)).agenda :=
      List.mem_of_head? h
    rcases origin_of_mem_everScheduled
      (mem_everScheduled_of_mem_visited rfl (Or.inr hagenda)) with
      rfl | ⟨j, hj, u, rest, index, hu, hscheduled, hchild⟩
    · have hroot : (f.walk input state visitor).visited[0]? =
          some ⟨f, none, [], input⟩ := by
        rw [Formula.walk, getElem?_visited rfl, if_pos f.size_pos, run, start,
          List.head?_cons]
      exact Or.inl ⟨eq_of_getElem?_walk honce hvisited hroot, rfl⟩
    · refine Or.inr ⟨j, hj, u, index, ?_, hchild, hscheduled⟩
      rw [Formula.walk, getElem?_visited rfl, if_pos (Nat.lt_trans hj hi), hu,
        List.head?_cons]
  · cases h

private theorem eq_of_path_eq
    (honce : SchedulesOnce visitor (start f input state)) {n : Nat}
    {x v : Visit ι}
    (hx : x ∈ scheduled visitor (run visitor n (start f input state)))
    (hv : v ∈ (f.walk input state visitor).visited) (hpath : x.path = v.path) :
    x = v :=
  List.inj_on_of_nodup_map (nodup_path_everScheduled honce f.size)
    (mem_everScheduled_walk honce hx)
    (mem_everScheduled_of_mem_visited rfl (Or.inl hv)) hpath

private theorem existsUnique_visited
    (honce : SchedulesOnce visitor (start f input state))
    (hkeeps : NeverClears visitor (start f input state)) {n : Nat} {x : Visit ι}
    (hx : x ∈ scheduled visitor (run visitor n (start f input state))) :
    ∃! i : Nat, (f.walk input state visitor).visited[i]? = some x := by
  obtain ⟨dropped, hperm, hdropped⟩ :=
    run_perm (w := start f input state) rfl visitor f.size
  have hagenda : (run visitor f.size (start f input state)).agenda = [] :=
    agenda_walk honce
  rw [hdropped hkeeps, hagenda, List.append_nil, List.append_nil] at hperm
  have hmem : x ∈ (f.walk input state visitor).visited :=
    hperm.mem_iff.mpr (mem_everScheduled_walk honce hx)
  obtain ⟨i, hi⟩ := List.mem_iff_getElem?.mp hmem
  exact ⟨i, hi, fun j hj => eq_of_getElem?_walk honce hj hi⟩

/-- Counts its visits.  It goes into the second operand of the root before the
first, and visits all operands of every other node. -/
def secondFirst : Visitor Nat Nat := fun count v =>
  (count + 1, if v.isRoot then [.later 0 (v.input + 10), .next 1 (v.input + 20)]
    else [.children (v.input + 1)])

theorem schedulesOnce_secondFirst (w : Walk Nat Nat) :
    SchedulesOnce secondFirst w := by
  refine schedulesOnce_of_forall (fun count v => ?_) w
  cases hroot : v.isRoot with
  | true =>
      simp only [secondFirst, hroot, if_true, List.flatMap_cons,
        List.flatMap_nil, Command.visits, Visit.child?, List.append_nil]
      cases v.node.children[0]? <;> cases v.node.children[1]? <;>
        simp [Visit.child]
  | false =>
      simpa [secondFirst, hroot, Command.visits]
        using v.nodup_path_childVisits _

theorem neverClears_secondFirst (w : Walk Nat Nat) :
    NeverClears secondFirst w := by
  intro n
  rw [commands]
  split
  · exact List.not_mem_nil
  · rename_i v rest hagenda
    cases hroot : v.isRoot <;> simp [secondFirst, hroot]

end Walk

namespace Formula

open Walk

/-- A walk whose visits schedule no operand twice stops after at most as many
visits as there are nodes.  It visits no place twice, every node after its
parent and with what the parent's visit gave it; if the agenda is never cleared,
all that is scheduled is visited exactly once. -/
theorem walk_safe (f : Formula) (input : ι) (state : σ) (visitor : Visitor σ ι)
    (honce : SchedulesOnce visitor (start f input state)) :
    (∃ n ≤ f.size,
      Finishes visitor n (start f input state) (f.walk input state visitor) ∧
      (f.walk input state visitor).visited.length = n) ∧
    ((f.walk input state visitor).visited.map Visit.path).Nodup ∧
    (∀ v ∈ (f.walk input state visitor).visited, f.at? v.path = some v.node) ∧
    (∀ i v, (f.walk input state visitor).visited[i]? = some v →
      (i = 0 ∧ v = ⟨f, none, [], input⟩) ∨ ∃ j < i, ∃ u index,
        (f.walk input state visitor).visited[j]? = some u ∧
        v.IsChildOf u index ∧
        v ∈ scheduled visitor (run visitor j (start f input state))) ∧
    (∀ n, ∀ x ∈ scheduled visitor (run visitor n (start f input state)),
      ∀ v ∈ (f.walk input state visitor).visited, x.path = v.path → x = v) ∧
    (NeverClears visitor (start f input state) →
      ∀ n, ∀ x ∈ scheduled visitor (run visitor n (start f input state)),
        ∃! i : Nat, (f.walk input state visitor).visited[i]? = some x) :=
  ⟨finishes_walk honce, nodup_path_walk honce,
    fun _ hv =>
      at?_of_mem_everScheduled
        (mem_everScheduled_of_mem_visited rfl (Or.inl hv)),
    fun _ _ hv => origin_of_visited_walk honce hv,
    fun _ _ hx _ hv => eq_of_path_eq honce hx hv,
    fun hkeeps _ _ hx => existsUnique_visited honce hkeeps hx⟩

theorem walk_safe_secondFirst :
    SchedulesOnce secondFirst
      (start (.derived .implies (.not (.var "a")) (.var "b")) 1 0) ∧
    (∃ n ≤ 4, Finishes secondFirst n
      (start (.derived .implies (.not (.var "a")) (.var "b")) 1 0)
      ((Formula.derived .implies (.not (.var "a")) (.var "b")).walk 1 0
        secondFirst)) ∧
    NeverClears secondFirst
      (start (.derived .implies (.not (.var "a")) (.var "b")) 1 0) ∧
    ∃! i : Nat,
      ((Formula.derived .implies (.not (.var "a")) (.var "b")).walk 1 0
      secondFirst).visited[i]? =
        some ⟨.var "a", some (.not (.var "a")), [0, 0], 12⟩ := by
  have hsafe := walk_safe (.derived .implies (.not (.var "a")) (.var "b")) 1 0
    secondFirst (schedulesOnce_secondFirst _)
  refine ⟨schedulesOnce_secondFirst _, ?_, neverClears_secondFirst _, ?_⟩
  · obtain ⟨n, hn, hfinishes, -⟩ := hsafe.1
    exact ⟨n, hn, hfinishes⟩
  · exact hsafe.2.2.2.2.2 (neverClears_secondFirst _) 2 _ (List.Mem.head _)

end Formula

end LayeredLogic
