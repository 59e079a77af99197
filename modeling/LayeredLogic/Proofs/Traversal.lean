import LayeredLogic.Proofs.Nodes
import LayeredLogic.Proofs.Walk
import Mathlib.Algebra.GroupWithZero.Nat

/-!
# Traversals and the recursions they stand for

The loop over an agenda visits the nodes of a formula in an order that depends
only on where a visit puts the operands.  In front, the leftmost first, they
give the pre-order; in front, the rightmost first, the pre-order from right to
left; at the end, one level after the other.  Each order is defined by recursion
on the formula here, and what is pending on the agenda is generalized over:
depth-first it is a row of formulas that are listed one after the other,
breadth-first it is the rest of one level and the beginning of the next.
-/

namespace LayeredLogic

open List

/-! ## Orders of the nodes -/

namespace Formula

mutual

/-- Every node in pre-order, with its level when the root is on the given one.
-/
def leveled : Formula → Nat → List (Nat × Formula)
  | literal value, n => [(n, literal value)]
  | var name, n => [(n, var name)]
  | not a, n => (n, not a) :: a.leveled (n + 1)
  | junction k args, n => (n, junction k args) :: leveledAll args (n + 1)
  | derived c a b, n =>
      (n, derived c a b) :: (a.leveled (n + 1) ++ b.leveled (n + 1))
  | unary m a, n => (n, unary m a) :: a.leveled (n + 1)
  | binary m a b, n =>
      (n, binary m a b) :: (a.leveled (n + 1) ++ b.leveled (n + 1))

def leveledAll : List Formula → Nat → List (Nat × Formula)
  | [], _ => []
  | a :: rest, n => a.leveled n ++ leveledAll rest n

end

mutual

/-- Every node before its operands, and those from right to left. -/
def mirrored : Formula → List Formula
  | literal value => [literal value]
  | var name => [var name]
  | not a => not a :: a.mirrored
  | junction k args => junction k args :: mirroredAll args
  | derived c a b => derived c a b :: (b.mirrored ++ a.mirrored)
  | unary m a => unary m a :: a.mirrored
  | binary m a b => binary m a b :: (b.mirrored ++ a.mirrored)

def mirroredAll : List Formula → List Formula
  | [] => []
  | a :: rest => mirroredAll rest ++ a.mirrored

end

/-- The nodes that lie a number of steps below the root, from left to right. -/
def level : Nat → Formula → List Formula
  | 0, f => [f]
  | n + 1, f => f.children.flatMap (level n)

def levelOrder (f : Formula) : List Formula :=
  (List.range f.depth).flatMap fun n => f.level n

private theorem leveledAll_eq_flatMap (args : List Formula) (n : Nat) :
    leveledAll args n = args.flatMap fun a => a.leveled n := by
  induction args with
  | nil => rfl
  | cons a rest ih => simp [leveledAll, ih]

theorem leveled_eq (f : Formula) (n : Nat) :
    f.leveled n = (n, f) :: f.children.flatMap fun a => a.leveled (n + 1) := by
  cases f <;> simp [leveled, children, leveledAll_eq_flatMap]

private theorem mirroredAll_eq_flatMap (args : List Formula) :
    mirroredAll args = args.reverse.flatMap mirrored := by
  induction args with
  | nil => rfl
  | cons a rest ih => simp [mirroredAll, ih]

private theorem mirrored_eq (f : Formula) :
    f.mirrored = f :: f.children.reverse.flatMap mirrored := by
  cases f <;> simp [mirrored, children, mirroredAll_eq_flatMap]

private theorem map_snd_leveled (f : Formula) (n : Nat) :
    (f.leveled n).map Prod.snd = f.subformulas := by
  induction f using childInduct generalizing n with
  | step f ih =>
      rw [leveled_eq, subformulas_eq, List.map_cons, List.map_flatMap]
      exact congrArg (f :: ·) (List.flatMap_congr fun a ha => ih a ha (n + 1))

private theorem le_of_mem_leveled {f : Formula} {n : Nat} {x : Nat × Formula}
    (h : x ∈ f.leveled n) : n ≤ x.1 := by
  induction f using childInduct generalizing n with
  | step f ih =>
      rw [leveled_eq, List.mem_cons, List.mem_flatMap] at h
      rcases h with rfl | ⟨a, ha, hx⟩
      · exact Nat.le_refl n
      · exact Nat.le_of_succ_le (ih a ha hx)

/-- The nodes of a level are those that the pre-order finds on it, in the same
order. -/
private theorem level_eq_filter (f : Formula) (m n : Nat) :
    f.level n = ((f.leveled m).filter fun x => x.1 = m + n).map Prod.snd := by
  induction n generalizing f m with
  | zero =>
      have hbelow : (f.children.flatMap fun a => a.leveled (m + 1)).filter
          (fun x => x.1 = m + 0) = [] := by
        refine List.filter_eq_nil_iff.mpr fun x hx => ?_
        obtain ⟨a, -, hx⟩ := List.mem_flatMap.mp hx
        have hle := le_of_mem_leveled hx
        simp only [decide_eq_true_eq]
        omega
      rw [leveled_eq, List.filter_cons_of_pos (by simp), hbelow]
      rfl
  | succ n ih =>
      rw [leveled_eq, List.filter_cons_of_neg (by simp), List.filter_flatMap,
        List.map_flatMap]
      refine List.flatMap_congr fun a _ => ?_
      rw [ih a (m + 1), Nat.add_right_comm, Nat.add_assoc m n 1]

def levelRows (n : Nat) (row : List Formula) : List Formula :=
  (List.range n).flatMap fun i => row.flatMap (level i)

private theorem levelRows_succ (n : Nat) (row : List Formula) :
    levelRows (n + 1) row = row ++ levelRows n (row.flatMap children) := by
  have hfirst : row.flatMap (level 0) = row := by
    show row.flatMap (fun f => [f]) = row
    exact List.flatMap_singleton' row
  have hnext : ∀ i,
      row.flatMap (level (i + 1)) = (row.flatMap children).flatMap (level i) :=
    fun i => List.flatMap_assoc.symm
  simp only [levelRows, List.range_succ_eq_map, List.flatMap_cons,
    List.flatMap_map, hfirst, hnext]

/-- What is left to visit when the rest of one level and the beginning of the
next are known. -/
def pendingLevels (n : Nat) (row next : List Formula) : List Formula :=
  row ++ levelRows n (next ++ row.flatMap children)

private theorem pendingLevels_cons (n : Nat) (f : Formula)
    (row next : List Formula) :
    pendingLevels n (f :: row) next =
      f :: pendingLevels n row (next ++ f.children) := by
  simp [pendingLevels]

private theorem pendingLevels_nil_left (n : Nat) (next : List Formula) :
    pendingLevels (n + 1) [] next = pendingLevels n next [] := by
  simp [pendingLevels, levelRows_succ]

theorem pendingLevels_nil (n : Nat) : pendingLevels n [] [] = [] := by
  simp [pendingLevels, levelRows]

private theorem depthAll_append (as bs : List Formula) :
    depthAll (as ++ bs) = max (depthAll as) (depthAll bs) := by
  induction as with
  | nil => simp [depthAll]
  | cons a as ih => rw [List.cons_append, depthAll, depthAll, ih, Nat.max_assoc]

private theorem depthAll_flatMap_children_lt {row : List Formula}
    (h : row ≠ []) : depthAll (row.flatMap children) < depthAll row := by
  induction row with
  | nil => exact absurd rfl h
  | cons a rest ih =>
      rw [List.flatMap_cons, depthAll_append, depthAll, a.depth_eq]
      cases rest with
      | nil => simp [depthAll]
      | cons b rest =>
          have := ih (List.cons_ne_nil b rest)
          omega

private theorem exists_pendingLevels {n : Nat} {row next : List Formula}
    (hn : depthAll (next ++ row.flatMap children) ≤ n) :
    ∃ m row' next', row' ++ next' = row ++ next ∧
      pendingLevels m row' next' = pendingLevels n row next ∧
      depthAll (next' ++ row'.flatMap children) ≤ m ∧
      (row' = [] → next' = []) := by
  cases row with
  | cons f row =>
      exact ⟨n, f :: row, next, rfl, rfl, hn,
        fun h => absurd h (List.cons_ne_nil _ _)⟩
  | nil =>
      rw [List.flatMap_nil, List.append_nil] at hn
      cases next with
      | nil => exact ⟨n, [], [], rfl, rfl, hn, fun _ => rfl⟩
      | cons f next =>
          have hlt := depthAll_flatMap_children_lt (List.cons_ne_nil f next)
          obtain ⟨m, rfl⟩ : ∃ m, n = m + 1 := ⟨n - 1, by omega⟩
          refine ⟨m, f :: next, [], List.append_nil _,
            (pendingLevels_nil_left m _).symm, ?_,
            fun h => absurd h (List.cons_ne_nil _ _)⟩
          rw [List.nil_append]
          omega

end Formula

/-! ## The operands of a visited node -/

variable {σ ι β : Type}

namespace Visit

def operandVisits (v : Visit ι) (pass : Nat → ι) : List (Visit ι) :=
  v.node.children.mapIdx fun index a => v.child index a (pass index)

theorem map_node_operandVisits (v : Visit ι) (pass : Nat → ι) :
    (v.operandVisits pass).map node = v.node.children :=
  List.ext_getElem (by simp [operandVisits]) (by simp [operandVisits, child])

theorem take_operandVisits_succ (v : Visit ι) (pass : Nat → ι) (n : Nat) :
    (v.operandVisits pass).take (n + 1) =
      (v.operandVisits pass).take n ++ (v.child? n (pass n)).toList := by
  rw [List.take_add_one, operandVisits, List.getElem?_mapIdx]
  rfl

theorem take_length_operandVisits (v : Visit ι) (pass : Nat → ι) :
    (v.operandVisits pass).take v.node.children.length = v.operandVisits pass :=
  List.take_of_length_le (by simp [operandVisits])

end Visit

namespace Command

def forOperands (v : Visit ι) (command : Nat → Command ι) : List (Command ι) :=
  (List.range v.node.children.length).map command

private theorem foldl_next (v : Visit ι) (pass : Nat → ι)
    (rest : List (Visit ι)) :
    (forOperands v fun index => next index (pass index)).foldl (apply v) rest =
      (v.operandVisits pass).reverse ++ rest := by
  suffices ∀ n, ((List.range n).map fun index => next index (pass index)).foldl
      (apply v) rest =
      ((v.operandVisits pass).take n).reverse ++ rest by
    rw [forOperands, this, v.take_length_operandVisits]
  intro n
  induction n with
  | zero => rfl
  | succ n ih =>
      rw [List.range_succ, List.map_append, List.foldl_append, ih,
        v.take_operandVisits_succ]
      simp only [List.map_cons, List.map_nil, List.foldl_cons, List.foldl_nil,
        apply]
      cases v.child? n (pass n) <;> simp

private theorem foldl_later (v : Visit ι) (pass : Nat → ι)
    (rest : List (Visit ι)) :
    (forOperands v fun index => later index (pass index)).foldl (apply v) rest =
      rest ++ v.operandVisits pass := by
  suffices ∀ n, ((List.range n).map fun index => later index (pass index)).foldl
      (apply v) rest =
      rest ++ (v.operandVisits pass).take n by
    rw [forOperands, this, v.take_length_operandVisits]
  intro n
  induction n with
  | zero => simp
  | succ n ih =>
      rw [List.range_succ, List.map_append, List.foldl_append, ih,
        v.take_operandVisits_succ]
      simp [apply]

end Command

namespace Walk

/-- Goes down to the operands of a node before all else, the leftmost first,
with an input that counts the steps down. -/
def leftmostFirst (update : σ → Visit Nat → σ) : Visitor σ Nat := fun s v =>
  (update s v, [.children (v.input + 1)])

def rightmostFirst (update : σ → Visit ι → σ) (pass : σ → Visit ι → Nat → ι) :
    Visitor σ ι :=
  fun s v =>
    (update s v,
      Command.forOperands v fun index => .next index (pass s v index))

def levelByLevel (update : σ → Visit ι → σ) (pass : σ → Visit ι → Nat → ι) :
    Visitor σ ι :=
  fun s v =>
    (update s v,
      Command.forOperands v fun index => .later index (pass s v index))

/-! ## Runs -/

variable {visitor : Visitor σ ι} {w : Walk σ ι} {n : Nat}
  {below : σ → Visit ι → List (Visit ι)}

theorem agenda_eq_nil_of_size
    (h : Formula.sizeAll (w.agenda.map Visit.node) = 0) : w.agenda = [] := by
  cases hagenda : w.agenda with
  | nil => rfl
  | cons v rest =>
      have := v.node.size_pos
      rw [hagenda, List.map_cons, Formula.sizeAll] at h
      omega

/-- With the operands in front of the agenda, a run visits what is listed from
each visit on the agenda, one after the other. -/
theorem run_depthFirst {listing : Visit ι → List β} {view : Visit ι → β}
    (hstep : ∀ s v rest, (visitor s v).2.foldl (Command.apply v) rest =
      below s v ++ rest)
    (hnodes : ∀ s v, (below s v).map Visit.node ~ v.node.children)
    (hlisting : ∀ s v, listing v = view v :: (below s v).flatMap listing)
    (hn : Formula.sizeAll (w.agenda.map Visit.node) ≤ n) :
    (run visitor n w).agenda = [] ∧
      (run visitor n w).visited.map view =
        w.visited.map view ++ w.agenda.flatMap listing := by
  induction n generalizing w with
  | zero =>
      have hagenda : w.agenda = [] := agenda_eq_nil_of_size (Nat.le_zero.mp hn)
      rw [run, hagenda]
      simp
  | succ n ih =>
      cases hagenda : w.agenda with
      | nil =>
          rw [run_of_le (n := 0) hagenda (Nat.zero_le _), run, hagenda]
          simp
      | cons v rest =>
          have hnext :
              step visitor w = ⟨(visitor w.state v).1, below w.state v ++ rest,
              w.visited ++ [v]⟩ := by rw [step_of_cons hagenda, hstep]
          have hsize :
              Formula.sizeAll ((step visitor w).agenda.map Visit.node) ≤ n := by
            have hbelow := Formula.sizeAll_perm (hnodes w.state v)
            rw [hagenda, List.map_cons, Formula.sizeAll, v.node.size_eq] at hn
            rw [hnext, List.map_append, Formula.sizeAll_append, hbelow]
            omega
          obtain ⟨hdone, hvisited⟩ := ih hsize
          refine ⟨hdone, hvisited.trans ?_⟩
          rw [hnext, List.flatMap_cons, hlisting w.state v]
          simp

/-- With the operands at the end of the agenda, a run visits the rest of a level
and then the levels below what is on the next one. -/
private theorem run_breadthFirst
    (hstep : ∀ s v rest, (visitor s v).2.foldl (Command.apply v) rest =
      rest ++ below s v)
    (hnodes : ∀ s v, (below s v).map Visit.node = v.node.children) {m : Nat}
    {row next : List Formula} (hagenda : w.agenda.map Visit.node = row ++ next)
    (hn : Formula.sizeAll (row ++ next) ≤ n)
    (hm : Formula.depthAll (next ++ row.flatMap Formula.children) ≤ m) :
    (run visitor n w).agenda = [] ∧ (run visitor n w).visited.map Visit.node =
      w.visited.map Visit.node ++ Formula.pendingLevels m row next := by
  induction n generalizing w row next m with
  | zero =>
      rw [← hagenda] at hn
      have hnil : w.agenda = [] := agenda_eq_nil_of_size (Nat.le_zero.mp hn)
      rw [hnil, List.map_nil, List.nil_eq_append_iff] at hagenda
      rw [run, hnil, hagenda.1, hagenda.2, Formula.pendingLevels_nil,
        List.append_nil]
      exact ⟨rfl, rfl⟩
  | succ n ih =>
      obtain ⟨m, row', next', happend, hpending, hm, hfront⟩ :=
        Formula.exists_pendingLevels hm
      rw [← happend] at hagenda hn
      rw [← hpending]
      cases row' with
      | nil =>
          obtain rfl := hfront rfl
          have hnil : w.agenda = [] := List.map_eq_nil_iff.mp hagenda
          rw [run_of_le (n := 0) hnil (Nat.zero_le _), run, hnil,
            Formula.pendingLevels_nil, List.append_nil]
          exact ⟨rfl, rfl⟩
      | cons f row =>
          obtain ⟨v, rest, hfirst, rfl, hrest⟩ :=
            List.map_eq_cons_iff.mp hagenda
          have hnext :
              step visitor w = ⟨(visitor w.state v).1, rest ++ below w.state v,
              w.visited ++ [v]⟩ := by rw [step_of_cons hfirst, hstep]
          have hagenda' : (step visitor w).agenda.map Visit.node =
              row ++ (next' ++ v.node.children) := by
            rw [hnext, List.map_append, hrest, hnodes]
            exact List.append_assoc row next' v.node.children
          have hsize :
              Formula.sizeAll (row ++ (next' ++ v.node.children)) ≤ n := by
            rw [List.cons_append, Formula.sizeAll, v.node.size_eq] at hn
            simp only [Formula.sizeAll_append] at hn ⊢
            omega
          have hdepth : Formula.depthAll (next' ++ v.node.children ++
              row.flatMap Formula.children) ≤ m := by simpa using hm
          obtain ⟨hdone, hvisited⟩ := ih hagenda' hsize hdepth
          refine ⟨hdone, hvisited.trans ?_⟩
          rw [hnext, Formula.pendingLevels_cons]
          simp

private theorem state_run (hw : w.visited = []) (visitor : Visitor σ ι)
    (n : Nat) :
    (run visitor n w).state =
      (run visitor n w).visited.foldl (fun s v => (visitor s v).1) w.state := by
  induction n with
  | zero => rw [run, hw]; rfl
  | succ n ih =>
      rw [run_succ]
      cases hagenda : (run visitor n w).agenda with
      | nil => rw [step_of_nil hagenda, ih]
      | cons v rest =>
          rw [step_of_cons hagenda, List.foldl_append, ← ih]
          rfl

variable (f : Formula)

theorem walk_leftmostFirst (update : σ → Visit Nat → σ) (n : Nat) (state : σ) :
    (f.walk n state (leftmostFirst update)).agenda = [] ∧
      (f.walk n state (leftmostFirst update)).visited.map
        (fun v => (v.input, v.node)) =
        f.leveled n := by
  have hstep : ∀ (s : σ) (v : Visit Nat) rest,
      (leftmostFirst update s v).2.foldl (Command.apply v) rest =
        (v.operandVisits fun _ => v.input + 1) ++ rest := fun _ _ _ => rfl
  have hlisting :
      ∀ (_ : σ) (v : Visit Nat), v.node.leveled v.input = (v.input, v.node) ::
      (v.operandVisits fun _ => v.input + 1).flatMap fun u =>
        u.node.leveled u.input := by
    intro _ v
    rw [v.node.leveled_eq,
      ← v.map_node_operandVisits fun _ => v.input + 1, List.flatMap_map]
    refine congrArg (List.cons _) (List.flatMap_congr fun x hx => ?_)
    obtain ⟨index, hindex, rfl⟩ := List.mem_mapIdx.mp hx
    rfl
  have hsize :
      Formula.sizeAll ((start f n state).agenda.map Visit.node) ≤ f.size := by
    simp [start, Formula.sizeAll]
  have hrun :=
    run_depthFirst hstep (fun _ v => Perm.of_eq (v.map_node_operandVisits _))
      hlisting
    hsize
  simpa [Formula.walk, start] using hrun

private theorem walk_rightmostFirst (update : σ → Visit ι → σ)
    (pass : σ → Visit ι → Nat → ι) (input : ι) (state : σ) :
    (f.walk input state (rightmostFirst update pass)).agenda = [] ∧
      (f.walk input state (rightmostFirst update pass)).visited.map Visit.node =
        f.mirrored := by
  have hstep : ∀ s v rest,
      (rightmostFirst update pass s v).2.foldl (Command.apply v) rest =
      (v.operandVisits (pass s v)).reverse ++ rest :=
    fun s v rest => Command.foldl_next v (pass s v) rest
  have hnodes : ∀ (s : σ) (v : Visit ι),
      (v.operandVisits (pass s v)).reverse.map Visit.node ~
        v.node.children := by
    intro s v
    rw [List.map_reverse, v.map_node_operandVisits]
    exact reverse_perm _
  have hlisting : ∀ (s : σ) (v : Visit ι), v.node.mirrored = v.node ::
      (v.operandVisits (pass s v)).reverse.flatMap fun u =>
        u.node.mirrored := by
    intro s v
    rw [v.node.mirrored_eq, ← v.map_node_operandVisits (pass s v),
      ← List.map_reverse, List.flatMap_map]
  have hsize : Formula.sizeAll ((start f input state).agenda.map Visit.node) ≤
      f.size := by
    simp [start, Formula.sizeAll]
  have hrun := run_depthFirst hstep hnodes hlisting hsize
  simpa [Formula.walk, start] using hrun

private theorem walk_levelByLevel (update : σ → Visit ι → σ)
    (pass : σ → Visit ι → Nat → ι) (input : ι) (state : σ) :
    (f.walk input state (levelByLevel update pass)).agenda = [] ∧
      (f.walk input state (levelByLevel update pass)).visited.map Visit.node =
        f.levelOrder := by
  have hstep : ∀ s v rest,
      (levelByLevel update pass s v).2.foldl (Command.apply v) rest =
      rest ++ v.operandVisits (pass s v) :=
        fun s v rest => Command.foldl_later v (pass s v) rest
  have hagenda : (start f input state).agenda.map Visit.node = [] ++ [f] := rfl
  have hsize : Formula.sizeAll ([] ++ [f]) ≤ f.size := by simp [Formula.sizeAll]
  have hdepth :
      Formula.depthAll ([f] ++ ([] : List Formula).flatMap Formula.children) ≤
      f.depth := by simp [Formula.depthAll]
  have hrun :=
    run_breadthFirst hstep (fun s v => v.map_node_operandVisits (pass s v))
      hagenda
    hsize hdepth
  simpa [Formula.walk, start, Formula.pendingLevels, Formula.levelRows,
    Formula.levelOrder]
    using hrun

end Walk

namespace Formula

open Walk

/-! ## Sizes and depths -/

theorem length_preorder (f : Formula) :
    f.preorder.length =
      1 + (f.children.map fun a => a.preorder.length).sum := by
  simp only [preorder_eq_subformulas]
  rw [subformulas_eq, List.length_cons, List.length_flatMap, Nat.add_comm]

private theorem sum_size (row : List Formula) :
    (row.map size).sum = sizeAll row := by
  induction row with
  | nil => rfl
  | cons a rest ih => rw [List.map_cons, List.sum_cons, ih, sizeAll]

private theorem length_preorder_eq_size (f : Formula) :
    f.preorder.length = f.size := by
  induction f using childInduct with
  | step f ih =>
      rw [length_preorder, List.map_congr_left ih, sum_size, ← size_eq]

private theorem foldl_max_leveled {row : List Formula} {n deepest : Nat}
    (hn : n ≤ deepest)
    (h : ∀ a ∈ row,
      ∀ n deepest, n ≤ deepest →
      ((a.leveled (n + 1)).map Prod.fst).foldl max deepest =
        max deepest (n + a.depth)) :
    ((row.flatMap fun a => a.leveled (n + 1)).map Prod.fst).foldl max deepest =
      max deepest (n + depthAll row) := by
  induction row generalizing deepest with
  | nil => simp [depthAll, hn]
  | cons a rest ih =>
      obtain ⟨ha, hrest⟩ := List.forall_mem_cons.mp h
      rw [List.flatMap_cons, List.map_append, List.foldl_append,
        ha n deepest hn, ih (Nat.le_trans hn (Nat.le_max_left _ _)) hrest,
        depthAll]
      omega

private theorem foldl_max_levels (f : Formula) {n deepest : Nat}
    (hn : n ≤ deepest) :
    ((f.leveled (n + 1)).map Prod.fst).foldl max deepest =
      max deepest (n + f.depth) := by
  induction f using childInduct generalizing n deepest with
  | step f ih =>
      rw [leveled_eq, List.map_cons, List.foldl_cons,
        foldl_max_leveled (Nat.le_max_right deepest (n + 1))
          fun a ha n deepest => ih a ha,
        f.depth_eq]
      omega

theorem height_eq_depth (f : Formula) : f.height = f.depth := by
  have hvisited :=
    (walk_leftmostFirst f (fun deepest v => max deepest v.input) 1 0).2
  have hstate := state_run (w := start f 1 0) rfl measureLevel f.size
  have hinputs : (f.walk 1 0 measureLevel).visited.map Visit.input =
      (f.leveled 1).map Prod.fst := by
    rw [← hvisited, List.map_map]
    rfl
  calc f.height
      = (f.walk 1 0 measureLevel).visited.foldl
        (fun deepest v => max deepest v.input) 0 := hstate
    _ = ((f.walk 1 0 measureLevel).visited.map Visit.input).foldl max 0 := by
        rw [List.foldl_map]
    _ = f.depth := by
        rw [hinputs, f.foldl_max_levels (Nat.le_refl 0), Nat.zero_add,
          Nat.zero_max]

private theorem foldr_max_depth (row : List Formula) :
    (row.map depth).foldr max 0 = depthAll row := by
  induction row with
  | nil => rfl
  | cons a rest ih => rw [List.map_cons, List.foldr_cons, ih, depthAll]

/-- Every traversal ends with its agenda empty and has listed the nodes in the
order of a recursion on the formula: in pre-order with the level of each node,
one level after the other, or in pre-order from right to left.  Size and depth
are those of the operands and one more. -/
theorem traversals_recursive (f : Formula) :
    f.preorder = f.subformulas ∧
    (∀ {σ : Type} (update : σ → Visit Nat → σ) (state : σ),
      (f.walk 0 state (leftmostFirst update)).agenda = [] ∧
      (f.walk 0 state (leftmostFirst update)).visited.map Visit.node =
        f.preorder ∧
      (f.walk 0 state (leftmostFirst update)).visited.map
        (fun v => (v.input, v.node)) =
        f.leveled 0) ∧
    (∀ {σ ι : Type} (update : σ → Visit ι → σ) (pass : σ → Visit ι → Nat →
      ι) (input : ι)
      (state : σ),
      (f.walk input state (levelByLevel update pass)).agenda = [] ∧
      (f.walk input state (levelByLevel update pass)).visited.map Visit.node =
        (List.range f.height).flatMap fun n =>
          ((f.leveled 0).filter fun x => x.1 = n).map Prod.snd) ∧
    (∀ {σ ι : Type} (update : σ → Visit ι → σ) (pass : σ → Visit ι → Nat →
      ι) (input : ι)
      (state : σ),
      (f.walk input state (rightmostFirst update pass)).agenda = [] ∧
      (f.walk input state (rightmostFirst update pass)).visited.map Visit.node =
        f.mirrored) ∧
    f.preorder.length = f.size ∧
    f.preorder.length = 1 + (f.children.map fun a => a.preorder.length).sum ∧
    f.height = f.depth ∧
    f.height = 1 + (f.children.map height).foldr max 0 := by
  refine ⟨f.preorder_eq_subformulas, ?_, ?_, walk_rightmostFirst f,
    f.length_preorder_eq_size,
    f.length_preorder, f.height_eq_depth, ?_⟩
  · intro σ update state
    obtain ⟨hdone, hvisited⟩ := walk_leftmostFirst f update 0 state
    refine ⟨hdone, ?_, hvisited⟩
    rw [preorder_eq_subformulas, ← f.map_snd_leveled 0, ← hvisited,
      List.map_map]
    rfl
  · intro σ ι update pass input state
    obtain ⟨hdone, hvisited⟩ := walk_levelByLevel f update pass input state
    refine ⟨hdone, hvisited.trans ?_⟩
    rw [height_eq_depth]
    refine List.flatMap_congr fun n _ => ?_
    rw [f.level_eq_filter 0 n, Nat.zero_add]
  · have hheight : (height : Formula → Nat) = depth := funext height_eq_depth
    rw [hheight, f.depth_eq, foldr_max_depth]

end Formula

end LayeredLogic
