import LayeredLogic.Formula

/-!
# Walks

A walk visits the nodes that its visitor asks for.  The visitor sees a node with
the input it was scheduled with, keeps a state of its own, and answers with
commands that put operands of the node at the front of the agenda or at its end,
or clear the agenda.

A visitor that schedules no operand twice needs at most as many visits as the
formula has nodes, which is the number of steps that `walk` takes.
-/

namespace LayeredLogic

/-- A node on the agenda: its place in the tree, its parent, and the input it
gets. -/
structure Visit (ι : Type) where
  node : Formula
  parent? : Option Formula
  path : List Nat
  input : ι

namespace Visit

variable {ι : Type}

def isRoot (v : Visit ι) : Bool := v.parent?.isNone

def child (v : Visit ι) (index : Nat) (node : Formula) (input : ι) : Visit ι :=
  ⟨node, some v.node, v.path ++ [index], input⟩

def child? (v : Visit ι) (index : Nat) (input : ι) : Option (Visit ι) :=
  v.node.children[index]?.map fun node => v.child index node input

def childVisits (v : Visit ι) (input : ι) : List (Visit ι) :=
  v.node.children.mapIdx fun index node => v.child index node input

end Visit

/-- What a visitor asks for: to visit an operand, named by its index, before or
after all that is on the agenda, to visit all operands before it, the leftmost
first, or to drop the agenda. -/
inductive Command (ι : Type) where
  | next (index : Nat) (input : ι)
  | later (index : Nat) (input : ι)
  | children (input : ι)
  | clear

def Command.apply {ι : Type} (v : Visit ι) (agenda : List (Visit ι)) :
    Command ι → List (Visit ι)
  | next index input => (v.child? index input).toList ++ agenda
  | later index input => agenda ++ (v.child? index input).toList
  | children input => v.childVisits input ++ agenda
  | clear => []

abbrev Visitor (σ ι : Type) := σ → Visit ι → σ × List (Command ι)

structure Walk (σ ι : Type) where
  state : σ
  agenda : List (Visit ι)
  visited : List (Visit ι)

namespace Walk

variable {σ ι : Type}

def start (f : Formula) (input : ι) (state : σ) : Walk σ ι :=
  ⟨state, [⟨f, none, [], input⟩], []⟩

def step (visitor : Visitor σ ι) (w : Walk σ ι) : Walk σ ι :=
  match w.agenda with
  | [] => w
  | v :: rest =>
      let (state, commands) := visitor w.state v
      ⟨state, commands.foldl (Command.apply v) rest, w.visited ++ [v]⟩

def run (visitor : Visitor σ ι) : Nat → Walk σ ι → Walk σ ι
  | 0, w => w
  | n + 1, w => run visitor n (step visitor w)

end Walk

namespace Formula

variable {σ ι : Type}

def walk (f : Formula) (input : ι) (state : σ) (visitor : Visitor σ ι) :
    Walk σ ι :=
  Walk.run visitor f.size (Walk.start f input state)

def measureLevel : Visitor Nat Nat := fun deepest v =>
  (max deepest v.input, [.children (v.input + 1)])

def height (f : Formula) : Nat := (f.walk 1 0 measureLevel).state

end Formula

end LayeredLogic
