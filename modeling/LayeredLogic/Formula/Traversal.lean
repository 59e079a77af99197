import LayeredLogic.Formula

/-!
# Pre-order

`subformulas` lists the nodes of a formula by recursion, `preorder` by a loop
over an agenda of nodes that are still to be visited.
-/

namespace LayeredLogic.Formula

mutual

def subformulas : Formula → List Formula
  | literal value => [literal value]
  | var name => [var name]
  | not a => not a :: a.subformulas
  | junction k args => junction k args :: subformulasAll args
  | derived c a b => derived c a b :: (a.subformulas ++ b.subformulas)
  | unary m a => unary m a :: a.subformulas
  | binary m a b => binary m a b :: (a.subformulas ++ b.subformulas)

def subformulasAll : List Formula → List Formula
  | [] => []
  | a :: rest => a.subformulas ++ subformulasAll rest

end

@[simp] theorem sizeAll_append (as bs : List Formula) :
    sizeAll (as ++ bs) = sizeAll as + sizeAll bs := by
  induction as with
  | nil => simp [sizeAll]
  | cons a as ih =>
      rw [List.cons_append, sizeAll, sizeAll, ih]
      omega

theorem sizeAll_children_lt (f : Formula) : sizeAll f.children < f.size := by
  rw [size_eq]
  omega

/-- The nodes below an agenda: the first is visited and its operands take its
place. -/
def preorderFrom : List Formula → List Formula
  | [] => []
  | f :: rest => f :: preorderFrom (f.children ++ rest)
termination_by agenda => sizeAll agenda
decreasing_by
  have := sizeAll_children_lt f
  rw [sizeAll_append, sizeAll]
  omega

def preorder (f : Formula) : List Formula := preorderFrom [f]

def varName? : Formula → Option String
  | var name => some name
  | _ => none

def variableNames (f : Formula) : List String := f.preorder.filterMap varName?

@[simp] theorem preorderFrom_nil : preorderFrom [] = [] := by
  rw [preorderFrom]

theorem preorderFrom_cons (f : Formula) (rest : List Formula) :
    preorderFrom (f :: rest) = f :: preorderFrom (f.children ++ rest) := by
  rw [preorderFrom]

theorem subformulasAll_eq_flatMap (args : List Formula) :
    subformulasAll args = args.flatMap subformulas := by
  induction args with
  | nil => rfl
  | cons a rest ih => simp [subformulasAll, ih]

theorem subformulas_eq (f : Formula) :
    f.subformulas = f :: f.children.flatMap subformulas := by
  cases f <;> simp [subformulas, children, subformulasAll_eq_flatMap]

theorem preorderFrom_eq_flatMap (agenda : List Formula) :
    preorderFrom agenda = agenda.flatMap subformulas := by
  induction agenda using preorderFrom.induct with
  | case1 => simp
  | case2 f rest ih =>
      rw [preorderFrom_cons, ih, List.flatMap_append, List.flatMap_cons,
        subformulas_eq]
      rfl

theorem preorder_eq_subformulas (f : Formula) : f.preorder = f.subformulas := by
  rw [preorder, preorderFrom_eq_flatMap, List.flatMap_singleton]

theorem forall_mem_subformulas_iff {P : Formula → Prop} {f : Formula} :
    (∀ g ∈ f.subformulas, P g) ↔
    P f ∧ ∀ a ∈ f.children, ∀ g ∈ a.subformulas, P g := by
  rw [subformulas_eq]
  simp only [List.mem_cons, List.mem_flatMap, forall_eq_or_imp]
  constructor
  · rintro ⟨hnode, hbelow⟩
    exact ⟨hnode, fun a ha g hg => hbelow g ⟨a, ha, hg⟩⟩
  · rintro ⟨hnode, hbelow⟩
    refine ⟨hnode, ?_⟩
    rintro g ⟨a, ha, hg⟩
    exact hbelow a ha g hg

end LayeredLogic.Formula
