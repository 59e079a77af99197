import LayeredLogic.Modality

/-!
# Formulas

One tree type serves every layer.  A junction holds the list of its operands;
the constructors of the type are the raw nodes, and `Formula.Construct` holds
the operations that fold and flatten while they build.
-/

namespace LayeredLogic

inductive Formula where
  | literal (value : Bool)
  | var (name : String)
  | not (arg : Formula)
  | junction (kind : Junction) (args : List Formula)
  | derived (connective : Connective) (lhs rhs : Formula)
  | unary (modality : UnaryModality) (arg : Formula)
  | binary (modality : BinaryModality) (lhs rhs : Formula)
  deriving Repr

namespace Formula

abbrev top : Formula := literal true

abbrev bottom : Formula := literal false

instance : Inhabited Formula := ⟨top⟩

def operator : Formula → Operator
  | literal _ => .literal
  | var _ => .variable
  | not _ => .not
  | junction kind _ => kind.operator
  | derived connective _ _ => connective.operator
  | unary modality _ => modality.operator
  | binary modality _ _ => modality.operator

def children : Formula → List Formula
  | literal _ | var _ => []
  | not a | unary _ a => [a]
  | junction _ args => args
  | derived _ a b | binary _ a b => [a, b]

/-! ## Size and depth -/

mutual

def size : Formula → Nat
  | literal _ | var _ => 1
  | not a | unary _ a => 1 + a.size
  | junction _ args => 1 + sizeAll args
  | derived _ a b | binary _ a b => 1 + (a.size + b.size)

def sizeAll : List Formula → Nat
  | [] => 0
  | a :: rest => a.size + sizeAll rest

end

mutual

def depth : Formula → Nat
  | literal _ | var _ => 1
  | not a | unary _ a => 1 + a.depth
  | junction _ args => 1 + depthAll args
  | derived _ a b | binary _ a b => 1 + max a.depth b.depth

def depthAll : List Formula → Nat
  | [] => 0
  | a :: rest => max a.depth (depthAll rest)

end

theorem size_eq (f : Formula) : f.size = 1 + sizeAll f.children := by
  cases f <;> simp [size, children, sizeAll]

theorem size_pos (f : Formula) : 0 < f.size := by
  rw [size_eq]
  omega

theorem size_le_sizeAll {a : Formula} {args : List Formula} (h : a ∈ args) :
    a.size ≤ sizeAll args := by
  induction args with
  | nil => simp at h
  | cons b rest ih =>
      rcases List.mem_cons.mp h with rfl | h
      · simp [sizeAll]
      · have := ih h
        simp only [sizeAll]
        omega

theorem size_lt_of_mem_children {f a : Formula} (h : a ∈ f.children) :
    a.size < f.size := by
  rw [size_eq f]
  have := size_le_sizeAll h
  omega

theorem depth_eq (f : Formula) : f.depth = 1 + depthAll f.children := by
  cases f <;> simp [depth, children, depthAll]

theorem depth_pos (f : Formula) : 0 < f.depth := by
  rw [depth_eq]
  omega

theorem depth_le_depthAll {a : Formula} {args : List Formula} (h : a ∈ args) :
    a.depth ≤ depthAll args := by
  induction args with
  | nil => cases h
  | cons b rest ih =>
      rw [depthAll]
      rcases List.mem_cons.mp h with rfl | h
      · exact Nat.le_max_left _ _
      · exact Nat.le_trans (ih h) (Nat.le_max_right _ _)

theorem depth_lt_of_mem_children {f a : Formula} (h : a ∈ f.children) :
    a.depth < f.depth := by
  have hle := depth_le_depthAll h
  rw [depth_eq f]
  omega

theorem depthAll_le {args : List Formula} {n : Nat}
    (h : ∀ a ∈ args, a.depth ≤ n) : depthAll args ≤ n := by
  induction args with
  | nil => exact Nat.zero_le n
  | cons a rest ih =>
      rw [depthAll]
      exact Nat.max_le.mpr
        ⟨h a List.mem_cons_self, ih fun b hb => h b (List.mem_cons_of_mem a hb)⟩

@[elab_as_elim]
theorem induct {motive : Formula → Prop}
    (literal : ∀ value, motive (literal value))
    (var : ∀ name, motive (var name)) (not : ∀ a, motive a → motive (not a))
    (junction :
      ∀ kind args, (∀ a ∈ args, motive a) → motive (junction kind args))
    (derived :
      ∀ connective a b, motive a → motive b → motive (derived connective a b))
    (unary : ∀ modality a, motive a → motive (unary modality a))
    (binary :
      ∀ modality a b, motive a → motive b → motive (binary modality a b))
    (f : Formula) : motive f := by
  refine Formula.rec (motive_1 := motive) (motive_2 :=
    fun args => ∀ a ∈ args, motive a)
    literal var (fun a ih => not a ih)
      (fun kind args ih => junction kind args ih)
    (fun connective a b iha ihb => derived connective a b iha ihb)
    (fun modality a ih => unary modality a ih)
    (fun modality a b iha ihb => binary modality a b iha ihb)
    (fun _ h => absurd h List.not_mem_nil) (fun a rest iha ihrest x hx => ?_) f
  rcases List.mem_cons.mp hx with rfl | hx
  · exact iha
  · exact ihrest x hx

/-! ## Equality -/

mutual

def same : Formula → Formula → Bool
  | literal a, literal b => a == b
  | var a, var b => a == b
  | not a, not b => a.same b
  | junction j as, junction k bs => j == k && sameAll as bs
  | derived c a b, derived d a' b' => c == d && (a.same a' && b.same b')
  | unary m a, unary m' a' => m == m' && a.same a'
  | binary m a b, binary m' a' b' => m == m' && (a.same a' && b.same b')
  | _, _ => false

def sameAll : List Formula → List Formula → Bool
  | [], [] => true
  | a :: as, b :: bs => a.same b && sameAll as bs
  | _, _ => false

end

theorem sameAll_self {args : List Formula} (h : ∀ a ∈ args, a.same a = true) :
    sameAll args args = true := by
  induction args with
  | nil => rfl
  | cons a rest ih =>
      simp [sameAll, h a, ih fun x hx => h x (List.mem_cons_of_mem _ hx)]

theorem same_self (f : Formula) : f.same f = true := by
  induction f using induct with
  | literal | var => simp [same]
  | not a ih => simp [same, ih]
  | junction kind args ih => simp [same, sameAll_self ih]
  | unary _ a ih => simp [same, ih]
  | derived _ a b iha ihb | binary _ a b iha ihb => simp [same, iha, ihb]

theorem eq_of_sameAll {as bs : List Formula}
    (ih : ∀ a ∈ as, ∀ b, a.same b = true → a = b) (h : sameAll as bs = true) :
    as = bs := by
  induction as generalizing bs with
  | nil => cases bs <;> simp_all [sameAll]
  | cons a as ihas =>
      cases bs with
      | nil => simp [sameAll] at h
      | cons b bs =>
          simp only [sameAll, Bool.and_eq_true] at h
          rw [ih a (by simp) b h.1,
            ihas (fun x hx => ih x (List.mem_cons_of_mem _ hx)) h.2]

theorem eq_of_same {f g : Formula} (h : f.same g = true) : f = g := by
  induction f using induct generalizing g with
  | literal | var => cases g <;> simp_all [same]
  | not a ih =>
      cases g <;> simp only [same, Bool.false_eq_true] at h
      rw [ih h]
  | junction kind args ih =>
      cases g <;> simp only [same, Bool.and_eq_true, Bool.false_eq_true] at h
      rw [eq_of_beq h.1, eq_of_sameAll (fun a ha b => ih a ha) h.2]
  | unary _ a ih =>
      cases g <;> simp only [same, Bool.and_eq_true, Bool.false_eq_true] at h
      rw [eq_of_beq h.1, ih h.2]
  | derived _ a b iha ihb | binary _ a b iha ihb =>
      cases g <;> simp only [same, Bool.and_eq_true, Bool.false_eq_true] at h
      rw [eq_of_beq h.1, iha h.2.1, ihb h.2.2]

instance : DecidableEq Formula := fun f g =>
  decidable_of_iff (f.same g = true) ⟨eq_of_same, fun h => h ▸ same_self f⟩

end Formula

end LayeredLogic
