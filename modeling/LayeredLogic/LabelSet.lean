/-!
# Sets of names

A finite set of strings as its strictly increasing list, so that equal sets are
equal values and the names come out in one order.  Strings are compared by code
point, which is the order of their UTF-8 bytes.
-/

namespace LayeredLogic

def insertName (name : String) : List String → List String
  | [] => [name]
  | other :: rest =>
      if name < other then name :: other :: rest
      else if name = other then other :: rest
      else other :: insertName name rest

theorem mem_insertName {name x : String} {names : List String} :
    x ∈ insertName name names ↔ x = name ∨ x ∈ names := by
  induction names with
  | nil => simp [insertName]
  | cons other rest ih =>
      unfold insertName
      split
      · simp
      · split
        · rename_i h
          simp [h]
        · simp only [List.mem_cons, ih]
          exact or_left_comm

theorem pairwise_insertName {name : String} {names : List String}
    (h : names.Pairwise (· < ·)) :
    (insertName name names).Pairwise (· < ·) := by
  induction names with
  | nil => simp [insertName]
  | cons other rest ih =>
      obtain ⟨hother, hrest⟩ := List.pairwise_cons.mp h
      unfold insertName
      split
      · rename_i hlt
        refine List.pairwise_cons.mpr ⟨fun x hx => ?_, h⟩
        rcases List.mem_cons.mp hx with rfl | hx
        · exact hlt
        · exact String.lt_trans hlt (hother x hx)
      · split
        · exact h
        · rename_i hlt hne
          refine List.pairwise_cons.mpr ⟨fun x hx => ?_, ih hrest⟩
          rcases mem_insertName.mp hx with rfl | hx
          · exact String.not_le.mp fun h =>
              hne (String.le_antisymm h (String.not_lt.mp hlt))
          · exact hother x hx

structure LabelSet where
  names : List String
  increasing : names.Pairwise (· < ·)
  deriving DecidableEq, Repr

namespace LabelSet

def empty : LabelSet := ⟨[], List.Pairwise.nil⟩

def insert (labels : LabelSet) (name : String) : LabelSet :=
  ⟨insertName name labels.names, pairwise_insertName labels.increasing⟩

def ofList : List String → LabelSet
  | [] => empty
  | name :: names => (ofList names).insert name

def isEmpty (labels : LabelSet) : Bool := labels.names.isEmpty

instance : Membership String LabelSet :=
  ⟨fun labels name => name ∈ labels.names⟩

@[simp] theorem mem_insert {labels : LabelSet} {name x : String} :
    x ∈ labels.insert name ↔ x = name ∨ x ∈ labels := mem_insertName

@[simp] theorem mem_ofList {names : List String} {x : String} :
    x ∈ ofList names ↔ x ∈ names := by
  induction names with
  | nil => exact ⟨fun h => h, fun h => h⟩
  | cons name names ih => simp [ofList, ih]

@[simp] theorem isEmpty_ofList (names : List String) :
    (ofList names).isEmpty = names.isEmpty := by
  cases names with
  | nil => rfl
  | cons name names =>
      have h : name ∈ (ofList (name :: names)).names := mem_ofList.mpr (by simp)
      simp only [isEmpty, List.isEmpty_cons, List.isEmpty_eq_false_iff]
      exact List.ne_nil_of_mem h

theorem names_ofList {names : List String} (h : names.Pairwise (· < ·)) :
    (ofList names).names = names := by
  induction names with
  | nil => rfl
  | cons name names ih =>
      obtain ⟨hname, hnames⟩ := List.pairwise_cons.mp h
      show insertName name (ofList names).names = name :: names
      rw [ih hnames]
      cases names with
      | nil => rfl
      | cons other rest =>
          have hlt : name < other := hname other List.mem_cons_self
          rw [insertName, if_pos hlt]

@[simp] theorem ofList_names (labels : LabelSet) :
    ofList labels.names = labels := by
  have h := names_ofList labels.increasing
  cases hset : ofList labels.names with
  | mk names increasing =>
      cases labels
      simp_all

end LabelSet

end LayeredLogic
