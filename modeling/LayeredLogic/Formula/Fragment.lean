import LayeredLogic.Formula

/-!
# The layer of a formula

A node belongs to a layer that includes the one introducing its operator, and a
formula fits a layer when every node belongs to it.  Spatial and graph operators
in one formula fit no layer.
-/

namespace LayeredLogic.Formula

def belongsTo (f : Formula) (layer : Layer) : Bool :=
  layer.includes f.operator.layer

mutual

def fits (layer : Layer) : Formula → Bool
  | literal value => (literal value).belongsTo layer
  | var name => (var name).belongsTo layer
  | not a => (not a).belongsTo layer && fits layer a
  | junction k args => (junction k args).belongsTo layer && fitsAll layer args
  | derived c a b =>
      (derived c a b).belongsTo layer && (fits layer a && fits layer b)
  | unary m a => (unary m a).belongsTo layer && fits layer a
  | binary m a b =>
      (binary m a b).belongsTo layer && (fits layer a && fits layer b)

def fitsAll (layer : Layer) : List Formula → Bool
  | [] => true
  | a :: rest => fits layer a && fitsAll layer rest

end

/-- The smallest layer that the formula fits. -/
def layer? (f : Formula) : Option Layer :=
  Layer.all.find? fun layer => f.fits layer

def isPropositional (f : Formula) : Bool := f.belongsTo .base

def isTemporal (f : Formula) : Bool := f.belongsTo .ltl

def isSpatial (f : Formula) : Bool := f.belongsTo .strel

def isGraph (f : Formula) : Bool := f.belongsTo .stlGo

theorem fitsAll_eq_all (layer : Layer) (args : List Formula) :
    fitsAll layer args = args.all (fits layer) := by
  induction args with
  | nil => rfl
  | cons a rest ih => simp [fitsAll, ih]

theorem fits_eq (layer : Layer) (f : Formula) :
    f.fits layer = (f.belongsTo layer && f.children.all (fits layer)) := by
  cases f <;> simp [fits, children, fitsAll_eq_all]

end LayeredLogic.Formula
