import FactoryMethods.Source.Dialect

/-! Phrases: pieces of source that every dialect renders in its own way. -/
namespace FactoryMethods

/-- A parameter is a field, or a position, whose type the dialect chooses. -/
inductive Parameter
  | position (name : String)
  | field (f : Field)
  deriving DecidableEq, Repr

def Parameter.asField (l : Dialect) : Parameter → Field
  | .position name => ⟨name, l.positionType⟩
  | .field f => f

inductive Phrase
  | text (s : String)
  | parameter (p : Parameter)
  /-- The signature of the factory method of `node`, with `extras` before the fields. -/
  | signature (extras : List Parameter) (node : Descriptor)
  | bindingHead (type name : String)
  /-- A new node, every field passed in declared order. -/
  | construction (node : Descriptor)
  deriving DecidableEq, Repr

namespace Dialect

def parametersOf (l : Dialect) (extras : List Parameter) (node : Descriptor) : List String :=
  extras.map (fun p => l.parameter (p.asField l)) ++ node.fields.map l.parameter

def render (l : Dialect) : Phrase → String
  | .text s => s
  | .parameter p => l.parameter (p.asField l)
  | .signature extras node =>
    l.signature (l.factoryName node.name) (l.parametersOf extras node) node.name
  | .bindingHead type name => l.bindingHead type name
  | .construction node => l.constructed node.name node.fieldNames

theorem render_eq_empty_iff (l : Dialect) (p : Phrase) : l.render p = "" ↔ p = .text "" := by
  cases p with
  | text s => simp [render]
  | parameter p => simpa [render] using l.parameter_ne_empty (p.asField l)
  | signature extras node => simpa [render] using l.signature_ne_empty _ _ _
  | bindingHead type name => simpa [render] using l.bindingHead_ne_empty type name
  | construction node => simpa [render] using l.constructed_ne_empty node.name node.fieldNames

end Dialect

end FactoryMethods
