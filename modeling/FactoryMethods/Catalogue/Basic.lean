/-! Kinds of tree node. A descriptor names one kind and lists the typed fields that every node of
the kind carries; a catalogue is the ordered list of descriptors treated in one run. -/
namespace FactoryMethods

structure Field where
  name : String
  type : String
  deriving DecidableEq, Repr, Inhabited

/-- The order of the fields is that of the arguments wherever a node is built. -/
structure Descriptor where
  name : String
  fields : List Field := []
  deriving DecidableEq, Repr, Inhabited

namespace Descriptor

def fieldNames (d : Descriptor) : List String := d.fields.map Field.name

def isLeaf (d : Descriptor) : Bool := d.fields.isEmpty

def addField (d : Descriptor) (f : Field) : Descriptor := { d with fields := d.fields ++ [f] }

def field? (d : Descriptor) (name : String) : Option Field :=
  d.fields.find? fun f => f.name = name

@[simp] theorem addField_name (d : Descriptor) (f : Field) : (d.addField f).name = d.name := rfl

@[simp] theorem addField_fields (d : Descriptor) (f : Field) :
    (d.addField f).fields = d.fields ++ [f] := rfl

end Descriptor

structure Catalogue where
  descriptors : List Descriptor := []
  deriving DecidableEq, Repr, Inhabited

namespace Catalogue

def size (c : Catalogue) : Nat := c.descriptors.length

def isEmpty (c : Catalogue) : Bool := c.descriptors.isEmpty

def names (c : Catalogue) : List String := c.descriptors.map Descriptor.name

def add (c : Catalogue) (d : Descriptor) : Catalogue := ⟨c.descriptors ++ [d]⟩

/-- Adds a field to the descriptor at `index`; without one there, nothing changes. -/
def addField (c : Catalogue) (index : Nat) (f : Field) : Catalogue :=
  ⟨c.descriptors.modify index fun d => d.addField f⟩

def find? (c : Catalogue) (name : String) : Option Descriptor :=
  c.descriptors.find? fun d => d.name = name

@[simp] theorem add_descriptors (c : Catalogue) (d : Descriptor) :
    (c.add d).descriptors = c.descriptors ++ [d] := rfl

end Catalogue

end FactoryMethods
