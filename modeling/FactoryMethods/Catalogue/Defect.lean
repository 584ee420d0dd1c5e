import FactoryMethods.Catalogue.Basic

/-! Defects of descriptors. A descriptor is checked name first and then field by field, a catalogue
descriptor by descriptor, and the first defect met is the answer. A method that binds names of its
own passes them in as reserved: no field may carry one of them. -/
namespace FactoryMethods

inductive Defect
  | emptyNodeName
  | emptyFieldName (node : String)
  | emptyFieldType (node field : String)
  | reservedFieldName (node field : String)
  | duplicateField (node field : String)
  | duplicateNode (name : String)
  deriving DecidableEq, Repr

def Defect.message : Defect → String
  | .emptyNodeName => "node name is empty"
  | .emptyFieldName node => s!"field name is empty in node '{node}'"
  | .emptyFieldType node field => s!"field '{field}' of node '{node}' has an empty type"
  | .reservedFieldName node field => s!"field '{field}' of node '{node}' uses a reserved name"
  | .duplicateField node field => s!"duplicate field '{field}' in node '{node}'"
  | .duplicateNode name => s!"duplicate node definition: '{name}'"

namespace Descriptor

/-- The defect of one field of `node`, whose fields before it are named `earlier`. -/
def fieldDefect? (reserved : List String) (node : String) (earlier : List String) (f : Field) :
    Option Defect :=
  if f.name = "" then some (.emptyFieldName node)
  else if f.type = "" then some (.emptyFieldType node f.name)
  else if f.name ∈ reserved then some (.reservedFieldName node f.name)
  else if f.name ∈ earlier then some (.duplicateField node f.name)
  else none

theorem fieldDefect?_eq_none (reserved : List String) (node : String) (earlier : List String)
    (f : Field) : fieldDefect? reserved node earlier f = none ↔
      f.name ≠ "" ∧ f.type ≠ "" ∧ f.name ∉ reserved ∧ f.name ∉ earlier := by
  unfold fieldDefect?
  repeat' split
  all_goals simp_all

/-- The defect of the first faulty field in a list that follows fields named `earlier`. -/
def fieldsDefect? (reserved : List String) (node : String) (earlier : List String) :
    List Field → Option Defect
  | [] => none
  | f :: rest =>
    match fieldDefect? reserved node earlier f with
    | some defect => some defect
    | none => fieldsDefect? reserved node (f.name :: earlier) rest

def defect? (reserved : List String) (d : Descriptor) : Option Defect :=
  if d.name = "" then some .emptyNodeName
  else fieldsDefect? reserved d.name [] d.fields

end Descriptor

namespace Catalogue

/-- Position and defect of the first faulty descriptor in a list whose head has position `index` and
follows descriptors named `earlier`. A descriptor's own defect comes before a repeated name. -/
def defectFrom? (reserved : List String) (index : Nat) (earlier : List String) :
    List Descriptor → Option (Nat × Defect)
  | [] => none
  | d :: rest =>
    match d.defect? reserved with
    | some defect => some (index, defect)
    | none =>
      if d.name ∈ earlier then some (index, .duplicateNode d.name)
      else defectFrom? reserved (index + 1) (d.name :: earlier) rest

def defect? (reserved : List String) (ds : List Descriptor) : Option (Nat × Defect) :=
  defectFrom? reserved 0 [] ds

@[simp] theorem defect?_nil (reserved : List String) : defect? reserved [] = none := rfl

theorem exists_getElem?_of_defectFrom? {reserved : List String} {index : Nat}
    {earlier : List String} {ds : List Descriptor} {found : Nat × Defect}
    (h : defectFrom? reserved index earlier ds = some found) :
    ∃ k d, found.1 = index + k ∧ ds[k]? = some d := by
  induction ds generalizing index earlier with
  | nil => cases h
  | cons d rest ih =>
    have later (h : defectFrom? reserved (index + 1) (d.name :: earlier) rest = some found) :
        ∃ k e, found.1 = index + k ∧ (d :: rest)[k]? = some e := by
      obtain ⟨k, e, hk, he⟩ := ih h
      exact ⟨k + 1, e, by omega, by simpa using he⟩
    rw [defectFrom?] at h
    split at h
    · cases h
      exact ⟨0, d, rfl, rfl⟩
    · split at h
      · cases h
        exact ⟨0, d, rfl, rfl⟩
      · exact later h

theorem exists_getElem?_of_defect? {reserved : List String} {ds : List Descriptor} {index : Nat}
    {defect : Defect} (h : defect? reserved ds = some (index, defect)) :
    ∃ d, ds[index]? = some d := by
  obtain ⟨k, d, hk, hd⟩ := exists_getElem?_of_defectFrom? h
  have hindex : index = k := by simpa using hk
  exact ⟨d, hindex ▸ hd⟩

end Catalogue

end FactoryMethods
