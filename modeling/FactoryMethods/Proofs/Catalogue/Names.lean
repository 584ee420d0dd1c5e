import FactoryMethods.Catalogue.WellFormed
import Mathlib.Data.List.Nodup

/-! Names that tell what carries them. A look-up takes the first element of a name; where the names
in a list differ that is the only one, so in a well-formed catalogue every node and every field is
found by its name. -/
namespace FactoryMethods

section List

variable {α : Type} {name : α → String} {xs : List α}

/-- Looking up the name of an element finds that element, and a name that none carries finds
nothing; so the names in order find the whole list. -/
structure Finds (find? : String → Option α) (name : α → String) (xs : List α) : Prop where
  found : ∀ x ∈ xs, find? (name x) = some x
  missing : ∀ n, n ∉ xs.map name → find? n = none
  all : (xs.map name).map find? = xs.map some

theorem find?_name_of_mem (h : (xs.map name).Nodup) {x : α} (hx : x ∈ xs) :
    xs.find? (fun y => name y = name x) = some x := by
  induction xs with
  | nil => cases hx
  | cons first rest ih =>
    rw [List.map_cons, List.nodup_cons] at h
    rcases List.mem_cons.mp hx with rfl | hrest
    · exact List.find?_cons_of_pos (by simp)
    · have hother : name first ≠ name x := fun hsame => h.1 (hsame ▸ List.mem_map_of_mem hrest)
      rw [List.find?_cons_of_neg (by simpa using hother)]
      exact ih h.2 hrest

theorem find?_name_eq_none {n : String} (h : n ∉ xs.map name) :
    xs.find? (fun y => name y = n) = none := by
  rw [List.find?_eq_none]
  intro x hx hname
  exact h (List.mem_map.mpr ⟨x, hx, by simpa using hname⟩)

theorem finds_of_nodup (h : (xs.map name).Nodup) :
    Finds (fun n => xs.find? fun x => name x = n) name xs := by
  refine ⟨fun x hx => find?_name_of_mem h hx, fun n hn => find?_name_eq_none hn, ?_⟩
  rw [List.map_map]
  exact List.map_congr_left fun x hx => find?_name_of_mem h hx

end List

namespace Catalogue

variable {reserved : List String} {c : Catalogue}

theorem WellFormed.finds (h : WellFormed reserved c.descriptors) :
    Finds c.find? Descriptor.name c.descriptors := finds_of_nodup h.nodup

theorem find?_add (c : Catalogue) (d : Descriptor) (name : String) :
    (c.add d).find? name = (c.find? name).or (if d.name = name then some d else none) := by
  rw [find?, add_descriptors, List.find?_append]
  by_cases h : d.name = name <;> simp [find?, h]

theorem WellFormed.name_notMem {d : Descriptor} (h : WellFormed reserved (c.add d).descriptors) :
    d.name ∉ c.names := by
  have hnodup := h.nodup
  rw [add_descriptors, List.map_append, List.nodup_append] at hnodup
  exact fun hmem => hnodup.2.2 d.name hmem d.name (by simp) rfl

/-- Where no defect is found, names find their nodes and, in every node, their fields; a node added
without a defect is found by its name, and every other name finds what it found. -/
theorem find?_faithful (h : defect? reserved c.descriptors = none) :
    Finds c.find? Descriptor.name c.descriptors ∧
    (∀ d ∈ c.descriptors, Finds d.field? Field.name d.fields) ∧
    ∀ reserved' d, defect? reserved' (c.add d).descriptors = none →
      c.find? d.name = none ∧ (c.add d).find? d.name = some d ∧
      ∀ name, (c.add d).find? name ≠ c.find? name ↔ name = d.name := by
  have hvalid := (defect?_eq_none reserved c.descriptors).mp h
  refine ⟨hvalid.finds, fun d hd => finds_of_nodup (hvalid.descriptors d hd).nodup, ?_⟩
  intro reserved' d hadd
  have hnew : c.find? d.name = none :=
    hvalid.finds.missing _ ((defect?_eq_none reserved' _).mp hadd).name_notMem
  refine ⟨hnew, by simp [find?_add, hnew], fun name => ⟨fun hchanged => ?_, ?_⟩⟩
  · by_contra hother
    simp [find?_add, Ne.symm hother] at hchanged
  · rintro rfl
    simp [find?_add, hnew]

/-- Two nodes that share the name of a field with each other, and that of a node with a field. -/
theorem find?_faithful_select :
    let ident : Descriptor := ⟨"Ident", [⟨"name", "Name"⟩]⟩
    let select : Descriptor := ⟨"Select", [⟨"Ident", "Tree"⟩, ⟨"name", "Name"⟩]⟩
    let c : Catalogue := ⟨[ident, select]⟩
    let apply : Descriptor := ⟨"Apply", []⟩
    defect? ["pos", "t"] c.descriptors = none ∧ select ∈ c.descriptors ∧
      (⟨"name", "Name"⟩ : Field) ∈ select.fields ∧ "Apply" ∉ c.names ∧
      defect? [] (c.add apply).descriptors = none ∧
      c.find? "Select" = some select ∧ select.field? "name" = some ⟨"name", "Name"⟩ ∧
      c.find? "Apply" = none ∧ (c.add apply).find? "Apply" = some apply := by
  intro ident select c apply
  have hvalid : defect? ["pos", "t"] c.descriptors = none := by decide
  have hadd : defect? [] (c.add apply).descriptors = none := by decide
  have hselect : select ∈ c.descriptors := by decide
  have hfield : (⟨"name", "Name"⟩ : Field) ∈ select.fields := by decide
  have hmissing : "Apply" ∉ c.names := by decide
  obtain ⟨hnodes, hfields, hmore⟩ := find?_faithful hvalid
  exact ⟨hvalid, hselect, hfield, hmissing, hadd, hnodes.found select hselect,
    (hfields select hselect).found _ hfield, hnodes.missing _ hmissing, (hmore [] apply hadd).2.1⟩

end Catalogue
end FactoryMethods
