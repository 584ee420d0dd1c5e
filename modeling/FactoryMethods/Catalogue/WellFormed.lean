import FactoryMethods.Catalogue.Refusal

/-! Well-formed catalogues, said without the order of the checks: nothing is empty, no field has a
reserved name, and names differ within a node and within the catalogue. They are those in which no
defect is found. -/
namespace FactoryMethods

structure Descriptor.WellFormed (reserved : List String) (d : Descriptor) : Prop where
  name_ne : d.name ≠ ""
  fields : ∀ f ∈ d.fields, f.name ≠ "" ∧ f.type ≠ "" ∧ f.name ∉ reserved
  nodup : d.fieldNames.Nodup

structure Catalogue.WellFormed (reserved : List String) (ds : List Descriptor) : Prop where
  descriptors : ∀ d ∈ ds, d.WellFormed reserved
  nodup : (ds.map Descriptor.name).Nodup

namespace Descriptor

theorem fieldsDefect?_eq_none (reserved : List String) (node : String) (earlier : List String)
    (fs : List Field) : fieldsDefect? reserved node earlier fs = none ↔
      (∀ f ∈ fs, (f.name ≠ "" ∧ f.type ≠ "" ∧ f.name ∉ reserved) ∧ f.name ∉ earlier) ∧
        (fs.map Field.name).Nodup := by
  have hcheck (earlier : List String) (f : Field) : fieldDefect? reserved node earlier f = none ↔
      (f.name ≠ "" ∧ f.type ≠ "" ∧ f.name ∉ reserved) ∧ f.name ∉ earlier := by
    rw [fieldDefect?_eq_none, and_assoc, and_assoc]
  rw [fieldsDefect?_eq_refusal?, Option.map_eq_none_iff, refusal?_eq_none_iff_nodup hcheck]

theorem defect?_eq_none (reserved : List String) (d : Descriptor) :
    d.defect? reserved = none ↔ d.WellFormed reserved := by
  unfold defect?
  split
  · rename_i h
    simp only [reduceCtorEq, false_iff]
    exact fun w => w.name_ne h
  · rename_i h
    rw [fieldsDefect?_eq_none]
    constructor
    · rintro ⟨hf, hn⟩
      exact ⟨h, fun f hm => (hf f hm).1, hn⟩
    · rintro ⟨_, hf, hn⟩
      exact ⟨fun f hm => ⟨hf f hm, by simp⟩, hn⟩

theorem defectAfter?_eq_none (reserved earlier : List String) (d : Descriptor) :
    d.defectAfter? reserved earlier = none ↔ d.WellFormed reserved ∧ d.name ∉ earlier := by
  rw [defectAfter?, ← defect?_eq_none]
  cases d.defect? reserved <;> simp

end Descriptor

namespace Catalogue

theorem defectFrom?_eq_none (reserved : List String) (index : Nat) (earlier : List String)
    (ds : List Descriptor) : defectFrom? reserved index earlier ds = none ↔
      WellFormed reserved ds ∧ ∀ d ∈ ds, d.name ∉ earlier := by
  rw [defectFrom?_eq_refusal?, Option.map_eq_none_iff,
    refusal?_eq_none_iff_nodup (Descriptor.defectAfter?_eq_none reserved)]
  constructor
  · rintro ⟨hds, hn⟩
    exact ⟨⟨fun d hd => (hds d hd).1, hn⟩, fun d hd => (hds d hd).2⟩
  · rintro ⟨⟨hw, hn⟩, hearlier⟩
    exact ⟨fun d hd => ⟨hw d hd, hearlier d hd⟩, hn⟩

theorem defect?_eq_none (reserved : List String) (ds : List Descriptor) :
    defect? reserved ds = none ↔ WellFormed reserved ds := by
  simp [defect?, defectFrom?_eq_none]

end Catalogue

end FactoryMethods
