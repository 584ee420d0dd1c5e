import FactoryMethods.Catalogue.WellFormed
import Mathlib.Order.Bounds.Defs

/-! The first defect. The fields of a descriptor and the descriptors of a catalogue are checked in
order, each against the names before it. What is reported is the first that is at fault, with the
first of its faults; so the report can be said without the order in which the checks are made. -/
namespace FactoryMethods

/-- The order in which the defects of one element are looked for. -/
def Defect.rank : Defect → Nat
  | .emptyNodeName => 0
  | .emptyFieldName _ => 1
  | .emptyFieldType _ _ => 2
  | .reservedFieldName _ _ => 3
  | .duplicateField _ _ => 4
  | .duplicateNode _ => 5

/-- The defects of a field of `node`, of which it may have several; the fields before it are
named `earlier`. -/
inductive Field.HasDefect (reserved : List String) (node : String) (earlier : List String)
    (f : Field) : Defect → Prop
  | emptyName : f.name = "" → HasDefect reserved node earlier f (.emptyFieldName node)
  | emptyType : f.type = "" → HasDefect reserved node earlier f (.emptyFieldType node f.name)
  | reserved :
      f.name ∈ reserved → HasDefect reserved node earlier f (.reservedFieldName node f.name)
  | duplicate : f.name ∈ earlier → HasDefect reserved node earlier f (.duplicateField node f.name)

namespace Field.HasDefect

variable {reserved earlier : List String} {node : String} {f : Field} {defect other : Defect}

theorem eq_of_rank_eq (h : f.HasDefect reserved node earlier defect)
    (h' : f.HasDefect reserved node earlier other) (hrank : defect.rank = other.rank) :
    defect = other := by
  cases h <;> cases h' <;> simp_all [Defect.rank]

theorem mono (h : f.HasDefect reserved node earlier defect) {reserved' earlier' : List String}
    (hreserved : reserved ⊆ reserved') (hearlier : earlier ⊆ earlier') :
    f.HasDefect reserved' node earlier' defect := by
  cases h with
  | emptyName h => exact .emptyName h
  | emptyType h => exact .emptyType h
  | reserved h => exact .reserved (hreserved h)
  | duplicate h => exact .duplicate (hearlier h)

end Field.HasDefect

namespace Descriptor

theorem fieldDefect?_eq_none_iff {reserved earlier : List String} {node : String} {f : Field} :
    fieldDefect? reserved node earlier f = none ↔ ∀ e, ¬ f.HasDefect reserved node earlier e := by
  rw [fieldDefect?_eq_none]
  constructor
  · rintro ⟨hname, htype, hreserved, hearlier⟩ e he
    cases he with
    | emptyName h => exact hname h
    | emptyType h => exact htype h
    | reserved h => exact hreserved h
    | duplicate h => exact hearlier h
  · intro h
    exact ⟨fun hname => h _ (.emptyName hname), fun htype => h _ (.emptyType htype),
      fun hreserved => h _ (.reserved hreserved), fun hearlier => h _ (.duplicate hearlier)⟩

theorem foremost_of_fieldDefect? {reserved earlier : List String} {node : String} {f : Field}
    {defect : Defect} (h : fieldDefect? reserved node earlier f = some defect) :
    f.HasDefect reserved node earlier defect ∧
      ∀ e, f.HasDefect reserved node earlier e → defect.rank ≤ e.rank := by
  revert h
  fun_cases fieldDefect? reserved node earlier f with
  | case1 hname =>
    rintro ⟨⟩
    exact ⟨.emptyName hname, fun e he => by cases he <;> simp [Defect.rank]⟩
  | case2 hname htype =>
    rintro ⟨⟩
    exact ⟨.emptyType htype, fun e he => by cases he <;> simp_all [Defect.rank]⟩
  | case3 hname htype hreserved =>
    rintro ⟨⟩
    exact ⟨.reserved hreserved, fun e he => by cases he <;> simp_all [Defect.rank]⟩
  | case4 hname htype hreserved hearlier =>
    rintro ⟨⟩
    exact ⟨.duplicate hearlier, fun e he => by cases he <;> simp_all [Defect.rank]⟩
  | case5 => rintro ⟨⟩

theorem fieldDefect?_eq_some_iff {reserved earlier : List String} {node : String} {f : Field}
    {defect : Defect} : fieldDefect? reserved node earlier f = some defect ↔
      f.HasDefect reserved node earlier defect ∧
        ∀ e, f.HasDefect reserved node earlier e → defect.rank ≤ e.rank := by
  constructor
  · exact foremost_of_fieldDefect?
  · rintro ⟨hdefect, hforemost⟩
    cases hfound : fieldDefect? reserved node earlier f with
    | none => exact absurd hdefect (fieldDefect?_eq_none_iff.mp hfound defect)
    | some found =>
      obtain ⟨hhas, hleast⟩ := foremost_of_fieldDefect? hfound
      have hrank : found.rank = defect.rank :=
        Nat.le_antisymm (hleast defect hdefect) (hforemost found hhas)
      rw [hhas.eq_of_rank_eq hdefect hrank]

theorem fieldDefect?_congr {reserved reserved' earlier earlier' : List String}
    (hreserved : ∀ x, x ∈ reserved ↔ x ∈ reserved') (hearlier : ∀ x, x ∈ earlier ↔ x ∈ earlier')
    (node : String) (f : Field) :
    fieldDefect? reserved node earlier f = fieldDefect? reserved' node earlier' f := by
  have hsame (e : Defect) :
      f.HasDefect reserved node earlier e ↔ f.HasDefect reserved' node earlier' e :=
    ⟨fun h => h.mono (fun x => (hreserved x).mp) fun x => (hearlier x).mp,
      fun h => h.mono (fun x => (hreserved x).mpr) fun x => (hearlier x).mpr⟩
  ext e
  simp only [fieldDefect?_eq_some_iff, hsame]

/-- The field at position `k` has the defect, among others perhaps. -/
def HasDefectAt (reserved : List String) (d : Descriptor) (k : Nat) (defect : Defect) : Prop :=
  ∃ f, d.fields[k]? = some f ∧ f.HasDefect reserved d.name (d.fieldNames.take k) defect

/-- No field before the one at `k` has a defect, and that one has none that is looked for
before this. -/
structure FirstDefect (reserved : List String) (d : Descriptor) (k : Nat) (defect : Defect) :
    Prop where
  has : d.HasDefectAt reserved k defect
  first : ∀ j e, d.HasDefectAt reserved j e → k ≤ j
  foremost : ∀ e, d.HasDefectAt reserved k e → defect.rank ≤ e.rank

variable {reserved : List String} {d : Descriptor} {k : Nat} {defect : Defect}

theorem HasDefectAt.mono (h : d.HasDefectAt reserved k defect) {larger : List String}
    (hlarger : reserved ⊆ larger) : d.HasDefectAt larger k defect := by
  obtain ⟨f, hf, hhas⟩ := h
  exact ⟨f, hf, hhas.mono hlarger (List.Subset.refl _)⟩

theorem fieldDefect?_reverse (reserved : List String) (d : Descriptor) (k : Nat) (f : Field) :
    fieldDefect? reserved d.name (((d.fields.take k).map Field.name).reverse ++ []) f =
      fieldDefect? reserved d.name (d.fieldNames.take k) f :=
  fieldDefect?_congr (fun _ => Iff.rfl) (by simp [fieldNames]) d.name f

theorem refusal?_fields_eq_none_iff :
    refusal? (fieldDefect? reserved d.name) Field.name [] d.fields = none ↔
      ∀ k e, ¬ d.HasDefectAt reserved k e := by
  simp only [refusal?_eq_none_iff, fieldDefect?_reverse, fieldDefect?_eq_none_iff]
  constructor
  · rintro h k e ⟨f, hf, hhas⟩
    exact h k f hf e hhas
  · intro h k f hf e hhas
    exact h k e ⟨f, hf, hhas⟩

theorem refusal?_fields_eq_some_iff :
    refusal? (fieldDefect? reserved d.name) Field.name [] d.fields = some (k, defect) ↔
      d.FirstDefect reserved k defect := by
  simp only [refusal?_eq_some_iff, refusal?_take_eq_none_iff, fieldDefect?_reverse,
    fieldDefect?_eq_none_iff, fieldDefect?_eq_some_iff]
  constructor
  · rintro ⟨hbefore, f, hf, hhas, hforemost⟩
    refine ⟨⟨f, hf, hhas⟩, ?_, ?_⟩
    · rintro j e ⟨g, hg, he⟩
      exact Nat.le_of_not_lt fun hj => hbefore j hj g hg e he
    · rintro e ⟨g, hg, he⟩
      cases hf.symm.trans hg
      exact hforemost e he
  · rintro ⟨⟨f, hf, hhas⟩, hfirst, hforemost⟩
    refine ⟨?_, f, hf, hhas, fun e he => hforemost e ⟨f, hf, he⟩⟩
    intro j hj g hg e he
    exact Nat.not_le_of_lt hj (hfirst j e ⟨g, hg, he⟩)

theorem defect?_eq_some_iff (hname : d.name ≠ "") :
    d.defect? reserved = some defect ↔ ∃ k, d.FirstDefect reserved k defect := by
  rw [defect?, if_neg hname, fieldsDefect?_eq_refusal?, Option.map_eq_some_iff]
  constructor
  · rintro ⟨⟨k, _⟩, hrefusal, rfl⟩
    exact ⟨k, refusal?_fields_eq_some_iff.mp hrefusal⟩
  · rintro ⟨k, hfirst⟩
    exact ⟨(k, defect), refusal?_fields_eq_some_iff.mpr hfirst, rfl⟩

theorem exists_firstDefect (h : d.HasDefectAt reserved k defect) :
    ∃ j ≤ k, ∃ e, d.FirstDefect reserved j e := by
  cases hrefusal : refusal? (fieldDefect? reserved d.name) Field.name [] d.fields with
  | none => exact absurd h (refusal?_fields_eq_none_iff.mp hrefusal k defect)
  | some found =>
    have hfirst := refusal?_fields_eq_some_iff.mp hrefusal
    exact ⟨found.1, hfirst.first k defect h, found.2, hfirst⟩

theorem not_firstDefect_emptyNodeName : ¬ d.FirstDefect reserved k .emptyNodeName := by
  rintro ⟨⟨f, _, hhas⟩, _, _⟩
  cases hhas

theorem defect?_congr {other : List String} (h : ∀ name, name ∈ other ↔ name ∈ reserved) :
    d.defect? other = d.defect? reserved := by
  have hcheck : fieldDefect? other d.name = fieldDefect? reserved d.name := by
    funext earlier f
    exact fieldDefect?_congr h (fun _ => Iff.rfl) d.name f
  simp only [defect?, fieldsDefect?_eq_refusal?, hcheck]

/-- A descriptor is reported with an empty name first, and otherwise with the foremost defect of its
first faulty field. More reserved names take no defect away. -/
theorem first_defect (reserved : List String) (d : Descriptor) :
    (d.name = "" → d.defect? reserved = some .emptyNodeName) ∧
    (d.name ≠ "" → ∀ defect,
      d.defect? reserved = some defect ↔ ∃ k, d.FirstDefect reserved k defect) ∧
    (∀ other : List String, (∀ name, name ∈ other ↔ name ∈ reserved) →
      d.defect? other = d.defect? reserved) ∧
    ∀ larger, reserved ⊆ larger → ∀ defect, d.defect? reserved = some defect →
      ∃ defect', d.defect? larger = some defect' ∧
        ∀ k, d.FirstDefect reserved k defect → ∃ k' ≤ k, d.FirstDefect larger k' defect' := by
  have hempty (names : List String) (hname : d.name = "") :
      d.defect? names = some .emptyNodeName := if_pos hname
  refine ⟨hempty reserved, fun hname _ => defect?_eq_some_iff hname, fun _ => defect?_congr, ?_⟩
  intro larger hlarger defect hdefect
  by_cases hname : d.name = ""
  · obtain rfl : Defect.emptyNodeName = defect :=
      Option.some.inj ((hempty reserved hname).symm.trans hdefect)
    exact ⟨_, hempty larger hname, fun k hk => absurd hk not_firstDefect_emptyNodeName⟩
  · obtain ⟨k, hk⟩ := (defect?_eq_some_iff hname).mp hdefect
    obtain ⟨j, -, e, hfirst⟩ := exists_firstDefect (hk.has.mono hlarger)
    refine ⟨e, (defect?_eq_some_iff hname).mpr ⟨j, hfirst⟩, fun k' hk' => ⟨j, ?_, hfirst⟩⟩
    exact hfirst.first k' defect (hk'.has.mono hlarger)

/-- An empty type counts until the name of a field before it is reserved. -/
theorem first_defect_mark :
    let d : Descriptor := ⟨"Mark", [⟨"pos", "int"⟩, ⟨"t", ""⟩]⟩
    let emptyType : Defect := .emptyFieldType "Mark" "t"
    d.name ≠ "" ∧ d.defect? ["s", "s"] = some emptyType ∧ ["s", "s"] ⊆ ["pos", "s"] ∧
      (∃ k, d.FirstDefect ["s", "s"] k emptyType) ∧ d.defect? ["s"] = some emptyType ∧
      ∃ e, d.defect? ["pos", "s"] = some e ∧
        ∀ k, d.FirstDefect ["s", "s"] k emptyType → ∃ k' ≤ k, d.FirstDefect ["pos", "s"] k' e := by
  intro d emptyType
  have hname : d.name ≠ "" := by decide
  have hdefect : d.defect? ["s", "s"] = some emptyType := by rfl
  have hlarger : ["s", "s"] ⊆ ["pos", "s"] := by decide
  obtain ⟨-, hfirst, hsame, hmore⟩ := first_defect ["s", "s"] d
  refine ⟨hname, hdefect, hlarger, (hfirst hname emptyType).mp hdefect, ?_, ?_⟩
  · rw [hsame ["s"] (by simp), hdefect]
  · exact hmore ["pos", "s"] hlarger emptyType hdefect

theorem defect?_ne_duplicateNode (reserved : List String) (d : Descriptor) (name : String) :
    d.defect? reserved ≠ some (.duplicateNode name) := by
  intro h
  by_cases hname : d.name = ""
  · rw [defect?, if_pos hname] at h
    cases h
  · obtain ⟨k, ⟨f, _, hhas⟩, _, _⟩ := (defect?_eq_some_iff hname).mp h
    cases hhas

theorem defectAfter?_eq_some_iff {reserved earlier : List String} {d : Descriptor}
    {defect : Defect} : d.defectAfter? reserved earlier = some defect ↔
      d.defect? reserved = some defect ∨
        d.WellFormed reserved ∧ d.name ∈ earlier ∧ defect = .duplicateNode d.name := by
  rw [defectAfter?, ← defect?_eq_none]
  cases d.defect? reserved with
  | some own => simp
  | none => simp [eq_comm]

end Descriptor

namespace Catalogue

theorem defect?_eq_some_iff {reserved : List String} {ds : List Descriptor} {index : Nat}
    {defect : Defect} : defect? reserved ds = some (index, defect) ↔
      WellFormed reserved (ds.take index) ∧ ∃ d, ds[index]? = some d ∧
        d.defectAfter? reserved ((ds.take index).map Descriptor.name) = some defect := by
  have hrefusal (ds : List Descriptor) : defect? reserved ds =
      refusal? (Descriptor.defectAfter? reserved) Descriptor.name [] ds := by
    simp [defect?, defectFrom?_eq_refusal?]
  rw [← defect?_eq_none, hrefusal, hrefusal, refusal?_eq_some_iff]
  simp only [Descriptor.defectAfter?_eq_some_iff, List.append_nil, List.mem_reverse]

theorem WellFormed.sublist {reserved : List String} {ds es : List Descriptor}
    (h : WellFormed reserved ds) (hsub : es.Sublist ds) : WellFormed reserved es :=
  ⟨fun d hd => h.descriptors d (hsub.subset hd), h.nodup.sublist (hsub.map Descriptor.name)⟩

theorem not_wellFormed_of_defectAfter? {reserved : List String} {before : List Descriptor}
    {d : Descriptor} {defect : Defect}
    (h : d.defectAfter? reserved (before.map Descriptor.name) = some defect) :
    ¬ WellFormed reserved (before ++ [d]) := by
  intro hw
  rcases Descriptor.defectAfter?_eq_some_iff.mp h with hown | ⟨-, hname, -⟩
  · have hnone := (Descriptor.defect?_eq_none reserved d).mpr (hw.descriptors d (by simp))
    simp [hnone] at hown
  · have hnodup := hw.nodup
    rw [List.map_append, List.nodup_append] at hnodup
    exact hnodup.2.2 d.name hname d.name (by simp) rfl

/-- Nothing is reported exactly in a well-formed catalogue, and otherwise the first position up to
which it is not well formed; a repeated name only of a descriptor that is well formed alone. -/
theorem first_offender (reserved : List String) (ds : List Descriptor) :
    (defect? reserved ds = none ↔ WellFormed reserved ds) ∧
    ∀ index defect, defect? reserved ds = some (index, defect) →
      IsLeast {i | ¬ WellFormed reserved (ds.take (i + 1))} index ∧
      ∃ d, ds[index]? = some d ∧
        (∀ name, defect = .duplicateNode name ↔
          name = d.name ∧ d.WellFormed reserved ∧ ∃ e ∈ ds.take index, e.name = d.name) ∧
        (¬ d.WellFormed reserved → d.defect? reserved = some defect) := by
  refine ⟨defect?_eq_none reserved ds, fun index defect h => ?_⟩
  obtain ⟨hbefore, d, hd, hdefect⟩ := defect?_eq_some_iff.mp h
  refine ⟨⟨?_, ?_⟩, d, hd, ?_, ?_⟩
  · show ¬ WellFormed reserved (ds.take (index + 1))
    rw [List.take_add_one, hd]
    exact not_wellFormed_of_defectAfter? hdefect
  · intro i hi
    refine Nat.le_of_not_lt fun hlt => hi (hbefore.sublist ?_)
    exact List.take_sublist_take_left hlt
  · intro name
    rcases Descriptor.defectAfter?_eq_some_iff.mp hdefect with hown | ⟨hw, hname, rfl⟩
    · have hw : ¬ d.WellFormed reserved := by
        rw [← Descriptor.defect?_eq_none, hown]
        simp
      have hne : defect ≠ .duplicateNode name := by
        rintro rfl
        exact d.defect?_ne_duplicateNode reserved name hown
      simp [hw, hne]
    · have hearlier : ∃ e ∈ ds.take index, e.name = d.name := List.mem_map.mp hname
      rw [Defect.duplicateNode.injEq, eq_comm (a := d.name)]
      exact (and_iff_left ⟨hw, hearlier⟩).symm
  · intro hw
    rcases Descriptor.defectAfter?_eq_some_iff.mp hdefect with hown | ⟨hw', -, -⟩
    · exact hown
    · exact absurd hw' hw

/-- The second `Ident` is at fault for its name; what is wrong behind it is not looked at. -/
theorem first_offender_ident :
    let ds : List Descriptor := [⟨"Ident", []⟩, ⟨"Select", []⟩, ⟨"Ident", []⟩, ⟨"", []⟩]
    defect? ["pos"] ds = some (2, .duplicateNode "Ident") ∧
      IsLeast {i | ¬ WellFormed ["pos"] (ds.take (i + 1))} 2 ∧
      ∃ d, ds[2]? = some d ∧ d.WellFormed ["pos"] ∧ ∃ e ∈ ds.take 2, e.name = d.name := by
  intro ds
  have hdefect : defect? ["pos"] ds = some (2, .duplicateNode "Ident") := by rfl
  obtain ⟨hleast, d, hd, hduplicate, -⟩ := (first_offender ["pos"] ds).2 2 _ hdefect
  exact ⟨hdefect, hleast, d, hd, ((hduplicate "Ident").mp rfl).2⟩

end Catalogue
end FactoryMethods
