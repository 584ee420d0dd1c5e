import FactoryMethods.Proofs.Catalogue.Reading
import FactoryMethods.Proofs.Markup.Encoding
import FactoryMethods.Proofs.Markup.Forest

/-! The grammar of catalogue documents. Elements are read level by level: a catalogue holds nodes, a
node holds fields, and a field may hold anything. What reading accepts at each level is what the
grammar derives there, and the grammar fixes the catalogue that has been read. -/
namespace FactoryMethods

open Markup

namespace Markup.Tag

/-- The first attribute of that key, its references replaced, is `value`. -/
def HasValue (t : Tag) (key value : String) : Prop :=
  ∃ a raw, t.attributes.find? (fun a => a.key = Utf8.encode key) = some a ∧
    a.value = Utf8.encode raw ∧ unescape raw = .ok value

def IsNode (t : Tag) (name : String) : Prop :=
  t.name = Utf8.encode "node" ∧ t.HasValue "name" name

def IsField (t : Tag) (f : Field) : Prop :=
  t.name = Utf8.encode "field" ∧ t.HasValue "name" f.name ∧ t.HasValue "type" f.type

end Markup.Tag

/-- What a node holds. Elements inside a field may be any. -/
inductive IsFields : Forest → List Field → Prop
  | nil : IsFields .nil []
  | leaf {tag : Tag} {next : Forest} {f : Field} {fs : List Field} :
    tag.IsField f → IsFields next fs → IsFields (.leaf tag next) (f :: fs)
  | element {tag : Tag} {content next : Forest} {f : Field} {fs : List Field} :
    tag.IsField f → IsFields next fs → IsFields (.element tag content next) (f :: fs)

inductive IsNodes : Forest → List Descriptor → Prop
  | nil : IsNodes .nil []
  | leaf {tag : Tag} {next : Forest} {name : String} {ds : List Descriptor} :
    tag.IsNode name → IsNodes next ds → IsNodes (.leaf tag next) (⟨name, []⟩ :: ds)
  | element {tag : Tag} {content next : Forest} {name : String} {fs : List Field}
      {ds : List Descriptor} :
    tag.IsNode name → IsFields content fs → IsNodes next ds →
      IsNodes (.element tag content next) (⟨name, fs⟩ :: ds)

inductive IsDocument : Forest → Catalogue → Prop
  | leaf {tag : Tag} : tag.name = Utf8.encode "catalogue" → IsDocument (.leaf tag .nil) {}
  | element {tag : Tag} {content : Forest} {ds : List Descriptor} :
    tag.name = Utf8.encode "catalogue" → IsNodes content ds →
      IsDocument (.element tag content .nil) ⟨ds⟩

theorem decoded_eq_ok_iff {bytes : Bytes} {s : String} :
    decoded bytes = .ok s ↔ bytes = Utf8.encode s := by
  rw [decoded, mapError_eq_ok_iff, Utf8.decode_eq_ok, eq_comm]

theorem expectName_eq_ok_iff {t : Tag} {name context : String} {u : Unit} :
    expectName t name context = .ok u ↔ t.name = Utf8.encode name := by
  rw [expectName, bind_eq_ok_iff]
  constructor
  · rintro ⟨found, hfound, hname⟩
    split at hname
    · rename_i h
      rw [decoded_eq_ok_iff.mp hfound, h]
    · cases hname
  · intro h
    exact ⟨name, decoded_eq_ok_iff.mpr h, if_pos rfl⟩

theorem attributeValue_eq_ok_iff {a : Attribute} {value : String} :
    attributeValue a = .ok value ↔ ∃ raw, a.value = Utf8.encode raw ∧ unescape raw = .ok value := by
  simp only [attributeValue, bind_eq_ok_iff, mapError_eq_ok_iff, Utf8.decode_eq_ok,
    eq_comm (b := a.value)]

theorem valueOf?_eq_ok_some_iff {key value : String} {as : List Attribute}
    (h : ∀ a ∈ as, Utf8.Valid a.key) : valueOf? key as = .ok (some value) ↔
      ∃ a raw, as.find? (fun a => a.key = Utf8.encode key) = some a ∧
        a.value = Utf8.encode raw ∧ unescape raw = .ok value := by
  induction as with
  | nil => simp [valueOf?]
  | cons a rest ih =>
    obtain ⟨⟨found, hfound⟩, hrest⟩ := List.forall_mem_cons.mp h
    have hdecoded := decoded_eq_ok_iff.mpr hfound.symm
    rw [valueOf?, hdecoded]
    show (if found = key then _ else _) = _ ↔ _
    by_cases hkey : found = key
    · rw [if_pos hkey, List.find?_cons_of_pos (by simp [← hfound, hkey])]
      cases hvalue : attributeValue a with
      | error e =>
        simp only [Except.map, reduceCtorEq, false_iff]
        rintro ⟨_, raw, ⟨⟩, hraw⟩
        rw [attributeValue_eq_ok_iff.mpr ⟨raw, hraw⟩] at hvalue
        cases hvalue
      | ok v =>
        simp only [Except.map, Except.ok.injEq, Option.some.injEq]
        constructor
        · rintro rfl
          obtain ⟨raw, hraw⟩ := attributeValue_eq_ok_iff.mp hvalue
          exact ⟨a, raw, rfl, hraw⟩
        · rintro ⟨_, raw, rfl, hraw⟩
          rw [attributeValue_eq_ok_iff.mpr ⟨raw, hraw⟩] at hvalue
          exact (Except.ok.inj hvalue).symm
    · have hne : a.key ≠ Utf8.encode key := fun he =>
        hkey (Utf8.encode_injective (hfound.trans he))
      rw [if_neg hkey, List.find?_cons_of_neg (by simp [hne])]
      exact ih hrest

theorem required_eq_ok_iff {t : Tag} {element key value : String} (h : Utf8.Valid t.content) :
    required t element key = .ok value ↔ t.HasValue key value := by
  have hkeys : ∀ a ∈ t.attributes, Utf8.Valid a.key := fun a ha => (t.valid_attributes h a ha).1
  rw [Tag.HasValue, ← valueOf?_eq_ok_some_iff hkeys, required, bind_eq_ok_iff]
  constructor
  · rintro ⟨found, hfound, hvalue⟩
    cases found with
    | none => cases hvalue
    | some v =>
      cases hvalue
      exact hfound
  · intro hfound
    exact ⟨some value, hfound, rfl⟩

end FactoryMethods
