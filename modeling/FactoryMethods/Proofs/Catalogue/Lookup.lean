import FactoryMethods.Proofs.Catalogue.Grammar
import FactoryMethods.Proofs.Markup.AttributeList

/-! Required attributes. A tag is asked for its attributes by their keys. What it answers does not
depend on where in it they stand, nor on what else stands in it, and a tag is entered by its name
and these answers alone. -/
namespace FactoryMethods

open Markup

/-- The value that attributes give to a required key, its references replaced. -/
def lookUp (element key : String) (as : List (String × String)) : Except ReadError String :=
  match as.lookup key with
  | none => .error (.missingAttribute element key)
  | some raw => (unescape raw).mapError fun f => .markup (.reference f)

def lookedUp (name : String) : List String :=
  if name = "node" then ["name"] else if name = "field" then ["name", "type"] else []

/-- The attributes that such a tag is asked for. -/
def wanted (name : String) (as : List (String × String)) : List (String × String) :=
  as.filter fun a => a.1 ∈ lookedUp name

theorem valueOf?_encoded (key : String) (as : List (String × String)) :
    valueOf? key (as.map encoded) =
      match as.lookup key with
      | none => .ok none
      | some raw =>
        ((unescape raw).mapError fun f => ReadError.markup (.reference f)).map some := by
  induction as with
  | nil => rfl
  | cons a as ih =>
    have hkey : decoded (Utf8.encode a.1) = .ok a.1 := decoded_eq_ok_iff.mpr rfl
    rw [List.map_cons, valueOf?, encoded, hkey]
    show (if a.1 = key then _ else _) = _
    by_cases h : a.1 = key
    · have hfound : (key == a.1) = true := by simp [h]
      rw [if_pos h, attributeValue, Utf8.decode_encode, List.lookup_cons, hfound]
      rfl
    · have hother : (key == a.1) = false := by simp [Ne.symm h]
      rw [if_neg h, ih, List.lookup_cons, hother]

theorem required_eq_lookUp {t : Tag} {as : List (String × String)}
    (h : t.attributes = as.map encoded) (element key : String) :
    required t element key = lookUp element key as := by
  rw [required, h, valueOf?_encoded, lookUp]
  cases as.lookup key with
  | none => rfl
  | some raw =>
    dsimp only
    cases unescape raw <;> rfl

theorem lookup_eq_some_iff {as : List (String × String)} (hnodup : (as.map Prod.fst).Nodup)
    {key value : String} : as.lookup key = some value ↔ (key, value) ∈ as := by
  induction as with
  | nil => simp
  | cons a as ih =>
    obtain ⟨first, raw⟩ := a
    rw [List.map_cons, List.nodup_cons] at hnodup
    obtain ⟨hnew, hnodup⟩ := hnodup
    rw [List.mem_cons, Prod.mk.injEq]
    by_cases h : key = first
    · subst h
      have hlater : (key, value) ∉ as := fun hmem => hnew (List.mem_map.mpr ⟨_, hmem, rfl⟩)
      simp [hlater, eq_comm]
    · have hother : (key == first) = false := by simpa using h
      rw [List.lookup_cons, hother]
      simpa [h] using ih hnodup

theorem hasValue_iff {name text : String} (htag : IsTag name text) {as : List (String × String)}
    (h : IsAttributes as text) (hnodup : (as.map Prod.fst).Nodup) {key value : String} :
    Tag.HasValue ⟨Utf8.encode (name ++ text)⟩ key value ↔ lookUp name key as = .ok value := by
  rw [← required_eq_lookUp (htag.attributes_eq h hnodup), required_eq_ok_iff (Utf8.valid_encode _)]

theorem lookUp_eq_of_perm {as as' : List (String × String)} (hnodup : (as.map Prod.fst).Nodup)
    (hnodup' : (as'.map Prod.fst).Nodup) {name : String}
    (h : (wanted name as).Perm (wanted name as')) :
    ∀ key ∈ lookedUp name, lookUp name key as = lookUp name key as' := by
  intro key hkey
  have hlookup : as.lookup key = as'.lookup key := by
    ext value
    have hmem := h.mem_iff (a := (key, value))
    simp only [wanted, List.mem_filter, hkey, decide_true, and_true] at hmem
    rw [lookup_eq_some_iff hnodup, lookup_eq_some_iff hnodup', hmem]
  rw [lookUp, lookUp, hlookup]

theorem expectName_eq {t : Tag} {name : String} (h : t.name = Utf8.encode name)
    (expected context : String) : expectName t expected context =
      if name = expected then .ok () else .error (.unknownElement name context) := by
  rw [expectName, h, decoded_eq_ok_iff.mpr rfl]
  rfl

namespace Place

variable {name : String} {t t' : Tag}

theorem enter_congr (ht : t.name = Utf8.encode name) (ht' : t'.name = Utf8.encode name)
    (h : ∀ key ∈ lookedUp name, required t name key = required t' name key) (p : Place) :
    p.enter t = p.enter t' := by
  cases p with
  | document found => simp only [enter, expectName_eq ht, expectName_eq ht']
  | catalogue found =>
    rw [enter, enter, expectName_eq ht, expectName_eq ht']
    by_cases hname : name = "node"
    · subst hname
      rw [h "name" (by decide)]
    · rw [if_neg hname]
      rfl
  | node found current =>
    rw [enter, enter, expectName_eq ht, expectName_eq ht']
    by_cases hname : name = "field"
    · subst hname
      rw [h "name" (by decide), h "type" (by decide)]
    · rw [if_neg hname]
      rfl
  | field found current nested => rfl

/-- The element whose tag is asked for attributes where reading stands. -/
def child? : Place → Option String
  | .catalogue _ => some "node"
  | .node _ _ => some "field"
  | .document _ | .field _ _ _ => none

variable {as : List (String × String)}

theorem enter_node_eq (ht : t.name = Utf8.encode "node") (h : t.attributes = as.map encoded)
    (found : Catalogue) : (catalogue found).enter t =
      (lookUp "node" "name" as).map fun name => .node found ⟨name, []⟩ := by
  rw [enter, expectName_eq ht, if_pos rfl, required_eq_lookUp h]
  cases lookUp "node" "name" as <;> rfl

theorem enter_field_eq (ht : t.name = Utf8.encode "field") (h : t.attributes = as.map encoded)
    (found : Catalogue) (current : Descriptor) : (node found current).enter t =
      lookUp "field" "name" as >>= fun name => (lookUp "field" "type" as).map fun type =>
        .field found (current.addField ⟨name, type⟩) 0 := by
  rw [enter, expectName_eq ht, if_pos rfl, required_eq_lookUp h, required_eq_lookUp h]
  cases lookUp "field" "name" as with
  | error e => rfl
  | ok name => cases lookUp "field" "type" as <;> rfl

theorem enter_cases {p : Place} (hp : p.child? = some name) (ht : t.name = Utf8.encode name)
    (h : t.attributes = as.map encoded) :
    (∃ q, p.enter t = .ok q ∧ ∀ key ∈ lookedUp name, ∃ value, lookUp name key as = .ok value) ∨
      ∃ key ∈ lookedUp name, ∃ e, lookUp name key as = .error e ∧ p.enter t = .error e := by
  cases p with
  | catalogue found =>
    cases hp
    rw [enter_node_eq ht h]
    cases hname : lookUp "node" "name" as with
    | error e => exact .inr ⟨"name", by decide, e, hname, rfl⟩
    | ok name => exact .inl ⟨_, rfl, by simp [lookedUp, hname]⟩
  | node found current =>
    cases hp
    rw [enter_field_eq ht h]
    cases hname : lookUp "field" "name" as with
    | error e => exact .inr ⟨"name", by decide, e, hname, rfl⟩
    | ok name =>
      cases htype : lookUp "field" "type" as with
      | error e => exact .inr ⟨"type", by decide, e, htype, rfl⟩
      | ok type => exact .inl ⟨_, rfl, by simp [lookedUp, hname, htype]⟩
  | document found => cases hp
  | field found current nested => cases hp

end Place

end FactoryMethods
