import FactoryMethods.Proofs.Catalogue.Finality
import FactoryMethods.Proofs.Catalogue.Lookup
import FactoryMethods.Proofs.Markup.Values
import FactoryMethods.Proofs.Source.Lines

/-! Documents that are texts. Of a document the names of tags are decoded and the keys and values in
them. In a text all of these are texts again, so decoding never fails, and what is read consists of
the characters of such values and of those that references in them stand for. -/
namespace FactoryMethods

open Markup

namespace Markup

/-- The name of a tag and its attributes, as texts. -/
structure Tag.Spells (t : Tag) (name : String) (as : List (String × String)) : Prop where
  name : t.name = Utf8.encode name
  attributes : t.attributes = as.map encoded

theorem Event.Encoded.exists_spells {e : Event} (h : e.Encoded) {t : Tag} (ht : e.tag? = some t) :
    ∃ name as, t.Spells name as := by
  have hvalid : Utf8.Valid t.content := by
    cases e with
    | opening tag | selfClosing tag =>
      cases ht
      exact h
    | closing name | ignorable => cases ht
  obtain ⟨name, hname⟩ := t.valid_name hvalid
  obtain ⟨as, has⟩ := exists_encoded (t.valid_attributes hvalid)
  exact ⟨name, as, hname.symm, has⟩

/-- A text that a tag has as the value of a key which it is asked for. -/
def Tag.Gives (t : Tag) (s : String) : Prop :=
  ∃ name as key raw, t.Spells name as ∧ key ∈ lookedUp name ∧ as.lookup key = some raw ∧
    Resolves raw.toList s.toList

end Markup

/-- What a text is refused for: its markup, a reference, an attribute, an element or
its structure. -/
inductive ReadError.OfDocument : ReadError → Prop
  | markup {f : Fault} (hf : ∀ e, f ≠ .encoding e) : OfDocument (.markup f)
  | missingAttribute (element key : String) : OfDocument (.missingAttribute element key)
  | unknownElement (element context : String) : OfDocument (.unknownElement element context)
  | structural (f : StructureFault) : OfDocument (.structural f)

section Lookup

variable {element key s raw : String} {as : List (String × String)}

theorem lookUp_of_lookup (h : as.lookup key = some raw) :
    lookUp element key as = (unescape raw).mapError fun f => .markup (.reference f) := by
  rw [lookUp, h]

theorem exists_raw_of_lookUp (h : lookUp element key as = .ok s) :
    ∃ raw, as.lookup key = some raw ∧ Resolves raw.toList s.toList := by
  cases hlookup : as.lookup key with
  | none =>
    rw [lookUp, hlookup] at h
    cases h
  | some raw =>
    rw [lookUp_of_lookup hlookup, mapError_eq_ok_iff, unescape_eq_ok_iff] at h
    exact ⟨raw, rfl, h⟩

theorem error_cases_of_lookUp {e : ReadError} (h : lookUp element key as = .error e) :
    as.lookup key = none ∧ e = .missingAttribute element key ∨ ∃ f, e = .markup (.reference f) := by
  cases hlookup : as.lookup key with
  | none =>
    rw [lookUp, hlookup] at h
    cases h
    exact .inl ⟨rfl, rfl⟩
  | some raw =>
    rw [lookUp_of_lookup hlookup] at h
    cases hraw : unescape raw with
    | ok s =>
      rw [hraw] at h
      cases h
    | error f =>
      rw [hraw] at h
      cases h
      exact .inr ⟨f, rfl⟩

theorem exists_fault_of_mentions {code : Nat} (h : as.lookup key = some raw)
    (hcode : Mentions raw.toList code) (hbad : 0xD800 ≤ code ∧ code ≤ 0xDFFF ∨ 0x10FFFF < code) :
    ∃ f, lookUp element key as = .error (.markup (.reference f)) := by
  rw [lookUp_of_lookup h]
  cases hraw : unescape raw with
  | error f => exact ⟨f, rfl⟩
  | ok s =>
    obtain ⟨c, -, rfl⟩ := (unescape_eq_ok_iff.mp hraw).exists_char hcode
    have hvalid : c.toNat.isValidChar := c.valid
    unfold Nat.isValidChar at hvalid
    omega

end Lookup

namespace Place

def strings : Place → List String
  | document found => (found.getD {}).descriptors.flatMap Descriptor.strings
  | catalogue found => found.descriptors.flatMap Descriptor.strings
  | node found current | field found current _ =>
    (found.add current).descriptors.flatMap Descriptor.strings

theorem strings_leave (p : Place) : p.leave.strings = p.strings := by
  cases p with
  | field found current nested => cases nested <;> rfl
  | _ => rfl

variable {p q : Place} {t : Tag} {name key raw : String} {as : List (String × String)}

theorem enter_of_other {due : String} (hp : p.child? = some due) (ht : t.Spells name as)
    (hname : name ≠ due) : ∃ context, p.enter t = .error (.unknownElement name context) := by
  cases p with
  | catalogue found =>
    cases hp
    refine ⟨"catalogue", ?_⟩
    rw [enter, expectName_eq ht.name, if_neg hname]
    rfl
  | node found current =>
    cases hp
    refine ⟨"node", ?_⟩
    rw [enter, expectName_eq ht.name, if_neg hname]
    rfl
  | document found => cases hp
  | field found current nested => cases hp

theorem ofDocument_of_enter (ht : t.Spells name as) {e : ReadError} (h : p.enter t = .error e) :
    e.OfDocument := by
  have hdue {due : String} (hp : p.child? = some due) : e.OfDocument := by
    by_cases hname : name = due
    · subst hname
      rcases enter_cases hp ht.name ht.attributes with ⟨q, hq, -⟩ | ⟨key, -, e', he', hrefused⟩
      · rw [hq] at h
        cases h
      · obtain rfl := Except.error.inj (hrefused.symm.trans h)
        rcases error_cases_of_lookUp he' with ⟨-, rfl⟩ | ⟨f, rfl⟩
        · exact .missingAttribute _ _
        · exact .markup (by simp)
    · obtain ⟨context, hother⟩ := enter_of_other hp ht hname
      obtain rfl := Except.error.inj (hother.symm.trans h)
      exact .unknownElement _ _
  cases p with
  | document found =>
    simp only [enter, expectName_eq ht.name] at h
    by_cases hname : name = "catalogue"
    · rw [if_pos hname] at h
      cases found with
      | none => cases h
      | some c =>
        cases h
        exact .structural _
    · rw [if_neg hname] at h
      cases h
      exact .unknownElement _ _
  | catalogue found => exact hdue rfl
  | node found current => exact hdue rfl
  | field found current nested => cases h

theorem eq_of_enter_node (ht : t.Spells name as) {found : Catalogue}
    (h : (catalogue found).enter t = .ok q) :
    name = "node" ∧ ∃ s, lookUp "node" "name" as = .ok s ∧ q = .node found ⟨s, []⟩ := by
  have hdue : (catalogue found).child? = some "node" := rfl
  by_cases hname : name = "node"
  · subst hname
    rw [enter_node_eq ht.name ht.attributes, map_eq_ok_iff] at h
    obtain ⟨s, hs, rfl⟩ := h
    exact ⟨rfl, s, hs, rfl⟩
  · obtain ⟨context, hother⟩ := enter_of_other hdue ht hname
    rw [hother] at h
    cases h

theorem eq_of_enter_field (ht : t.Spells name as) {found : Catalogue} {current : Descriptor}
    (h : (node found current).enter t = .ok q) : name = "field" ∧ ∃ f : Field,
      lookUp "field" "name" as = .ok f.name ∧ lookUp "field" "type" as = .ok f.type ∧
        q = .field found (current.addField f) 0 := by
  have hdue : (node found current).child? = some "field" := rfl
  by_cases hname : name = "field"
  · subst hname
    rw [enter_field_eq ht.name ht.attributes, bind_eq_ok_iff] at h
    obtain ⟨s, hs, h⟩ := h
    obtain ⟨type, htype, rfl⟩ := map_eq_ok_iff.mp h
    exact ⟨rfl, ⟨s, type⟩, hs, htype, rfl⟩
  · obtain ⟨context, hother⟩ := enter_of_other hdue ht hname
    rw [hother] at h
    cases h

theorem gives_of_lookUp (ht : t.Spells name as) {s : String} (hkey : key ∈ lookedUp name)
    (h : lookUp name key as = .ok s) : t.Gives s := by
  obtain ⟨raw, hraw, hs⟩ := exists_raw_of_lookUp h
  exact ⟨name, as, key, raw, ht, hkey, hraw, hs⟩

/-- A tag adds nothing but what it gives. -/
theorem strings_enter (ht : t.Spells name as) (h : p.enter t = .ok q) :
    ∀ s ∈ q.strings, s ∈ p.strings ∨ t.Gives s := by
  cases p with
  | document found =>
    obtain ⟨-, rfl, rfl⟩ := enter_document_eq_ok_iff.mp h
    simp [strings]
  | catalogue found =>
    obtain ⟨rfl, s, hs, rfl⟩ := eq_of_enter_node ht h
    have hgives := gives_of_lookUp ht (by decide) hs
    simp only [strings, Catalogue.add_descriptors, List.flatMap_append, List.mem_append]
    rintro s' (hs' | hs')
    · exact .inl hs'
    · obtain rfl : s' = s := by simpa [Descriptor.strings] using hs'
      exact .inr hgives
  | node found current =>
    obtain ⟨rfl, f, hname, htype, rfl⟩ := eq_of_enter_field ht h
    have hname' := gives_of_lookUp ht (by decide) hname
    have htype' := gives_of_lookUp ht (by decide) htype
    have hstrings : (current.addField f).strings = current.strings ++ [f.name, f.type] := by
      simp [Descriptor.strings]
    simp only [strings, Catalogue.add_descriptors, List.flatMap_append, List.flatMap_singleton,
      hstrings, List.mem_append, List.mem_cons, List.not_mem_nil, or_false]
    rintro s (hs | hs | rfl | rfl)
    · exact .inl (.inl hs)
    · exact .inl (.inr hs)
    · exact .inr hname'
    · exact .inr htype'
  | field found current nested =>
    cases h
    exact fun s hs => .inl hs

theorem strings_step {e : Event} (he : e.Encoded) (h : p.step e = .ok q) :
    ∀ s ∈ q.strings, s ∈ p.strings ∨ ∃ t, e.tag? = some t ∧ t.Gives s := by
  have hentered {t : Tag} (ht : e.tag? = some t) {q : Place} (hq : p.enter t = .ok q) :
      ∀ s ∈ q.strings, s ∈ p.strings ∨ ∃ t, e.tag? = some t ∧ t.Gives s := by
    obtain ⟨name, as, hspells⟩ := he.exists_spells ht
    exact fun s hs => (strings_enter hspells hq s hs).imp_right fun hgives => ⟨t, ht, hgives⟩
  cases e with
  | opening tag => exact hentered rfl h
  | selfClosing tag =>
    obtain ⟨q, hq, rfl⟩ := map_eq_ok_iff.mp h
    rw [strings_leave]
    exact hentered rfl hq
  | closing name =>
    cases h
    rw [strings_leave]
    exact fun s hs => .inl hs
  | ignorable =>
    cases h
    exact fun s hs => .inl hs

theorem strings_stepAll {es : List Event} (hes : ∀ e ∈ es, e.Encoded) (h : p.stepAll es = .ok q) :
    ∀ s ∈ q.strings, s ∈ p.strings ∨ ∃ e ∈ es, ∃ t, e.tag? = some t ∧ t.Gives s := by
  induction es generalizing p with
  | nil =>
    cases h
    exact fun s hs => .inl hs
  | cons e es ih =>
    rw [List.forall_mem_cons] at hes
    obtain ⟨m, hm, hrest⟩ := bind_eq_ok_iff.mp h
    intro s hs
    rcases ih hes.2 hrest s hs with hs | ⟨e', he', hgives⟩
    · rcases strings_step hes.1 hm s hs with hs | hgives
      · exact .inl hs
      · exact .inr ⟨e, List.mem_cons_self, hgives⟩
    · exact .inr ⟨e', List.mem_cons_of_mem _ he', hgives⟩

theorem ofDocument_of_stepAll {es : List Event} (hes : ∀ e ∈ es, e.Encoded) {error : ReadError}
    (h : p.stepAll es = .error error) : error.OfDocument := by
  induction es generalizing p with
  | nil => cases h
  | cons e es ih =>
    rw [List.forall_mem_cons] at hes
    rw [stepAll_cons] at h
    cases hstep : p.step e with
    | ok m =>
      rw [hstep] at h
      exact ih hes.2 h
    | error e' =>
      rw [hstep] at h
      cases h
      obtain ⟨t, ht, henter⟩ := step_eq_error hstep
      obtain ⟨name, as, hspells⟩ := hes.1.exists_spells ht
      exact ofDocument_of_enter hspells henter

theorem ofDocument_of_finish {e : ReadError} (h : p.finish = .error e) : e.OfDocument := by
  cases p with
  | document found =>
    cases found with
    | none =>
      cases h
      exact .structural _
    | some c => cases h
  | _ =>
    cases h
    exact .structural _

/-- A value that is decoded where the tag is due: the tag is asked for its key, and has values for
all keys that it is asked for before. -/
structure Asks (p : Place) (t : Tag) (name : String) (as : List (String × String)) (raw : String) :
    Prop where
  child : p.child? = some name
  spells : t.Spells name as
  value : ∃ earlier key later, lookedUp name = earlier ++ key :: later ∧
    (∀ k ∈ earlier, ∃ raw, as.lookup k = some raw) ∧ as.lookup key = some raw

/-- The tag is refused for such a reference, or for a fault in a value that it is
asked for before. -/
theorem Asks.exists_fault (h : p.Asks t name as raw) {code : Nat} (hcode : Mentions raw.toList code)
    (hbad : 0xD800 ≤ code ∧ code ≤ 0xDFFF ∨ 0x10FFFF < code) :
    ∃ f, p.enter t = .error (.markup (.reference f)) := by
  obtain ⟨hchild, ht, earlier, key, later, hkeys, hearlier, hlookup⟩ := h
  obtain ⟨f, hf⟩ : ∃ f, lookUp name key as = .error (.markup (.reference f)) :=
    exists_fault_of_mentions hlookup hcode hbad
  cases p with
  | catalogue found =>
    cases hchild
    rw [enter_node_eq ht.name ht.attributes]
    rcases earlier with _ | ⟨k, earlier⟩
    · obtain ⟨rfl, -⟩ := List.cons.inj hkeys
      exact ⟨f, by rw [hf]; rfl⟩
    · simp [lookedUp] at hkeys
  | node found current =>
    cases hchild
    rw [enter_field_eq ht.name ht.attributes]
    rcases earlier with _ | ⟨k, _ | ⟨k', earlier⟩⟩
    · obtain ⟨rfl, -⟩ := List.cons.inj hkeys
      exact ⟨f, by rw [hf]; rfl⟩
    · obtain ⟨rfl, htype⟩ := List.cons.inj hkeys
      obtain ⟨rfl, -⟩ := List.cons.inj htype
      cases hname : lookUp "field" "name" as with
      | ok s => exact ⟨f, by rw [hf]; rfl⟩
      | error e =>
        rcases error_cases_of_lookUp hname with ⟨hnone, -⟩ | ⟨f', rfl⟩
        · obtain ⟨raw', hraw'⟩ := hearlier "name" (by simp)
          rw [hnone] at hraw'
          cases hraw'
        · exact ⟨f', rfl⟩
    · simp [lookedUp] at hkeys
  | document found => cases hchild
  | field found current nested => cases hchild

end Place

namespace Catalogue

theorem parse_of_step_error {text : String} {before after : List Event} {e : Event} {p : Place}
    {error : ReadError} (hevents : (Lexer.events (Utf8.encode text)).1 = before ++ e :: after)
    (hbefore : (Place.document none).stepAll before = .ok p) (h : p.step e = .error error) :
    parse text = .error error := by
  rw [parse, parseBytes_eq, hevents, Place.stepAll_append, hbefore]
  show ((p.step e >>= _) >>= _) = _
  rw [h]
  rfl

theorem ofDocument_of_parse {text : String} {e : ReadError} (h : parse text = .error e) :
    e.OfDocument := by
  rw [parse, parseBytes_eq] at h
  cases hread : (Place.document none).stepAll (Lexer.events (Utf8.encode text)).1 with
  | error e' =>
    rw [hread] at h
    cases h
    exact Place.ofDocument_of_stepAll (Lexer.events_encoded text) hread
  | ok p =>
    rw [hread] at h
    cases hfault : (Lexer.events (Utf8.encode text)).2 with
    | some f =>
      simp only [hfault] at h
      cases h
      refine .markup fun e he => Lexer.kind_events hfault ?_
      rw [he]
      rfl
    | none =>
      simp only [hfault] at h
      exact Place.ofDocument_of_finish h

theorem gives_of_parse {text : String} {c : Catalogue} (h : parse text = .ok c) :
    ∀ d ∈ c.descriptors, ∀ s ∈ d.strings,
      ∃ e ∈ (Lexer.events (Utf8.encode text)).1, ∃ t, e.tag? = some t ∧ t.Gives s := by
  obtain ⟨-, hread⟩ := parseBytes_eq_ok_iff.mp h
  intro d hd s hs
  have hmem : s ∈ (Place.document (some c)).strings := List.mem_flatMap.mpr ⟨d, hd, hs⟩
  rcases Place.strings_stepAll (Lexer.events_encoded text) hread s hmem with hnone | hgives
  · cases hnone
  · exact hgives

/-- Decoding never fails on a text: names, keys and values are texts, and what is read has
been given by them or by references in them. A reference to a surrogate or beyond the last
character is refused. -/
theorem decoding_never_fails (text : String) :
    let events := (Lexer.events (Utf8.encode text)).1
    (∀ error, parse text = .error error → error.OfDocument) ∧
    (∀ e ∈ events, ∀ t, e.tag? = some t → ∃ name as, t.Spells name as) ∧
    (∀ c, parse text = .ok c → ∀ d ∈ c.descriptors, ∀ s ∈ d.strings,
      ∃ e ∈ events, ∃ t, e.tag? = some t ∧ t.Gives s) ∧
    ∀ before e after p t name as raw code, events = before ++ e :: after →
      (Place.document none).stepAll before = .ok p → e.tag? = some t → p.Asks t name as raw →
      Mentions raw.toList code → (0xD800 ≤ code ∧ code ≤ 0xDFFF ∨ 0x10FFFF < code) →
      ∃ f, parse text = .error (.markup (.reference f)) := by
  refine ⟨fun error => ofDocument_of_parse,
    fun e he t => (Lexer.events_encoded text e he).exists_spells,
    fun c => gives_of_parse, ?_⟩
  intro before e after p t name as raw code hevents hbefore ht hasks hcode hbad
  obtain ⟨f, hf⟩ := hasks.exists_fault hcode hbad
  have hstep : p.step e = .error (.markup (.reference f)) := by
    cases e with
    | opening tag =>
      cases ht
      exact hf
    | selfClosing tag =>
      cases ht
      rw [Place.step, hf]
      rfl
    | closing _ | ignorable => cases ht
  exact ⟨f, parse_of_step_error hevents hbefore hstep⟩

/-- Characters of up to four bytes in a key and in values, and a reference to a surrogate. -/
theorem decoding_never_fails_surrogate :
    let text := "<catalogue><node größe='é' name='&#x1D11E;ä'/></catalogue>"
    let tag : Tag := ⟨Utf8.encode "node größe='é' name='&#x1D11E;ä'"⟩
    let refused := "<catalogue><node name='&#xD800;'/>"
    let e := ReadError.markup (.reference (.notCharacter 0xD800))
    (∃ name as, tag.Spells name as) ∧ parse text = .ok ⟨[⟨"𝄞ä", []⟩]⟩ ∧
      (∃ e ∈ (Lexer.events (Utf8.encode text)).1, ∃ t, e.tag? = some t ∧ t.Gives "𝄞ä") ∧
      parse refused = .error e ∧ e.OfDocument ∧
      ∃ f, parse refused = .error (.markup (.reference f)) := by
  intro text tag refused e
  obtain ⟨-, hspells, hgives, -⟩ := decoding_never_fails text
  obtain ⟨hdocument, -, -, hescape⟩ := decoding_never_fails refused
  have hread : parse text = .ok ⟨[⟨"𝄞ä", []⟩]⟩ := by rfl
  have hrefused : parse refused = .error e := by rfl
  let start : Event := .opening ⟨Utf8.encode "catalogue"⟩
  let asked : Tag := ⟨Utf8.encode "node name='&#xD800;'"⟩
  have hevents : (Lexer.events (Utf8.encode text)).1 =
      [start, .selfClosing tag, .closing (Utf8.encode "catalogue")] := by rfl
  have hevents' : (Lexer.events (Utf8.encode refused)).1 =
      [start] ++ .selfClosing asked :: [] := by rfl
  have hstart : (Place.document none).stepAll [start] = .ok (.catalogue {}) := by rfl
  have hasks : (Place.catalogue {}).Asks asked "node" [("name", "&#xD800;")] "&#xD800;" :=
    ⟨rfl, ⟨by rfl, by rfl⟩, [], "name", [], rfl, by simp, rfl⟩
  have hcode : Mentions "&#xD800;".toList 0xD800 :=
    ⟨[], "#xD800".toList, [], .hexadecimal ⟨by decide, [13, 8, 0, 0], by rfl, by rfl⟩, by rfl⟩
  exact ⟨hspells (.selfClosing tag) (by rw [hevents]; simp) tag rfl, hread,
    hgives _ hread ⟨"𝄞ä", []⟩ (by simp) "𝄞ä" (by decide), hrefused, hdocument e hrefused,
    hescape _ _ _ _ _ _ _ _ _ hevents' hstart rfl hasks hcode (.inl (by decide))⟩

/-- Bytes that are no text may fail to be decoded. -/
example :
    parseBytes (Utf8.encode "<catalogue><node name='" ++ 0xFF :: Utf8.encode "'/></catalogue>") =
      .error (.markup (.encoding ⟨0, some 1⟩)) := by rfl

end Catalogue
end FactoryMethods
