import FactoryMethods.Catalogue.Printer
import FactoryMethods.Proofs.Catalogue.Acceptance
import FactoryMethods.Proofs.Catalogue.Lookup
import FactoryMethods.Proofs.Markup.Values

/-! Reading a catalogue that was written. The document of a catalogue has the events of its
elements, and these elements are derived by the grammar as that very catalogue. -/
namespace FactoryMethods

open Markup

theorem hasValue_of_escaped {name text : String} (htag : IsTag name text)
    {as : List (String × String)} (h : IsAttributes as text) (hnodup : (as.map Prod.fst).Nodup)
    {key value : String} (hmem : (key, escape value) ∈ as) :
    Tag.HasValue ⟨Utf8.encode (name ++ text)⟩ key value := by
  have hlookup := (lookup_eq_some_iff hnodup).mpr hmem
  refine (hasValue_iff htag h hnodup).mpr ?_
  simp only [lookUp, hlookup, unescape_escape]
  rfl

namespace Field

def attributes (f : Field) : List (String × String) :=
  [("name", escape f.name), ("type", escape f.type)]

def tag (f : Field) : Tag := ⟨Utf8.encode ("field" ++ marked f.attributes)⟩

theorem toXml_eq (f : Field) : f.toXml = emptyTag "field" (marked f.attributes) := by
  simp [toXml, emptyTag, marked, attributes, written, ← String.append_assoc]

theorem isAttributes (f : Field) : IsAttributes f.attributes (marked f.attributes) := by
  have hname : IsAttributeKey "name" := by decide
  have htype : IsAttributeKey "type" := by decide
  refine isAttributes_marked ?_
  simp [attributes, hname, htype, quotationMark_not_mem_escape]

theorem isTag (f : Field) : IsTag "field" (marked f.attributes) :=
  f.isAttributes.isTag (isTag_of_mem (by decide))

theorem isField_tag (f : Field) : f.tag.IsField f := by
  have hnodup : (f.attributes.map Prod.fst).Nodup := by simp [attributes]
  exact ⟨f.isTag.tag_name, hasValue_of_escaped f.isTag f.isAttributes hnodup (by simp [attributes]),
    hasValue_of_escaped f.isTag f.isAttributes hnodup (by simp [attributes])⟩

def forest (fs : List Field) : Forest := fs.foldr (fun f next => .leaf f.tag next) .nil

theorem isFields_forest (fs : List Field) : IsFields (forest fs) fs := by
  induction fs with
  | nil => exact .nil
  | cons f fs ih => exact .leaf f.isField_tag ih

theorem reads_forest (fs : List Field) (path : List Bytes) :
    Lexer.Reads ⟨.text, path⟩ (Utf8.encode (String.join (fs.map toXml))) (forest fs).events
      ⟨.text, path⟩ := by
  induction fs with
  | nil => exact Lexer.Reads.nil _
  | cons f fs ih =>
    rw [List.map_cons, String.join_cons, Utf8.encode_append, toXml_eq]
    exact (f.isTag.reads_emptyTag path).append ih

end Field

namespace Descriptor

def attributes (d : Descriptor) : List (String × String) := [("name", escape d.name)]

def tag (d : Descriptor) : Tag := ⟨Utf8.encode ("node" ++ marked d.attributes)⟩

theorem toXml_eq (d : Descriptor) : d.toXml = startTag "node" (marked d.attributes) ++
    String.join (d.fields.map Field.toXml) ++ endTag "node" := by
  simp [toXml, startTag, endTag, marked, attributes, written, ← String.append_assoc]

theorem isAttributes (d : Descriptor) : IsAttributes d.attributes (marked d.attributes) := by
  have hname : IsAttributeKey "name" := by decide
  refine isAttributes_marked ?_
  simp [attributes, hname, quotationMark_not_mem_escape]

theorem isTag (d : Descriptor) : IsTag "node" (marked d.attributes) :=
  d.isAttributes.isTag (isTag_of_mem (by decide))

theorem isNode_tag (d : Descriptor) : d.tag.IsNode d.name := by
  have hnodup : (d.attributes.map Prod.fst).Nodup := by simp [attributes]
  exact ⟨d.isTag.tag_name, hasValue_of_escaped d.isTag d.isAttributes hnodup (by simp [attributes])⟩

def forest (ds : List Descriptor) : Forest :=
  ds.foldr (fun d next => .element d.tag (Field.forest d.fields) next) .nil

theorem isNodes_forest (ds : List Descriptor) : IsNodes (forest ds) ds := by
  induction ds with
  | nil => exact .nil
  | cons d ds ih => exact .element d.isNode_tag (Field.isFields_forest d.fields) ih

theorem reads_forest (ds : List Descriptor) (path : List Bytes) :
    Lexer.Reads ⟨.text, path⟩ (Utf8.encode (String.join (ds.map toXml))) (forest ds).events
      ⟨.text, path⟩ := by
  induction ds with
  | nil => exact Lexer.Reads.nil _
  | cons d ds ih =>
    have hd := d.isTag.reads_element (Field.reads_forest d.fields (Utf8.encode "node" :: path))
    rw [List.map_cons, String.join_cons, Utf8.encode_append, toXml_eq]
    simpa [forest, Forest.events, tag] using hd.append ih

end Descriptor

namespace Catalogue

def tag : Tag := ⟨Utf8.encode ("catalogue" ++ "")⟩

theorem isTag : IsTag "catalogue" "" := isTag_of_mem (by decide)

theorem toXml_eq (c : Catalogue) : c.toXml = startTag "catalogue" "" ++
    String.join (c.descriptors.map Descriptor.toXml) ++ endTag "catalogue" := by
  simp [toXml, startTag, endTag]

def forest (c : Catalogue) : Forest := .element tag (Descriptor.forest c.descriptors) .nil

theorem isDocument_forest (c : Catalogue) : IsDocument c.forest c :=
  .element isTag.tag_name (Descriptor.isNodes_forest c.descriptors)

theorem events_toXml (c : Catalogue) :
    Lexer.events (Utf8.encode c.toXml) = (c.forest.events, none) := by
  have hnodes := Descriptor.reads_forest c.descriptors [Utf8.encode "catalogue"]
  have hread := isTag.reads_element hnodes
  rw [← toXml_eq, Lexer.Reads] at hread
  rw [Lexer.events, hread]
  rfl

/-- Whatever its texts are, a catalogue comes back from the document that it was written as. -/
theorem parse_toXml (c : Catalogue) : parse c.toXml = .ok c := by
  have hencoded := Lexer.events_encoded c.toXml
  rw [parse, parseBytes_eq_ok_iff]
  rw [events_toXml] at hencoded ⊢
  exact ⟨rfl, (Place.stepAll_document_iff hencoded).mpr c.isDocument_forest⟩

end Catalogue
end FactoryMethods
