import FactoryMethods.Catalogue.Basic
import FactoryMethods.Markup.Lexer
import FactoryMethods.Markup.Reference

/-! Catalogues in XML. A document holds one `catalogue` element, which holds `node` elements, each
with a `name`, which hold `field` elements, each with a `name` and a `type`; what a field holds is
passed over. A self-closing tag does what its start tag and end tag do one after the other. -/
namespace FactoryMethods

open Markup

inductive StructureFault
  | noCatalogue
  | manyCatalogues
  | openCatalogue
  | openNode (name : String)
  | other (message : String)
  deriving DecidableEq, Repr

def StructureFault.message : StructureFault → String
  | .noCatalogue => "No catalogue element found"
  | .manyCatalogues => "Multiple catalogue elements found"
  | .openCatalogue => "Unterminated catalogue element"
  | .openNode name => s!"Unterminated node element '{name}'"
  | .other message => message

inductive ReadError
  | markup (f : Markup.Fault)
  | missingAttribute (element key : String)
  | unknownElement (element context : String)
  | structural (f : StructureFault)
  | encoding (f : Utf8.Fault)
  deriving DecidableEq, Repr

def ReadError.message : ReadError → String
  | .markup f => s!"XML parsing error: {f.message}"
  | .missingAttribute element key =>
    s!"missing required attribute '{key}' on element '{element}'"
  | .unknownElement element context => s!"unknown element '{element}' in context '{context}'"
  | .structural f => s!"invalid catalogue structure: {f.message}"
  | .encoding f => s!"UTF-8 error: {f.message}"

/-- A name of a tag or a key, from its bytes. -/
def decoded (bytes : Bytes) : Except ReadError String := (Utf8.decode bytes).mapError .encoding

def attributeValue (a : Attribute) : Except ReadError String := do
  let value ← (Utf8.decode a.value).mapError fun f => .markup (.encoding f)
  (unescape value).mapError fun f => .markup (.reference f)

def valueOf? (key : String) : List Attribute → Except ReadError (Option String)
  | [] => .ok none
  | a :: rest => do
    let found ← decoded a.key
    if found = key then (attributeValue a).map some else valueOf? key rest

def required (tag : Tag) (element key : String) : Except ReadError String := do
  match ← valueOf? key tag.attributes with
  | some value => .ok value
  | none => .error (.missingAttribute element key)

/-- Requires the tag to have the one name that `context` allows in it. -/
def expectName (tag : Tag) (name context : String) : Except ReadError Unit := do
  let found ← decoded tag.name
  if found = name then .ok () else .error (.unknownElement found context)

/-- Where in a document reading stands, and what it has found so far. -/
inductive Place
  | document (found : Option Catalogue)
  | catalogue (found : Catalogue)
  | node (found : Catalogue) (current : Descriptor)
  /-- Inside a field, in `nested` elements that are passed over; a signed counter of 32 bits agrees
  with this number below `2 ^ 31`. -/
  | field (found : Catalogue) (current : Descriptor) (nested : Nat)
  deriving DecidableEq, Repr

namespace Place

def enter (p : Place) (tag : Tag) : Except ReadError Place :=
  match p with
  | .document found => do
    expectName tag "catalogue" "document"
    match found with
    | none => .ok (.catalogue {})
    | some _ => .error (.structural .manyCatalogues)
  | .catalogue found => do
    expectName tag "node" "catalogue"
    let name ← required tag "node" "name"
    .ok (.node found ⟨name, []⟩)
  | .node found current => do
    expectName tag "field" "node"
    let name ← required tag "field" "name"
    let type ← required tag "field" "type"
    .ok (.field found (current.addField ⟨name, type⟩) 0)
  | .field found current nested => .ok (.field found current (nested + 1))

def leave : Place → Place
  | .document found => .document found
  | .catalogue found => .document (some found)
  | .node found current => .catalogue (found.add current)
  | .field found current 0 => .node found current
  | .field found current (nested + 1) => .field found current nested

def step (p : Place) : Event → Except ReadError Place
  | .opening tag => p.enter tag
  | .selfClosing tag => (p.enter tag).map leave
  | .closing _ => .ok p.leave
  | .ignorable => .ok p

def finish : Place → Except ReadError Catalogue
  | .document (some found) => .ok found
  | .document none => .error (.structural .noCatalogue)
  | .catalogue _ => .error (.structural .openCatalogue)
  | .node _ current | .field _ current _ => .error (.structural (.openNode current.name))

end Place

structure Reader where
  lexer : Lexer := {}
  place : Place := .document none
  deriving DecidableEq, Repr

namespace Reader

def feed (r : Reader) (b : UInt8) : Except ReadError Reader :=
  match r.lexer.feed b with
  | .error f => .error (.markup f)
  | .ok (none, lexer) => .ok ⟨lexer, r.place⟩
  | .ok (some e, lexer) => (r.place.step e).map fun place => ⟨lexer, place⟩

def feedAll (r : Reader) (bytes : Bytes) : Except ReadError Reader := bytes.foldlM feed r

def finish (r : Reader) : Except ReadError Catalogue :=
  match r.lexer.endFault? with
  | some f => .error (.markup f)
  | none => r.place.finish

end Reader

namespace Catalogue

def parseBytes (bytes : Bytes) : Except ReadError Catalogue := do
  let r ← Reader.feedAll {} bytes
  r.finish

def parse (document : String) : Except ReadError Catalogue := parseBytes (Utf8.encode document)

end Catalogue

end FactoryMethods
