import FactoryMethods.Expansion.Expand
import FactoryMethods.Method.Factory

/-! Ways to generated source: from descriptors, from a catalogue document, and from what
a file holds. -/
namespace FactoryMethods

def generate (l : Dialect) (nodes : List Descriptor) : Outcome String :=
  (expand l factory nodes).map Listing.source

def generateDocument (l : Dialect) (document : String) : Outcome String :=
  match Catalogue.parse document with
  | .error e => .silent (.unreadable e)
  | .ok c => generate l c.descriptors

def generateFromXml (document : String) : Outcome String := generateDocument .java document

/-- The text in a file, from its bytes or from why they could not be had. -/
def textOf (content : Except FileFault Bytes) : Except FileFault String :=
  match content with
  | .error f => .error f
  | .ok bytes => (Utf8.decode bytes).mapError fun _ => .notText

def generateFromFile (content : Except FileFault Bytes) : Outcome String :=
  match textOf content with
  | .error f => .silent (.file f)
  | .ok document => generateFromXml document

end FactoryMethods
