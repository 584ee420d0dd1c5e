import FactoryMethods.Catalogue.Defect
import FactoryMethods.Catalogue.Document

/-! Why no source is made. A failure that names a descriptor keeps that name wherever it is passed
on; any other one raised by a method is put inside an expansion failure that names it. -/
namespace FactoryMethods

/-- Why a file gives no text. -/
inductive FileFault
  | notFound
  | isDirectory
  | notText
  | other (message : String)
  deriving DecidableEq, Repr

def FileFault.message : FileFault → String
  | .notFound => "No such file or directory (os error 2)"
  | .isDirectory => "Is a directory (os error 21)"
  | .notText => "stream did not contain valid UTF-8"
  | .other message => message

/-- An index is a position in the catalogue; a name there is one to show. -/
inductive Failure
  | unreadable (cause : ReadError)
  | file (cause : FileFault)
  | malformed (index : Nat) (name : String) (cause : Defect)
  | unbalanced (index : Nat) (name : String) (opened closed : Nat)
  | expansion (index : Nat) (name : String) (cause : Failure)
  | generation (message : String)
  deriving DecidableEq, Repr

/-- The name shown for a descriptor, which may be empty. -/
def displayName (name : String) : String := if name = "" then "<unnamed>" else name

namespace Failure

def message : Failure → String
  | .unreadable cause => s!"catalogue parse error: {cause.message}"
  | .file cause => s!"IO error: {cause.message}"
  | .malformed index name cause => s!"malformed descriptor #{index} '{name}': {cause.message}"
  | .unbalanced index name opened closed =>
    s!"unbalanced blocks in method for descriptor #{index} '{name}': " ++
      s!"opened {opened}, closed {closed}"
  | .expansion index name cause =>
    s!"failed to expand descriptor #{index} '{name}': {cause.message}"
  | .generation message => s!"generation error: {message}"

/-- The position of the descriptor that the failure names. -/
def index? : Failure → Option Nat
  | .malformed index _ _ | .unbalanced index _ _ _ | .expansion index _ _ => some index
  | .unreadable _ | .file _ | .generation _ => none

/-- Names the descriptor in which the failure came up, unless it names one. -/
def inDescriptor (f : Failure) (index : Nat) (name : String) : Failure :=
  if f.index?.isSome then f else .expansion index (displayName name) f

theorem index?_inDescriptor (f : Failure) (index : Nat) (name : String) :
    (f.inDescriptor index name).index? = some (f.index?.getD index) := by
  cases f <;> rfl

end Failure

end FactoryMethods
