import FactoryMethods.Markup.Byte

/-! The attributes of a tag. What is no attribute, a key without a quoted value or a key seen
before, is passed over, and reading goes on behind it. -/
namespace FactoryMethods
namespace Markup

/-- The value is as written, references and all. -/
structure Attribute where
  key : Bytes
  value : Bytes
  deriving DecidableEq, Repr

/-- Bytes collected so far are held latest first. -/
inductive AttributePhase
  | gap
  | key (read : Bytes)
  | afterKey (key : Bytes)
  | beforeValue (key : Bytes)
  | value (key : Bytes) (quote : UInt8) (read : Bytes)
  | skipping
  deriving DecidableEq, Repr

structure AttributeScan where
  phase : AttributePhase := .gap
  /-- Every key that was followed by an equals sign. -/
  keys : List Bytes := []
  /-- Latest first. -/
  found : List Attribute := []
  deriving DecidableEq, Repr

namespace AttributeScan

/-- An equals sign after `key`: a key seen before has no value, and its text runs to
the next blank. -/
def assign (s : AttributeScan) (key : Bytes) : AttributeScan :=
  if key ∈ s.keys then { s with phase := .skipping }
  else { s with phase := .beforeValue key, keys := key :: s.keys }

def feed (s : AttributeScan) (b : UInt8) : AttributeScan :=
  match s.phase with
  | .gap => if isBlank b then s else { s with phase := .key [b] }
  | .key read =>
    if b = equals then s.assign read.reverse
    else if isBlank b then { s with phase := .afterKey read.reverse }
    else { s with phase := .key (b :: read) }
  | .afterKey key =>
    if isBlank b then s
    else if b = equals then s.assign key
    else { s with phase := .key [b] }
  | .beforeValue key =>
    if isBlank b then s
    else if isQuote b then { s with phase := .value key b [] }
    else { s with phase := .skipping }
  | .value key quote read =>
    if b = quote then { s with phase := .gap, found := ⟨key, read.reverse⟩ :: s.found }
    else { s with phase := .value key quote (b :: read) }
  | .skipping => if isBlank b then { s with phase := .gap } else s

end AttributeScan

def attributesIn (bytes : Bytes) : List Attribute :=
  (bytes.foldl AttributeScan.feed {}).found.reverse

@[simp] theorem attributesIn_nil : attributesIn [] = [] := rfl

/-- A tag, given by what stands in it: a name and attributes. -/
structure Tag where
  content : Bytes
  deriving DecidableEq, Repr

namespace Tag

/-- All bytes before the first blank. -/
def name (t : Tag) : Bytes := t.content.takeWhile fun b => !isBlank b

def attributes (t : Tag) : List Attribute :=
  attributesIn (t.content.dropWhile fun b => !isBlank b)

end Tag

end Markup
end FactoryMethods
