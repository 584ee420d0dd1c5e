import FactoryMethods.Markup.Attribute
import FactoryMethods.Markup.Doctype
import FactoryMethods.Markup.Fault

/-! The events of a document. A lexer is fed one byte at a time; a byte that completes a tag,
a comment or another construct completes an event, and end tags have to close the element
opened last. -/
namespace FactoryMethods
namespace Markup

inductive Event
  | opening (tag : Tag)
  | selfClosing (tag : Tag)
  | closing (name : Bytes)
  /-- A comment, an instruction, a declaration, character data or a reference outside of tags. -/
  | ignorable
  deriving DecidableEq, Repr

/-- Bytes of the construct being read are held latest first, with those that start it; of a tag,
only its content. -/
inductive Mode
  | text
  | reference
  | markup
  | declaration
  | instruction (read : Bytes)
  | comment (read : Bytes)
  | cdata (read : Bytes)
  | doctype (phase : DoctypePhase) (read : Bytes)
  | tag (quote : Option UInt8) (read : Bytes)
  deriving DecidableEq, Repr

structure Lexer where
  mode : Mode := .text
  /-- The names of the open elements, innermost first. -/
  path : List Bytes := []
  deriving DecidableEq, Repr

/-- Text for a fault; bytes that encode none are left out. -/
def shown (bytes : Bytes) : String :=
  match Utf8.decode bytes with
  | .ok s => s
  | .error _ => ""

/-- What an instruction that reads `text` lacks. -/
def instructionFault (text : Bytes) : Fault :=
  if startsWith text "<?xml" then
    match text[5]? with
    | none => .openXmlDeclaration
    | some b => if isBlank b || b = question then .openXmlDeclaration else .openInstruction
  else .openInstruction

/-- Checks a complete document type declaration, its closing bracket left out. -/
def doctypeFault? (text : Bytes) : Option Fault :=
  if startsWith (text.map upper) "<!DOCTYPE" then
    if (text.drop 9).all isBlank then some .namelessDoctype else none
  else some .openDoctype

namespace Lexer

abbrev Result := Except Fault (Option Event × Lexer)

def turn (l : Lexer) (mode : Mode) : Result := .ok (none, { l with mode })

def emit (l : Lexer) (e : Event) : Result := .ok (some e, { l with mode := .text })

/-- Goes back to text, unless the construct just read is at fault. -/
def ignore (l : Lexer) : Option Fault → Result
  | none => l.emit .ignorable
  | some f => .error f

def closeElement (l : Lexer) (name : Bytes) : Result :=
  match l.path with
  | [] => .error (.strayEnd (shown name))
  | top :: outer =>
    if name = top then { l with path := outer }.emit (.closing name)
    else .error (.wrongEnd (shown top) (shown name))

def openElement (l : Lexer) (tag : Tag) : Result :=
  { l with path := tag.name :: l.path }.emit (.opening tag)

/-- A complete tag, given by its bytes, latest first. -/
def finishTag (l : Lexer) (read : Bytes) : Result :=
  if read.getLast? = some slash then l.closeElement (trimEnd (read.reverse.drop 1))
  else if read.head? = some slash then l.emit (.selfClosing ⟨read.tail.reverse⟩)
  else l.openElement ⟨read.reverse⟩

def feedTag (l : Lexer) (quote : Option UInt8) (read : Bytes) (b : UInt8) : Result :=
  if b = greater ∧ quote = none then l.finishTag read
  else l.turn (.tag (quoteAfter quote b) (b :: read))

def feedDeclaration (l : Lexer) (b : UInt8) : Result :=
  if b = hyphen then l.turn (.comment [hyphen, bang, less])
  else if b = leftBracket then l.turn (.cdata [leftBracket, bang, less])
  else if upper b = 0x44 then l.turn (.doctype (.external none) [b, bang, less])
  else .error .unknownDeclaration

def feed (l : Lexer) (b : UInt8) : Result :=
  match l.mode with
  | .text =>
    if b = less then l.turn .markup
    else if b = ampersand then l.turn .reference
    else l.turn .text
  | .reference =>
    if b = semicolon then l.emit .ignorable
    else if b = ampersand ∨ b = less then .error .openReference
    else l.turn .reference
  | .markup =>
    if b = question then l.turn (.instruction [question, less])
    else if b = bang then l.turn .declaration
    else l.feedTag none [] b
  | .declaration => l.feedDeclaration b
  | .instruction read =>
    if b = greater ∧ read.head? = some question then
      l.ignore (if read.length = 2 then some .openInstruction else none)
    else l.turn (.instruction (b :: read))
  | .comment read =>
    if b = greater ∧ read.take 2 = [hyphen, hyphen] ∧ 6 ≤ read.length then
      l.ignore (if startsWith read.reverse "<!--" then none else some .openComment)
    else l.turn (.comment (b :: read))
  | .cdata read =>
    if b = greater ∧ read.take 2 = [rightBracket, rightBracket] then
      l.ignore (if startsWith read.reverse "<![CDATA[" then none else some .openCData)
    else l.turn (.cdata (b :: read))
  | .doctype phase read =>
    match phase.feed b with
    | some phase => l.turn (.doctype phase (b :: read))
    | none => l.ignore (doctypeFault? read.reverse)
  | .tag quote read => l.feedTag quote read b

def endFault? (l : Lexer) : Option Fault :=
  match l.mode with
  | .text => none
  | .reference => some .openReference
  | .markup => some .openTag
  | .declaration => some .unknownDeclaration
  | .instruction read => some (instructionFault read.reverse)
  | .comment _ => some .openComment
  | .cdata _ => some .openCData
  | .doctype _ _ => some .openDoctype
  | .tag none _ => some .openTag
  | .tag (some q) _ => some (.openValue (Char.ofNat q.toNat))

def feedAll (l : Lexer) : Bytes → List Event × Except Fault Lexer
  | [] => ([], .ok l)
  | b :: rest =>
    match l.feed b with
    | .error f => ([], .error f)
    | .ok (none, l) => l.feedAll rest
    | .ok (some e, l) => (e :: (l.feedAll rest).1, (l.feedAll rest).2)

/-- The events of a whole document, and what is wrong with its markup. -/
def events (document : Bytes) : List Event × Option Fault :=
  let read := feedAll {} document
  match read.2 with
  | .error f => (read.1, some f)
  | .ok l => (read.1, l.endFault?)

@[simp] theorem feedAll_nil (l : Lexer) : l.feedAll [] = ([], .ok l) := rfl

theorem feedAll_append (l : Lexer) (a b : Bytes) :
    l.feedAll (a ++ b) =
      match l.feedAll a with
      | (es, .error f) => (es, .error f)
      | (es, .ok l) => (es ++ (l.feedAll b).1, (l.feedAll b).2) := by
  induction a generalizing l with
  | nil => rfl
  | cons x a ih =>
    simp only [List.cons_append, feedAll]
    cases l.feed x with
    | error f => rfl
    | ok r =>
      obtain ⟨e, l⟩ := r
      cases e with
      | none => exact ih l
      | some e =>
        simp only [ih l]
        cases h : l.feedAll a with
        | mk es r => cases r <;> rfl

end Lexer

end Markup
end FactoryMethods
