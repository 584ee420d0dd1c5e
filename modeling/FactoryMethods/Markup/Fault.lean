import FactoryMethods.Text.Utf8

/-! What can be wrong with markup. A fault is one of syntax, where a construct does not end; of
form, where constructs that end do not fit together; or of an attribute value: a reference in it, or
bytes that are no text. -/
namespace FactoryMethods
namespace Markup

/-- Positions are byte offsets in the value as it is written. -/
inductive ReferenceFault
  | unterminated (start stop : Nat)
  | unknown (start stop : Nat) (name : String)
  | sign
  | noDigits
  | badDigit
  | tooLarge
  | zero
  | notCharacter (code : Nat)
  deriving DecidableEq, Repr

def ReferenceFault.message : ReferenceFault → String
  | .unterminated start stop =>
    s!"Error while escaping character at range {start}..{stop}: Cannot find ';' after '&'"
  | .unknown start stop name => s!"at {start}..{stop}: unrecognized entity `{name}`"
  | .sign => "invalid character reference: unexpected number sign"
  | .noDigits => "invalid character reference: cannot parse integer from empty string"
  | .badDigit => "invalid character reference: invalid digit found in string"
  | .tooLarge => "invalid character reference: number too large to fit in target type"
  | .zero => "invalid character reference: 0x0 character is not permitted in XML"
  | .notCharacter code => s!"invalid character reference: `{code}` is not a valid codepoint"

inductive Fault
  | unknownDeclaration
  | openInstruction
  | openXmlDeclaration
  | openComment
  | openCData
  | openDoctype
  | openTag
  | openValue (quote : Char)
  | namelessDoctype
  | openReference
  | strayEnd (name : String)
  | wrongEnd (expected found : String)
  | reference (f : ReferenceFault)
  | encoding (f : Utf8.Fault)
  deriving DecidableEq, Repr

/-- Faults of an attribute value are of kind `escape`. -/
inductive FaultKind
  | syntactic | illFormed | escape
  deriving DecidableEq, Repr

namespace Fault

def kind : Fault → FaultKind
  | .namelessDoctype | .openReference | .strayEnd _ | .wrongEnd _ _ => .illFormed
  | .reference _ | .encoding _ => .escape
  | _ => .syntactic

/-- What is wrong, without the kind of fault. -/
def detail : Fault → String
  | .unknownDeclaration => "unknown or missed symbol in markup"
  | .openInstruction => "processing instruction not closed: `?>` not found before end of input"
  | .openXmlDeclaration => "XML declaration not closed: `?>` not found before end of input"
  | .openComment => "comment not closed: `-->` not found before end of input"
  | .openCData => "CDATA not closed: `]]>` not found before end of input"
  | .openDoctype => "DOCTYPE not closed: `>` not found before end of input"
  | .openTag => "tag not closed: `>` not found before end of input"
  | .openValue quote =>
    s!"attribute value not closed: `{quote}` not found before end of input"
  | .namelessDoctype =>
    "`<!DOCTYPE>` declaration does not contain a name of a document type"
  | .openReference =>
    "entity or character reference not closed: `;` not found before end of input"
  | .strayEnd name => s!"close tag `</{name}>` does not match any open tag"
  | .wrongEnd expected found => s!"expected `</{expected}>`, but `</{found}>` was found"
  | .reference f => f.message
  | .encoding f => s!"cannot decode input using UTF-8: {f.message}"

def message (f : Fault) : String :=
  match f.kind with
  | .syntactic => "syntax error: " ++ f.detail
  | .illFormed => "ill-formed document: " ++ f.detail
  | .escape => f.detail

end Fault

end Markup
end FactoryMethods
