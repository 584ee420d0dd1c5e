import FactoryMethods.Text.Utf8

/-! The bytes that markup is made of. All of them are ASCII, so they never occur inside the encoding
of another character. -/
namespace FactoryMethods
namespace Markup

abbrev less : UInt8 := 0x3C
abbrev greater : UInt8 := 0x3E
abbrev ampersand : UInt8 := 0x26
abbrev semicolon : UInt8 := 0x3B
abbrev slash : UInt8 := 0x2F
abbrev bang : UInt8 := 0x21
abbrev question : UInt8 := 0x3F
abbrev hyphen : UInt8 := 0x2D
abbrev leftBracket : UInt8 := 0x5B
abbrev rightBracket : UInt8 := 0x5D
abbrev equals : UInt8 := 0x3D
abbrev quotationMark : UInt8 := 0x22
abbrev apostrophe : UInt8 := 0x27

/-- Space, tab, carriage return or line feed. -/
def isBlank (b : UInt8) : Bool := b = 0x20 ∨ b = 0x09 ∨ b = 0x0D ∨ b = 0x0A

def isQuote (b : UInt8) : Bool := b = quotationMark ∨ b = apostrophe

/-- Without the blanks at the end; blanks alone are left as they are. -/
def trimEnd (bytes : Bytes) : Bytes :=
  if bytes.all isBlank then bytes else (bytes.reverse.dropWhile isBlank).reverse

/-- The ASCII capital of a small ASCII letter, and any other byte itself. -/
def upper (b : UInt8) : UInt8 := if 0x61 ≤ b ∧ b ≤ 0x7A then b - 0x20 else b

end Markup
end FactoryMethods
