import FactoryMethods.Markup.Byte

/-! The extent of a document type declaration: it ends at the first closing bracket outside
quotes and outside the internal subset, in which comments, instructions and declarations end by
rules of their own. -/
namespace FactoryMethods
namespace Markup

inductive DoctypePhase
  /-- Before any internal subset, perhaps in quotes. -/
  | external (quote : Option UInt8)
  | subset
  /-- In a piece of markup in the subset, all of whose bytes are held, latest first. -/
  | markup (read : Bytes)
  | afterSubset
  deriving DecidableEq, Repr

/-- The quote that is open after one more byte. -/
def quoteAfter (quote : Option UInt8) (b : UInt8) : Option UInt8 :=
  match quote with
  | some q => if b = q then none else some q
  | none => if isQuote b then some b else none

def startsWith (bytes : Bytes) (start : String) : Bool := (Utf8.encode start).isPrefixOf bytes

def endsWith (bytes : Bytes) (stop : String) : Bool := (Utf8.encode stop).isSuffixOf bytes

/-- Whether markup in the internal subset that reads `text` so far ends at a closing bracket now. -/
def endsSubsetMarkup (text : Bytes) : Bool :=
  if startsWith text "<?" then endsWith (text.drop 2) "?"
  else if startsWith text "<!--" then endsWith (text.drop 4) "--"
  else if startsWith text "<!ENTITY" || startsWith text "<!ATTLIST" ||
      startsWith text "<!NOTATION" then
    (text.foldl quoteAfter none).isNone
  else true

/-- The phase after one more byte; none where that byte ends the declaration. -/
def DoctypePhase.feed (p : DoctypePhase) (b : UInt8) : Option DoctypePhase :=
  match p with
  | .external none =>
    if b = greater then none
    else if b = leftBracket then some .subset
    else some (.external (quoteAfter none b))
  | .external (some q) => some (.external (quoteAfter (some q) b))
  | .subset =>
    if b = rightBracket then some .afterSubset
    else if b = less then some (.markup [less])
    else some .subset
  | .markup read =>
    if b = greater && endsSubsetMarkup read.reverse then some .subset
    else some (.markup (b :: read))
  | .afterSubset => if b = greater then none else some .afterSubset

end Markup
end FactoryMethods
