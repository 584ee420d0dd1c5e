import FactoryMethods.Source.Phrase

/-! Edits: the changes of a draft, said without its dialect. -/
namespace FactoryMethods

inductive Edit
  | write (p : Phrase)
  | writeLine (p : Phrase)
  | newline
  /-- Ends the line if it holds any text. -/
  | endLine
  | statement (p : Phrase)
  | endStatement
  | openBlock
  | closeBlock
  deriving DecidableEq, Repr

end FactoryMethods
