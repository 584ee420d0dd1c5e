import FactoryMethods.Source.Nesting
import FactoryMethods.Source.Listing

/-! A draft collects source text one line at a time. The first text on a line is put after the
margin of the block it stands in, so an empty line stays empty. -/
namespace FactoryMethods

structure Draft where
  dialect : Dialect
  lines : Array String := #[]
  /-- The line being written, margin included. -/
  pending : String := ""
  nesting : Nesting := {}
  deriving DecidableEq, Repr

namespace Draft

def empty (l : Dialect) : Draft := { dialect := l }

def margin (d : Draft) : String := d.dialect.margin d.nesting.depth

def write (d : Draft) (text : String) : Draft :=
  if text = "" then d
  else if d.pending = "" then { d with pending := d.margin ++ text }
  else { d with pending := d.pending ++ text }

/-- Ends the line, also an empty one. -/
def newline (d : Draft) : Draft := { d with lines := d.lines.push d.pending, pending := "" }

def writeLine (d : Draft) (text : String) : Draft := (d.write text).newline

def endLine (d : Draft) : Draft := if d.pending = "" then d else d.newline

def endStatement (d : Draft) : Draft := d.writeLine d.dialect.terminator

def statement (d : Draft) (text : String) : Draft := (d.write text).endStatement

/-- Puts one space after text that is already on the line. -/
def space (d : Draft) : Draft :=
  if d.pending = "" then d else { d with pending := d.pending ++ " " }

/-- The opening token ends the line that it stands on, and what follows stands in the block. -/
def openBlock (d : Draft) : Draft :=
  let d := d.space.writeLine d.dialect.blockOpen
  { d with nesting := d.nesting.enter }

/-- The closing token has a line of its own, outside the block. -/
def closeBlock (d : Draft) : Draft :=
  let d := d.endLine
  { d with nesting := d.nesting.leave }.writeLine d.dialect.blockClose

def finish (d : Draft) : Listing := ⟨d.endLine.lines⟩

def apply (d : Draft) : Edit → Draft
  | .write p => d.write (d.dialect.render p)
  | .writeLine p => d.writeLine (d.dialect.render p)
  | .newline => d.newline
  | .endLine => d.endLine
  | .statement p => d.statement (d.dialect.render p)
  | .endStatement => d.endStatement
  | .openBlock => d.openBlock
  | .closeBlock => d.closeBlock

def applyAll (d : Draft) (edits : List Edit) : Draft := edits.foldl apply d

@[simp] theorem write_empty (d : Draft) : d.write "" = d := by simp [write]

@[simp] theorem write_dialect (d : Draft) (text : String) :
    (d.write text).dialect = d.dialect := by
  by_cases ht : text = "" <;> by_cases hp : d.pending = "" <;> simp [write, ht, hp]

@[simp] theorem write_lines (d : Draft) (text : String) : (d.write text).lines = d.lines := by
  by_cases ht : text = "" <;> by_cases hp : d.pending = "" <;> simp [write, ht, hp]

@[simp] theorem write_nesting (d : Draft) (text : String) :
    (d.write text).nesting = d.nesting := by
  by_cases ht : text = "" <;> by_cases hp : d.pending = "" <;> simp [write, ht, hp]

@[simp] theorem newline_dialect (d : Draft) : d.newline.dialect = d.dialect := rfl

@[simp] theorem newline_lines (d : Draft) : d.newline.lines = d.lines.push d.pending := rfl

@[simp] theorem newline_pending (d : Draft) : d.newline.pending = "" := rfl

@[simp] theorem newline_nesting (d : Draft) : d.newline.nesting = d.nesting := rfl

@[simp] theorem endLine_dialect (d : Draft) : d.endLine.dialect = d.dialect := by
  by_cases h : d.pending = "" <;> simp [endLine, h]

@[simp] theorem endLine_pending (d : Draft) : d.endLine.pending = "" := by
  by_cases h : d.pending = "" <;> simp [endLine, h]

@[simp] theorem endLine_nesting (d : Draft) : d.endLine.nesting = d.nesting := by
  by_cases h : d.pending = "" <;> simp [endLine, h]

@[simp] theorem space_dialect (d : Draft) : d.space.dialect = d.dialect := by
  by_cases h : d.pending = "" <;> simp [space, h]

@[simp] theorem space_lines (d : Draft) : d.space.lines = d.lines := by
  by_cases h : d.pending = "" <;> simp [space, h]

@[simp] theorem space_nesting (d : Draft) : d.space.nesting = d.nesting := by
  by_cases h : d.pending = "" <;> simp [space, h]

@[simp] theorem openBlock_dialect (d : Draft) : d.openBlock.dialect = d.dialect := by
  simp [openBlock, writeLine]

@[simp] theorem openBlock_nesting (d : Draft) : d.openBlock.nesting = d.nesting.enter := by
  simp [openBlock, writeLine]

@[simp] theorem closeBlock_dialect (d : Draft) : d.closeBlock.dialect = d.dialect := by
  simp [closeBlock, writeLine]

@[simp] theorem closeBlock_nesting (d : Draft) : d.closeBlock.nesting = d.nesting.leave := by
  simp [closeBlock, writeLine]

@[simp] theorem apply_dialect (d : Draft) (e : Edit) : (d.apply e).dialect = d.dialect := by
  cases e <;> simp [apply, writeLine, statement, endStatement]

@[simp] theorem apply_nesting (d : Draft) (e : Edit) :
    (d.apply e).nesting = d.nesting.after e := by
  cases e <;> simp [apply, writeLine, statement, endStatement, Nesting.after]

@[simp] theorem applyAll_nil (d : Draft) : d.applyAll [] = d := rfl

@[simp] theorem applyAll_cons (d : Draft) (e : Edit) (edits : List Edit) :
    d.applyAll (e :: edits) = (d.apply e).applyAll edits := rfl

@[simp] theorem applyAll_append (d : Draft) (a b : List Edit) :
    d.applyAll (a ++ b) = (d.applyAll a).applyAll b := List.foldl_append

@[simp] theorem applyAll_dialect (d : Draft) (edits : List Edit) :
    (d.applyAll edits).dialect = d.dialect := by
  induction edits generalizing d with
  | nil => rfl
  | cons e edits ih => simp [ih]

@[simp] theorem applyAll_nesting (d : Draft) (edits : List Edit) :
    (d.applyAll edits).nesting = d.nesting.afterAll edits := by
  induction edits generalizing d with
  | nil => rfl
  | cons e edits ih => simp [ih]

end Draft

end FactoryMethods
