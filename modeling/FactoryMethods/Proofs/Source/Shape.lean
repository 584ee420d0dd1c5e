import FactoryMethods.Source.Draft

/-! Shapes. The shape of a draft is what is left of it without its text. An edit changes the shape
in a way that the dialect has no part in: whether a phrase puts text on the line can be told from
the phrase, and a token stands only where a line ends anyway. -/
namespace FactoryMethods

structure Shape where
  /-- How many lines have ended. -/
  lines : Nat := 0
  /-- Whether the line being written is empty. -/
  blank : Bool := true
  nesting : Nesting := {}
  deriving DecidableEq, Repr

namespace Shape

def write (s : Shape) (p : Phrase) : Shape := { s with blank := s.blank && p = .text "" }

def newline (s : Shape) : Shape := { s with lines := s.lines + 1, blank := true }

def endLine (s : Shape) : Shape := if s.blank then s else s.newline

def after (s : Shape) : Edit → Shape
  | .write p => s.write p
  | .writeLine _ | .newline | .statement _ | .endStatement => s.newline
  | .endLine => s.endLine
  | .openBlock => { s.newline with nesting := s.nesting.enter }
  | .closeBlock => { s.endLine.newline with nesting := s.nesting.leave }

def afterAll (s : Shape) (edits : List Edit) : Shape := edits.foldl after s

end Shape

namespace Draft

def shape (d : Draft) : Shape := ⟨d.lines.size, d.pending = "", d.nesting⟩

theorem shape_write (d : Draft) (p : Phrase) :
    (d.write (d.dialect.render p)).shape = d.shape.write p := by
  have hempty := d.dialect.render_eq_empty_iff p
  by_cases hp : p = .text ""
  · rw [hempty.mpr hp, write_empty]
    simp [shape, Shape.write, hp]
  · have htext := mt hempty.mp hp
    by_cases hpending : d.pending = "" <;>
      simp [write, shape, Shape.write, htext, hp, hpending, String.append_eq_empty_iff]

@[simp] theorem shape_newline (d : Draft) : d.newline.shape = d.shape.newline := by
  simp [shape, Shape.newline]

@[simp] theorem shape_writeLine (d : Draft) (text : String) :
    (d.writeLine text).shape = d.shape.newline := by
  simp [writeLine, shape, Shape.newline]

@[simp] theorem shape_endLine (d : Draft) : d.endLine.shape = d.shape.endLine := by
  by_cases h : d.pending = "" <;> simp [endLine, Shape.endLine, shape, Shape.newline, h]

theorem shape_openBlock (d : Draft) :
    d.openBlock.shape = { d.shape.newline with nesting := d.nesting.enter } := by
  simp [openBlock, writeLine, shape, Shape.newline]

theorem shape_closeBlock (d : Draft) :
    d.closeBlock.shape = { d.shape.endLine.newline with nesting := d.nesting.leave } := by
  rw [← shape_endLine]
  simp [closeBlock, writeLine, shape, Shape.newline]

theorem shape_apply (d : Draft) (e : Edit) : (d.apply e).shape = d.shape.after e := by
  cases e with
  | write p => exact d.shape_write p
  | writeLine p => exact d.shape_writeLine _
  | newline => exact d.shape_newline
  | endLine => exact d.shape_endLine
  | statement p =>
    rw [apply, statement, endStatement, shape_writeLine, shape_write]
    rfl
  | endStatement => exact d.shape_writeLine _
  | openBlock => exact d.shape_openBlock
  | closeBlock => exact d.shape_closeBlock

theorem size_finish (d : Draft) : d.finish.size = d.shape.endLine.lines := by
  rw [← shape_endLine]
  rfl

theorem shape_applyAll (d : Draft) (edits : List Edit) :
    (d.applyAll edits).shape = d.shape.afterAll edits := by
  induction edits generalizing d with
  | nil => rfl
  | cons e edits ih =>
    rw [applyAll_cons, ih, shape_apply]
    rfl

end Draft
end FactoryMethods
