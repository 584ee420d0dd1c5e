import FactoryMethods.Source.Draft

/-! Drafts below other drafts. An edit looks at the line being written and at the depth, never at
the lines before it or at the totals so far; so what a sequence of edits writes on a new draft, it
writes below the lines of any other. -/
namespace FactoryMethods

/-- The account `n`, its totals counted on from those of `base`. -/
def Nesting.countedFrom (n base : Nesting) : Nesting where
  depth := n.depth
  opened := base.opened + n.opened
  closed := base.closed + n.closed
  underflows := base.underflows + n.underflows

namespace Nesting

@[simp] theorem enter_countedFrom (n base : Nesting) :
    (n.countedFrom base).enter = n.enter.countedFrom base := rfl

@[simp] theorem leave_countedFrom (n base : Nesting) :
    (n.countedFrom base).leave = n.leave.countedFrom base := by
  by_cases h : n.depth = 0 <;> simp [countedFrom, leave, h, Nat.add_assoc]

end Nesting

namespace Draft

/-- The draft `d`, continued below the lines of `base`. -/
def below (d base : Draft) : Draft where
  dialect := d.dialect
  lines := base.lines ++ d.lines
  pending := d.pending
  nesting := d.nesting.countedFrom base.nesting

@[simp] theorem below_dialect (d base : Draft) : (d.below base).dialect = d.dialect := rfl

@[simp] theorem below_lines (d base : Draft) : (d.below base).lines = base.lines ++ d.lines := rfl

@[simp] theorem write_below (d base : Draft) (text : String) :
    (d.below base).write text = (d.write text).below base := by
  by_cases ht : text = "" <;> by_cases hp : d.pending = "" <;>
    simp [write, below, ht, hp, margin, Nesting.countedFrom]

@[simp] theorem newline_below (d base : Draft) :
    (d.below base).newline = d.newline.below base := by
  simp [newline, below, Array.push_append]

@[simp] theorem writeLine_below (d base : Draft) (text : String) :
    (d.below base).writeLine text = (d.writeLine text).below base := by
  simp [writeLine]

@[simp] theorem endLine_below (d base : Draft) :
    (d.below base).endLine = d.endLine.below base := by
  by_cases h : d.pending = ""
  · simp [endLine, below, h]
  · have hb : (d.below base).pending ≠ "" := h
    simp [endLine, h, hb]

@[simp] theorem space_below (d base : Draft) : (d.below base).space = d.space.below base := by
  by_cases h : d.pending = "" <;> simp [space, below, h]

@[simp] theorem openBlock_below (d base : Draft) :
    (d.below base).openBlock = d.openBlock.below base := by
  simp only [openBlock, space_below, below_dialect, writeLine_below]
  rfl

@[simp] theorem closeBlock_below (d base : Draft) :
    (d.below base).closeBlock = d.closeBlock.below base := by
  have h : ∀ e : Draft, { e.below base with nesting := (e.below base).nesting.leave } =
      { e with nesting := e.nesting.leave }.below base := by
    intro e
    simp [below]
  simp only [closeBlock, endLine_below, h]
  rw [← writeLine_below]
  rfl

@[simp] theorem apply_below (d base : Draft) (e : Edit) :
    (d.below base).apply e = (d.apply e).below base := by
  cases e <;> simp [apply, statement, endStatement]

@[simp] theorem applyAll_below (d base : Draft) (edits : List Edit) :
    (d.below base).applyAll edits = (d.applyAll edits).below base := by
  induction edits generalizing d with
  | nil => rfl
  | cons e edits ih => simp [ih]

theorem empty_below {d : Draft} (hp : d.pending = "") (hd : d.nesting.depth = 0) :
    (empty d.dialect).below d = d := by
  obtain ⟨dialect, lines, pending, depth, opened, closed, underflows⟩ := d
  subst hp hd
  simp [empty, below, Nesting.countedFrom]

end Draft
end FactoryMethods
