import FactoryMethods.Proofs.Method.Flattening

/-! Rendering at once. A draft puts the margin before a line when the first text comes, and it looks
only at the line being written. Here a run is recorded first, as pieces of text and ends of lines in
order, and put into lines afterwards, each behind the margin of its first text. Both ways give the
same lines, so a draft loses nothing, doubles nothing and changes no order. -/
namespace FactoryMethods

/-- A piece of text, and in how many blocks it is written. -/
structure Piece where
  depth : Nat
  text : String
  deriving DecidableEq, Repr

inductive Mark
  | piece (p : Piece)
  | lineEnd
  deriving DecidableEq, Repr

namespace Mark

/-- Whether the line holds text after one more mark. -/
def textAfter (text : Bool) : Mark → Bool
  | piece p => text || p.text ≠ ""
  | lineEnd => false

def pieces (marks : List Mark) : List Piece :=
  marks.filterMap fun
    | piece p => some p
    | lineEnd => none

/-- The pieces of every line that ends, of which the first goes on from `line`. -/
def linesFrom (line : List Piece) : List Mark → List (List Piece)
  | [] => []
  | piece p :: marks => linesFrom (line ++ [p]) marks
  | lineEnd :: marks => line :: linesFrom [] marks

/-- The pieces behind the last end of a line. -/
def lastLine (line : List Piece) : List Mark → List Piece
  | [] => line
  | piece p :: marks => lastLine (line ++ [p]) marks
  | lineEnd :: marks => lastLine [] marks

end Mark

namespace Edit

def depthAfter (depth : Nat) : Edit → Nat
  | .openBlock => depth + 1
  | .closeBlock => depth - 1
  | _ => depth

/-- What an edit writes in `depth` blocks, on a line of which `text` says whether it holds text. -/
def marks (l : Dialect) (depth : Nat) (text : Bool) : Edit → List Mark
  | .write p => [.piece ⟨depth, l.render p⟩]
  | .writeLine p => [.piece ⟨depth, l.render p⟩, .lineEnd]
  | .newline => [.lineEnd]
  | .endLine => if text then [.lineEnd] else []
  | .statement p => [.piece ⟨depth, l.render p⟩, .piece ⟨depth, l.terminator⟩, .lineEnd]
  | .endStatement => [.piece ⟨depth, l.terminator⟩, .lineEnd]
  | .openBlock =>
    (if text then [.piece ⟨depth, " "⟩] else []) ++ [.piece ⟨depth, l.blockOpen⟩, .lineEnd]
  | .closeBlock =>
    (if text then [.lineEnd] else []) ++ [.piece ⟨depth - 1, l.blockClose⟩, .lineEnd]

/-- The record of a run, from a line in `depth` blocks to the end of its last line. -/
def record (l : Dialect) (depth : Nat) (text : Bool) : List Edit → List Mark
  | [] => if text then [.lineEnd] else []
  | e :: edits =>
    let marks := e.marks l depth text
    marks ++ record l (e.depthAfter depth) (marks.foldl Mark.textAfter text) edits

end Edit

namespace Piece

def content (line : List Piece) : String := String.join (line.map text)

@[simp] theorem content_nil : content [] = "" := rfl

@[simp] theorem content_cons (p : Piece) (line : List Piece) :
    content (p :: line) = p.text ++ content line := by
  simp [content]

@[simp] theorem content_append (line more : List Piece) :
    content (line ++ more) = content line ++ content more := by
  simp [content]

theorem content_eq_empty_iff (line : List Piece) :
    content line = "" ↔ ∀ p ∈ line, p.text = "" := by
  induction line with
  | nil => simp
  | cons p line ih => simpa [String.append_eq_empty_iff] using fun _ => ih

theorem find?_eq_none_iff (line : List Piece) :
    line.find? (fun p => p.text ≠ "") = none ↔ content line = "" := by
  rw [content_eq_empty_iff, List.find?_eq_none]
  simp

end Piece

namespace Dialect

open Piece (content)

theorem margin_eq_join (l : Dialect) (depth : Nat) :
    l.margin depth = String.join (List.replicate depth l.indent) := by
  induction depth with
  | zero => rfl
  | succ depth ih =>
    rw [margin, ih, List.replicate_succ', String.join_append]
    simp

/-- The unit of indentation, once for every block that is open where the first text is written. -/
def indentation (l : Dialect) (line : List Piece) : String :=
  match line.find? fun p => p.text ≠ "" with
  | none => ""
  | some first => String.join (List.replicate first.depth l.indent)

/-- A line is empty if all its pieces are. -/
def rendered (l : Dialect) (line : List Piece) : String :=
  if ∀ p ∈ line, p.text = "" then "" else l.indentation line ++ content line

section Line

variable (l : Dialect) (line : List Piece)

theorem rendered_eq_append : l.rendered line = l.indentation line ++ content line := by
  by_cases hline : content line = ""
  · have hfind := (Piece.find?_eq_none_iff line).mpr hline
    rw [rendered, if_pos ((Piece.content_eq_empty_iff line).mp hline), indentation, hfind, hline]
    rfl
  · rw [rendered, if_neg (mt (Piece.content_eq_empty_iff line).mpr hline)]

theorem rendered_eq_empty_iff : l.rendered line = "" ↔ content line = "" := by
  constructor
  · intro h
    rw [rendered_eq_append, String.append_eq_empty_iff] at h
    exact h.2
  · intro h
    rw [rendered, if_pos ((Piece.content_eq_empty_iff line).mp h)]

theorem indentation_concat (p : Piece) : l.indentation (line ++ [p]) =
    if content line = "" then if p.text = "" then "" else l.margin p.depth
    else l.indentation line := by
  by_cases hline : content line = ""
  · have hfind := (Piece.find?_eq_none_iff line).mpr hline
    rw [if_pos hline, indentation, List.find?_append, hfind, Option.none_or]
    by_cases hp : p.text = "" <;> simp [hp, margin_eq_join]
  · have hfind := mt (Piece.find?_eq_none_iff line).mp hline
    obtain ⟨first, hfirst⟩ := Option.ne_none_iff_exists'.mp hfind
    rw [if_neg hline, indentation, indentation, List.find?_append, hfirst, Option.some_or]

theorem rendered_concat (p : Piece) : l.rendered (line ++ [p]) =
    if p.text = "" then l.rendered line
    else if l.rendered line = "" then l.margin p.depth ++ p.text
    else l.rendered line ++ p.text := by
  have hempty := l.rendered_eq_empty_iff line
  by_cases hline : content line = ""
  · have hrendered := hempty.mpr hline
    rw [rendered_eq_append, indentation_concat, if_pos hline, hrendered]
    by_cases hp : p.text = "" <;> simp [hp, hline]
  · have hrendered := mt hempty.mp hline
    rw [rendered_eq_append, indentation_concat, if_neg hline, if_neg hrendered]
    by_cases hp : p.text = "" <;> simp [hp, rendered_eq_append, String.append_assoc]

theorem drop_indentation :
    (l.rendered line).toList.drop (l.indentation line).length = (content line).toList := by
  rw [rendered_eq_append, String.toList_append, ← String.length_toList]
  exact List.drop_left

end Line

/-- What a mark does to a page, which holds the lines that have ended and the one being written. -/
def put (l : Dialect) (page : List String × String) : Mark → List String × String
  | .piece p =>
    (page.1,
      if p.text = "" then page.2
      else if page.2 = "" then l.margin p.depth ++ p.text
      else page.2 ++ p.text)
  | .lineEnd => (page.1 ++ [page.2], "")

theorem put_textAfter (l : Dialect) (page : List String × String) (m : Mark) :
    decide ((l.put page m).2 ≠ "") = m.textAfter (decide (page.2 ≠ "")) := by
  cases m with
  | piece p =>
    by_cases hp : p.text = "" <;> by_cases hpage : page.2 = "" <;>
      simp [put, Mark.textAfter, hp, hpage, String.append_eq_empty_iff]
  | lineEnd => rfl

theorem foldl_put_textAfter (l : Dialect) (page : List String × String) (marks : List Mark) :
    decide ((marks.foldl l.put page).2 ≠ "") =
      marks.foldl Mark.textAfter (decide (page.2 ≠ "")) := by
  induction marks generalizing page with
  | nil => rfl
  | cons m marks ih => rw [List.foldl_cons, List.foldl_cons, ih, put_textAfter]

/-- Induction on the marks: the line being written shows the pieces that came since its start. -/
theorem foldl_put (l : Dialect) (done : List String) (line : List Piece) (marks : List Mark) :
    marks.foldl l.put (done, l.rendered line) =
      (done ++ (Mark.linesFrom line marks).map l.rendered,
        l.rendered (Mark.lastLine line marks)) := by
  induction marks generalizing done line with
  | nil => simp [Mark.linesFrom, Mark.lastLine]
  | cons m marks ih =>
    cases m with
    | piece p =>
      have hput : l.put (done, l.rendered line) (.piece p) = (done, l.rendered (line ++ [p])) := by
        rw [rendered_concat, put]
      rw [List.foldl_cons, hput, ih]
      rfl
    | lineEnd =>
      have hput : l.put (done, l.rendered line) .lineEnd =
          (done ++ [l.rendered line], l.rendered []) := rfl
      rw [List.foldl_cons, hput, ih]
      simp [Mark.linesFrom, Mark.lastLine]

end Dialect

namespace Draft

def page (d : Draft) : List String × String := (d.lines.toList, d.pending)

theorem page_write (d : Draft) (text : String) :
    (d.write text).page = d.dialect.put d.page (.piece ⟨d.nesting.depth, text⟩) := by
  by_cases ht : text = "" <;> by_cases hp : d.pending = "" <;>
    simp [write, page, Dialect.put, margin, ht, hp]

theorem page_newline (d : Draft) : d.newline.page = d.dialect.put d.page .lineEnd := by
  simp [page, Dialect.put]

theorem page_endLine (d : Draft) : d.endLine.page =
    (if d.pending = "" then [] else [Mark.lineEnd]).foldl d.dialect.put d.page := by
  by_cases hp : d.pending = ""
  · simp [endLine, hp]
  · simpa [endLine, hp] using d.page_newline

theorem page_space (d : Draft) : d.space.page =
    (if d.pending = "" then [] else [Mark.piece ⟨d.nesting.depth, " "⟩]).foldl
      d.dialect.put d.page := by
  by_cases hp : d.pending = "" <;> simp [space, page, Dialect.put, hp]

theorem page_apply (d : Draft) (e : Edit) : (d.apply e).page =
    (e.marks d.dialect d.nesting.depth (decide (d.pending ≠ ""))).foldl d.dialect.put d.page := by
  cases e with
  | write p => exact d.page_write _
  | writeLine p => simp [apply, writeLine, Edit.marks, page_newline, page_write]
  | newline => exact d.page_newline
  | endLine =>
    rw [apply, page_endLine]
    by_cases hp : d.pending = "" <;> simp [Edit.marks, hp]
  | statement p =>
    simp [apply, statement, endStatement, writeLine, Edit.marks, page_newline, page_write]
  | endStatement => simp [apply, endStatement, writeLine, Edit.marks, page_newline, page_write]
  | openBlock =>
    have hopened : d.openBlock.page = (d.space.writeLine d.dialect.blockOpen).page := by
      simp [openBlock, page]
    rw [apply, hopened]
    by_cases hp : d.pending = "" <;>
      simp [writeLine, Edit.marks, page_newline, page_write, page_space, hp]
  | closeBlock =>
    have hleft : ({ d.endLine with nesting := d.endLine.nesting.leave } : Draft).page =
        d.endLine.page := rfl
    rw [apply, closeBlock, writeLine, page_newline, page_write, hleft, page_endLine]
    by_cases hp : d.pending = "" <;> simp [Edit.marks, hp]

theorem depth_apply (d : Draft) (e : Edit) :
    (d.apply e).nesting.depth = e.depthAfter d.nesting.depth := by
  cases e <;> simp [Nesting.after, Edit.depthAfter]

/-- Induction on the edits: the page tells whether the line holds text, and so what comes next. -/
theorem finish_lines_eq (d : Draft) (edits : List Edit) : (d.applyAll edits).finish.lines.toList =
    ((Edit.record d.dialect d.nesting.depth (decide (d.pending ≠ "")) edits).foldl
      d.dialect.put d.page).1 := by
  induction edits generalizing d with
  | nil =>
    have hfinish : d.finish.lines.toList = d.endLine.page.1 := rfl
    rw [applyAll_nil, hfinish, page_endLine]
    by_cases hp : d.pending = "" <;> simp [Edit.record, hp]
  | cons e edits ih =>
    have htext := d.dialect.foldl_put_textAfter d.page
      (e.marks d.dialect d.nesting.depth (decide (d.pending ≠ "")))
    have hpending : (d.apply e).page.2 = (d.apply e).pending := rfl
    rw [← page_apply, hpending] at htext
    rw [applyAll_cons, ih, depth_apply, htext, page_apply, apply_dialect, Edit.record,
      List.foldl_append]
    rfl

theorem finish_empty_lines (l : Dialect) (edits : List Edit) :
    ((empty l).applyAll edits).finish.lines.toList =
      (Mark.linesFrom [] (Edit.record l 0 false edits)).map l.rendered := by
  rw [finish_lines_eq]
  exact congrArg Prod.fst (l.foldl_put [] [] (Edit.record l 0 false edits))

end Draft

namespace Mark

open Piece (content)

theorem content_lastLine (line : List Piece) (marks : List Mark) :
    decide (content (lastLine line marks) ≠ "") =
      marks.foldl textAfter (decide (content line ≠ "")) := by
  induction marks generalizing line with
  | nil => rfl
  | cons m marks ih =>
    cases m with
    | piece p =>
      have htext : textAfter (decide (content line ≠ "")) (piece p) =
          decide (content (line ++ [p]) ≠ "") := by
        simp [textAfter, String.append_eq_empty_iff]
      rw [List.foldl_cons, htext]
      exact ih (line ++ [p])
    | lineEnd => exact ih []

theorem join_linesFrom (line : List Piece) (marks : List Mark) :
    String.join ((linesFrom line marks).map content) ++ content (lastLine line marks) =
      content line ++ content (pieces marks) := by
  induction marks generalizing line with
  | nil => simp [linesFrom, lastLine, pieces]
  | cons m marks ih =>
    cases m with
    | piece p =>
      have hpieces : pieces (piece p :: marks) = p :: pieces marks := rfl
      rw [linesFrom, lastLine, ih, hpieces]
      simp [String.append_assoc]
    | lineEnd =>
      have hpieces : pieces (lineEnd :: marks) = pieces marks := rfl
      have hrest := ih []
      rw [linesFrom, lastLine, hpieces, List.map_cons, String.join_cons, String.append_assoc, hrest]
      simp

end Mark

namespace Edit

theorem foldl_record (l : Dialect) (depth : Nat) (text : Bool) (edits : List Edit) :
    (record l depth text edits).foldl Mark.textAfter text = false := by
  induction edits generalizing depth text with
  | nil => cases text <;> rfl
  | cons e edits ih =>
    rw [record, List.foldl_append]
    exact ih _ _

theorem join_record (l : Dialect) (edits : List Edit) :
    String.join ((Mark.linesFrom [] (record l 0 false edits)).map Piece.content) =
      Piece.content (Mark.pieces (record l 0 false edits)) := by
  have hjoin := Mark.join_linesFrom [] (record l 0 false edits)
  have hlast := Mark.content_lastLine [] (record l 0 false edits)
  have htext := hlast.trans (foldl_record l 0 false edits)
  have hempty : Piece.content (Mark.lastLine [] (record l 0 false edits)) = "" :=
    Decidable.of_not_not (of_decide_eq_false htext)
  rw [hempty] at hjoin
  simpa using hjoin

end Edit

/-- The lines of a finished draft are those of the record, so no text is lost, doubled or moved: the
lines without their margins make up the pieces in the order in which they were written. -/
theorem finish_lines_eq_rendered (l : Dialect) (edits : List Edit) :
    let marks := Edit.record l 0 false edits
    let lines := Mark.linesFrom [] marks
    ((Draft.empty l).applyAll edits).finish.lines.toList = lines.map l.rendered ∧
    (∀ p : Program, p.edits = edits →
      (p.run (.empty l)).draft.finish.lines.toList = lines.map l.rendered) ∧
    (lines.map fun line => (l.rendered line).toList.drop (l.indentation line).length).flatten =
      (String.join ((Mark.pieces marks).map Piece.text)).toList := by
  intro marks lines
  have hlines := Draft.finish_empty_lines l edits
  refine ⟨hlines, ?_, ?_⟩
  · rintro p rfl
    rw [Program.run_draft, hlines]
  · have hjoin : String.join ((Mark.pieces marks).map Piece.text) =
        String.join (lines.map Piece.content) := (Edit.join_record l edits).symm
    simp only [Dialect.drop_indentation]
    rw [hjoin, String.toList_join, List.flatMap_map, List.flatMap_def]

/-- Empty text holds back the margin, and an empty opening token leaves its line empty. -/
example :
    let l : Dialect := { Dialect.java with blockOpen := "" }
    let a : Edit := .write (.text "a")
    ((Draft.empty l).applyAll
      [.openBlock, .write (.text ""), .newline, a, .closeBlock]).finish.lines =
      #["", "", "    a", "\x7d"] := by decide

end FactoryMethods
