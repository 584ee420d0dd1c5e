import FactoryMethods.Proofs.Method.Indentation
import FactoryMethods.Proofs.Source.Rendering

/-! The header of a method. It is written as one text, which is never empty: so it goes behind the
text on the line, or behind the margin of an empty line, nothing else of the draft changes, and a
block that is opened next begins on the same line. -/
namespace FactoryMethods

namespace Dialect

theorem commaSeparated_eq_intercalate (items : List String) :
    commaSeparated items = ", ".intercalate items := by
  induction items with
  | nil => simp [commaSeparated]
  | cons item rest ih =>
    cases rest with
    | nil => simp [commaSeparated]
    | cons next rest =>
      rw [commaSeparated, ih, String.intercalate_cons_cons]
      exact List.cons_ne_nil next rest

theorem signature_eq (l : Dialect) (name : String) (parameters : List String) (type : String) :
    l.signature name parameters type =
      let modifiers := if l.modifiers = "" then "" else l.modifiers ++ " "
      let called := name ++ "(" ++ ", ".intercalate parameters ++ ")"
      match l.returns with
      | .leading => modifiers ++ type ++ " " ++ called
      | .trailing => modifiers ++ called ++ " -> " ++ type := by
  rw [signature, commaSeparated_eq_intercalate]
  cases l.returns with
  | leading => simp only [String.append_assoc, String.append_empty]
  | trailing => simp only [String.append_assoc, String.empty_append]

end Dialect

namespace Draft

/-- What text is put behind: the text that stands on the line, or else the margin. -/
def start (d : Draft) : String := if d.pending = "" then d.margin else d.pending

theorem write_of_ne_empty (d : Draft) {text : String} (h : text ≠ "") :
    d.write text = { d with pending := d.start ++ text } := by
  by_cases hp : d.pending = "" <;> simp [write, start, h, hp]

theorem start_eq (d : Draft) : d.start =
    if d.pending = "" then String.join (List.replicate d.nesting.depth d.dialect.indent)
    else d.pending := by
  rw [start, margin, Dialect.margin_eq_join]

/-- The header of a method is put behind what stands on the line, or behind its margin, and changes
nothing else. It has one entry for every parameter and is never empty. -/
theorem apply_signature (d : Draft) (extras : List Parameter) (node : Descriptor) :
    let l := d.dialect
    let start :=
      if d.pending = "" then String.join (List.replicate d.nesting.depth l.indent) else d.pending
    let entry (f : Field) := match l.parameters with
      | .typeFirst => f.type ++ " " ++ f.name
      | .nameFirst => f.name ++ ": " ++ f.type
    let entries := extras.map (fun p => entry (p.asField l)) ++ node.fields.map entry
    let modifiers := if l.modifiers = "" then "" else l.modifiers ++ " "
    let called := l.factoryStem ++ node.name ++ "(" ++ ", ".intercalate entries ++ ")"
    let header := match l.returns with
      | .leading => modifiers ++ node.name ++ " " ++ called
      | .trailing => modifiers ++ called ++ " -> " ++ node.name
    let written := d.apply (.write (.signature extras node))
    written = { d with pending := start ++ header } ∧
      entries.length = extras.length + node.fields.length ∧
      written.pending ≠ "" ∧
      written.openBlock.lines.toList = d.lines.toList ++
        [start ++ header ++ " " ++ l.blockOpen] := by
  intro l start entry entries modifiers called header written
  have hheader : l.render (.signature extras node) = header :=
    l.signature_eq (l.factoryName node.name) entries node.name
  have hne : header ≠ "" := by
    rw [← hheader]
    exact l.signature_ne_empty _ _ _
  have hwritten : written = { d with pending := start ++ header } := by
    show d.write (l.render _) = _
    rw [hheader, write_of_ne_empty d hne, start_eq]
  have hpending : written.pending ≠ "" := by
    rw [hwritten]
    simp [String.append_eq_empty_iff, hne]
  refine ⟨hwritten, by simp [entries], hpending, ?_⟩
  rw [lines_openBlock, openingLine, if_neg hpending, hwritten]

end Draft

/-- The header of a node without a name, in a dialect without tokens. -/
example :
    let l : Dialect := ⟨"", "", "", "", "", "", "", .nameFirst, .trailing, .typed, .keyword⟩
    ((Draft.empty l).apply (.write (.signature [.field ⟨"", ""⟩] ⟨"", []⟩))).pending =
      "(: ) -> " := by
  decide

end FactoryMethods
