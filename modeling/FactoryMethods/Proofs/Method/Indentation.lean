import FactoryMethods.Proofs.Method.Unwinding

/-! Indentation. The line being written starts with the margin of the blocks that are open, and it
ends before a block is opened or closed. So in a block, whatever its body does and however it comes
out of it, every line that is not empty starts with the margin of the block. -/
namespace FactoryMethods

namespace Dialect

/-- A line that holds a token of a block and nothing else; an empty token leaves it empty. -/
def tokenLine (l : Dialect) (depth : Nat) (token : String) : String :=
  if token = "" then "" else l.margin depth ++ token

/-- A line is empty, or it starts with the margin of `depth` blocks. -/
def Indented (l : Dialect) (depth : Nat) (line : String) : Prop :=
  line = "" ∨ ∃ text, line = l.margin depth ++ text

variable {l : Dialect}

theorem margin_add (l : Dialect) (depth more : Nat) :
    ∃ text, l.margin (depth + more) = l.margin depth ++ text := by
  induction more with
  | zero => exact ⟨"", by simp⟩
  | succ more ih =>
    obtain ⟨text, htext⟩ := ih
    refine ⟨text ++ l.indent, ?_⟩
    rw [← Nat.add_assoc, margin, htext, String.append_assoc]

theorem indented_margin {depth deeper : Nat} (h : depth ≤ deeper) (text : String) :
    l.Indented depth (l.margin deeper ++ text) := by
  obtain ⟨more, hmore⟩ := l.margin_add depth (deeper - depth)
  rw [Nat.add_sub_cancel' h] at hmore
  exact .inr ⟨more ++ text, by rw [hmore, String.append_assoc]⟩

theorem Indented.append {depth : Nat} {line : String} (h : l.Indented depth line) (hne : line ≠ "")
    (text : String) : l.Indented depth (line ++ text) := by
  obtain ⟨rest, rfl⟩ := h.resolve_left hne
  exact .inr ⟨rest ++ text, String.append_assoc⟩

theorem indented_tokenLine {depth deeper : Nat} (h : depth ≤ deeper) (token : String) :
    l.Indented depth (l.tokenLine deeper token) := by
  unfold tokenLine
  split
  · exact .inl rfl
  · exact indented_margin h token

end Dialect

namespace Draft

variable {d d' d'' : Draft} {depth : Nat}

/-- The line that the opening token of a block ends. -/
def openingLine (d : Draft) : String :=
  if d.pending = "" then d.dialect.tokenLine d.nesting.depth d.dialect.blockOpen
  else d.pending ++ " " ++ d.dialect.blockOpen

/-- The line that is completed before a block is left, if there is one. -/
def flushed (d : Draft) : List String := if d.pending = "" then [] else [d.pending]

theorem lines_newline (d : Draft) : d.newline.lines.toList = d.lines.toList ++ [d.pending] := by
  simp

theorem lines_endLine (d : Draft) : d.endLine.lines.toList = d.lines.toList ++ d.flushed := by
  by_cases h : d.pending = "" <;> simp [endLine, flushed, h]

theorem pending_write_of_empty (h : d.pending = "") (text : String) :
    (d.write text).pending = d.dialect.tokenLine d.nesting.depth text := by
  by_cases ht : text = "" <;> simp [write, margin, Dialect.tokenLine, h, ht]

theorem pending_write_of_ne_empty (h : d.pending ≠ "") (text : String) :
    (d.write text).pending = d.pending ++ text := by
  by_cases ht : text = "" <;> simp [write, h, ht]

theorem lines_openBlock (d : Draft) :
    d.openBlock.lines.toList = d.lines.toList ++ [d.openingLine] := by
  have hlines :
      d.openBlock.lines.toList = (d.space.write d.dialect.blockOpen).newline.lines.toList := by
    simp [openBlock, writeLine]
  have hpending : (d.space.write d.dialect.blockOpen).pending = d.openingLine := by
    by_cases h : d.pending = ""
    · have hspace : d.space = d := if_pos h
      rw [hspace, pending_write_of_empty h, openingLine, if_pos h]
    · have hspace : d.space.pending = d.pending ++ " " := by simp [space, h]
      have hne : d.space.pending ≠ "" := by simp [hspace, String.append_eq_empty_iff]
      rw [pending_write_of_ne_empty hne, hspace, openingLine, if_neg h]
  rw [hlines, lines_newline, hpending, write_lines, space_lines]

theorem lines_closeBlock (d : Draft) : d.closeBlock.lines.toList = d.lines.toList ++ d.flushed ++
    [d.dialect.tokenLine (d.nesting.depth - 1) d.dialect.blockClose] := by
  have hleft : ({ d.endLine with nesting := d.endLine.nesting.leave } : Draft).pending = "" :=
    d.endLine_pending
  rw [closeBlock, writeLine, lines_newline, pending_write_of_empty hleft, write_lines,
    lines_endLine]
  simp

theorem pending_apply (d : Draft) (e : Edit) : (∃ p, e = .write p) ∨ (d.apply e).pending = "" := by
  cases e with
  | write p => exact .inl ⟨p, rfl⟩
  | endLine => exact .inr d.endLine_pending
  | _ => exact .inr rfl

/-- What stands on the line being written stands in as many blocks as are open. -/
def Aligned (d : Draft) : Prop := d.pending ≠ "" → ∃ text, text ≠ "" ∧ d.pending = d.margin ++ text

theorem Aligned.write (h : d.Aligned) (text : String) : (d.write text).Aligned := by
  intro hne
  have hmargin : (d.write text).margin = d.margin := by simp [margin]
  rw [hmargin]
  by_cases hp : d.pending = ""
  · rw [pending_write_of_empty hp, Dialect.tokenLine] at hne ⊢
    split at hne
    · exact absurd rfl hne
    · rename_i htext
      rw [if_neg htext]
      exact ⟨text, htext, rfl⟩
  · obtain ⟨before, hbefore, hpending⟩ := h hp
    rw [pending_write_of_ne_empty hp, hpending, String.append_assoc]
    exact ⟨before ++ text, by simp [String.append_eq_empty_iff, hbefore], rfl⟩

theorem Aligned.apply (h : d.Aligned) (e : Edit) : (d.apply e).Aligned := by
  rcases d.pending_apply e with ⟨p, rfl⟩ | hempty
  · exact h.write _
  · exact fun hne => absurd hempty hne

theorem Aligned.applyAll (h : d.Aligned) (edits : List Edit) : (d.applyAll edits).Aligned := by
  induction edits generalizing d with
  | nil => exact h
  | cons e edits ih => exact ih (h.apply e)

theorem line_ends_of_depth_ne {e : Edit} (h : (d.apply e).nesting.depth ≠ d.nesting.depth) :
    (d.apply e).pending = "" ∧ (d.pending ≠ "" → ∃ text more,
      (d.apply e).lines.toList = d.lines.toList ++ (d.pending ++ text) :: more) := by
  rw [apply_nesting] at h
  cases e with
  | openBlock =>
    refine ⟨rfl, fun hne => ⟨" " ++ d.dialect.blockOpen, [], ?_⟩⟩
    rw [apply, lines_openBlock, openingLine, if_neg hne, String.append_assoc]
  | closeBlock =>
    let closing := d.dialect.tokenLine (d.nesting.depth - 1) d.dialect.blockClose
    refine ⟨rfl, fun hne => ⟨"", [closing], ?_⟩⟩
    rw [apply, lines_closeBlock, flushed, if_neg hne, String.append_empty, List.append_assoc]
    rfl
  | _ => exact absurd rfl h

/-- Between two drafts every line that has been completed, and the line being written, is indented
for `depth` blocks. -/
structure Indents (depth : Nat) (d d' : Draft) : Prop where
  lines : ∃ inside, d'.lines.toList = d.lines.toList ++ inside ∧
    ∀ line ∈ inside, d.dialect.Indented depth line
  pending : d.dialect.Indented depth d'.pending
  dialect : d'.dialect = d.dialect

theorem Indents.refl (h : d.dialect.Indented depth d.pending) : d.Indents depth d :=
  ⟨⟨[], by simp, by simp⟩, h, rfl⟩

theorem Indents.write (h : d.Indents depth d') (hdepth : depth ≤ d'.nesting.depth) (text : String) :
    d.Indents depth (d'.write text) := by
  refine ⟨by simpa using h.lines, ?_, by simpa using h.dialect⟩
  by_cases hp : d'.pending = ""
  · rw [pending_write_of_empty hp, h.dialect]
    exact Dialect.indented_tokenLine hdepth text
  · rw [pending_write_of_ne_empty hp]
    exact h.pending.append hp text

theorem Indents.newline (h : d.Indents depth d') : d.Indents depth d'.newline := by
  obtain ⟨inside, hinside, hindented⟩ := h.lines
  refine ⟨⟨inside ++ [d'.pending], ?_, ?_⟩, .inl rfl, h.dialect⟩
  · rw [lines_newline, hinside, List.append_assoc]
  · intro line hline
    rcases List.mem_append.mp hline with hmem | hmem
    · exact hindented line hmem
    · rw [List.mem_singleton.mp hmem]
      exact h.pending

theorem Indents.endLine (h : d.Indents depth d') : d.Indents depth d'.endLine := by
  unfold Draft.endLine
  split
  · exact h
  · exact h.newline

theorem Indents.space (h : d.Indents depth d') : d.Indents depth d'.space := by
  unfold Draft.space
  split
  · exact h
  · rename_i hne
    exact ⟨h.lines, h.pending.append hne " ", h.dialect⟩

theorem Indents.withNesting (h : d.Indents depth d') (nesting : Nesting) :
    d.Indents depth { d' with nesting } := ⟨h.lines, h.pending, h.dialect⟩

theorem Indents.apply (h : d.Indents depth d') {e : Edit} (hbefore : depth ≤ d'.nesting.depth)
    (hafter : depth ≤ (d'.apply e).nesting.depth) : d.Indents depth (d'.apply e) := by
  cases e with
  | write p => exact h.write hbefore _
  | writeLine p => exact (h.write hbefore _).newline
  | newline => exact h.newline
  | endLine => exact h.endLine
  | statement p => exact ((h.write hbefore _).write (by simpa using hbefore) _).newline
  | endStatement => exact (h.write hbefore _).newline
  | openBlock =>
    have hopening := h.space.write (by simpa using hbefore) d'.dialect.blockOpen
    exact hopening.newline.withNesting _
  | closeBlock =>
    have hleft := h.endLine.withNesting d'.endLine.nesting.leave
    refine (hleft.write ?_ _).newline
    simpa [Nesting.after] using hafter

end Draft

namespace Program

theorem indents_edits {p : Program} (h : p.Structured) {d d' : Draft} {depth : Nat}
    (hindents : d.Indents depth d') (hdepth : depth ≤ d'.nesting.depth) :
    d.Indents depth (d'.applyAll p.edits) := by
  induction p generalizing d' with
  | edit e next ih =>
    have hnext : next.Structured := fun e' he' => h e' (List.mem_cons_of_mem _ he')
    obtain ⟨hopen, hclose⟩ := h e List.mem_cons_self
    have hafter : (d'.apply e).nesting = d'.nesting := by
      rw [Draft.apply_nesting]
      cases e <;> simp_all [Nesting.after]
    exact ih hnext (hindents.apply hdepth (hafter ▸ hdepth)) (hafter ▸ hdepth)
  | block body next ihb ihn =>
    have hbody : body.Structured := fun e he => h e (by simp [steps, he])
    have hnext : next.Structured := fun e he => h e (by simp [steps, he])
    have hentered : depth ≤ (d'.apply .openBlock).nesting.depth := by
      rw [Draft.apply_nesting]
      exact Nat.le_succ_of_le hdepth
    have hinside := ihb hbody (hindents.apply hdepth hentered) hentered
    have hnesting := afterAll_edits_of_structured hbody (d'.apply .openBlock).nesting
    rw [← Draft.applyAll_nesting] at hnesting
    have hstands : depth ≤ ((d'.apply .openBlock).applyAll body.edits).nesting.depth := by
      rw [hnesting]
      exact hentered
    have hleft :
        depth ≤ (((d'.apply .openBlock).applyAll body.edits).apply .closeBlock).nesting.depth := by
      rw [Draft.apply_nesting, hnesting, Draft.apply_nesting]
      exact hdepth
    have hclosed := hinside.apply hstands hleft
    rw [edits, Draft.applyAll_cons, Draft.applyAll_append, Draft.applyAll_cons]
    split
    · exact ihn hnext hclosed hleft
    · exact hclosed
  | checkpoint label next ih => exact ih h hindents hdepth
  | _ => exact hindents

theorem run_block_done (body : Program) (d : Draft) :
    ((block body .done).run d).draft = (d.openBlock.applyAll body.edits).closeBlock := by
  rw [run_draft, edits, Draft.applyAll_cons, Draft.applyAll_append, Draft.applyAll_cons]
  split <;> rfl

theorem lines_run_block {body : Program} (h : body.Structured) (d : Draft) : ∃ inside,
    ((block body .done).run d).draft.lines.toList = d.lines.toList ++ d.openingLine ::
      (inside ++ [d.dialect.tokenLine d.nesting.depth d.dialect.blockClose]) ∧
    ∀ line ∈ inside, d.dialect.Indented (d.nesting.depth + 1) line := by
  have hstart : d.openBlock.Indents (d.nesting.depth + 1) d.openBlock := .refl (.inl rfl)
  have hbody := indents_edits h hstart (by simp)
  have hnesting := afterAll_edits_of_structured h d.openBlock.nesting
  rw [← Draft.applyAll_nesting] at hnesting
  have hdepth : (d.openBlock.applyAll body.edits).nesting.depth - 1 = d.nesting.depth := by
    rw [hnesting]
    simp [Nesting.withBlocks]
  obtain ⟨inside, hinside, hindented⟩ := hbody.endLine.lines
  rw [Draft.lines_endLine] at hinside
  rw [Draft.openBlock_dialect] at hindented
  refine ⟨inside, ?_, hindented⟩
  rw [run_block_done, Draft.lines_closeBlock, hinside, hdepth, Draft.lines_openBlock]
  simp

end Program

/-- The line being written stands behind the margin of the open blocks, and their number changes
only between lines. In a block every line has one more unit of indentation, and its closing token
has a line of its own. -/
theorem indentation_follows_nesting (l : Dialect) (edits : List Edit) :
    let d := (Draft.empty l).applyAll edits
    (d.pending ≠ "" → ∃ text, text ≠ "" ∧ d.pending = l.margin d.nesting.depth ++ text) ∧
    (∀ e, (d.apply e).nesting.depth ≠ d.nesting.depth →
      (d.apply e).pending = "" ∧ (d.pending ≠ "" → ∃ text more,
        (d.apply e).lines.toList = d.lines.toList ++ (d.pending ++ text) :: more)) ∧
    ∀ body : Program, body.Structured →
      let run := (Program.block body .done).run d
      let opening := if d.pending = "" then l.tokenLine d.nesting.depth l.blockOpen
        else d.pending ++ " " ++ l.blockOpen
      ∃ inside, run.draft.lines.toList = d.lines.toList ++ opening ::
          (inside ++ [l.tokenLine d.nesting.depth l.blockClose]) ∧
        (∀ line ∈ inside, line ≠ "" → ∃ text, line = l.margin (d.nesting.depth + 1) ++ text) ∧
        run.draft.pending = "" ∧ run.draft.nesting.depth = d.nesting.depth := by
  intro d
  have hdialect : d.dialect = l := Draft.applyAll_dialect _ edits
  have haligned : d.Aligned := Draft.Aligned.applyAll (fun hne => absurd rfl hne) edits
  rw [Draft.Aligned, Draft.margin, hdialect] at haligned
  refine ⟨haligned, fun e he => Draft.line_ends_of_depth_ne he, fun body hbody => ?_⟩
  obtain ⟨inside, hlines, hindented⟩ := Program.lines_run_block hbody d
  rw [Draft.openingLine, hdialect] at hlines
  rw [hdialect] at hindented
  refine ⟨inside, hlines, fun line hline => (hindented line hline).resolve_left, ?_, ?_⟩
  · rw [Program.run_block_done]
    rfl
  · have hblock : (Program.block body .done).Structured := by
      simpa [Program.Structured, Program.steps] using hbody
    rw [Program.run_draft, Draft.applyAll_nesting, Program.afterAll_edits_of_structured hblock]
    rfl

/-- A body that fails in a block in the block: both blocks are closed, each at its own margin. -/
theorem indentation_follows_nesting_failing :
    let d := (Draft.empty .java).applyAll [.openBlock, .write (.text "f()")]
    let inner := Program.edit (.write (.text "b")) (.fail (.generation "no c"))
    let body := Program.edit (.writeLine (.text "a")) (.block inner .done)
    let run := (Program.block body .done).run d
    d.pending ≠ "" ∧ (d.apply .closeBlock).nesting.depth ≠ d.nesting.depth ∧ body.Structured ∧
      (∃ text, text ≠ "" ∧ d.pending = "    " ++ text) ∧ (d.apply .closeBlock).pending = "" ∧
      run.failure = some (.generation "no c") ∧
      ∃ inside, run.draft.lines.toList = "\x7b" :: "    f() \x7b" :: (inside ++ ["    \x7d"]) ∧
        ∀ line ∈ inside, line ≠ "" → ∃ text, line = "        " ++ text := by
  intro d inner body run
  have hpending : d.pending ≠ "" := by decide
  have hdepth : (d.apply .closeBlock).nesting.depth ≠ d.nesting.depth := by decide
  have hbody : body.Structured := by simp [body, inner, Program.Structured, Program.steps]
  obtain ⟨haligned, hends, hblock⟩ :=
    indentation_follows_nesting .java [.openBlock, .write (.text "f()")]
  obtain ⟨inside, hlines, hinside, -, -⟩ := hblock body hbody
  exact ⟨hpending, hdepth, hbody, haligned hpending, (hends .closeBlock hdepth).1, rfl, inside,
    hlines, hinside⟩

end FactoryMethods
