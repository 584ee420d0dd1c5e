import FactoryMethods.Proofs.Expansion.FactoryListing
import FactoryMethods.Proofs.Source.Lines

/-! The lines of generated source. No operation on a draft breaks a line, so where neither the
tokens of the dialect nor the texts that are written hold a line feed, the lines of a listing are
exactly those that its source is cut into. -/
namespace FactoryMethods

/-- What an edit writes that is not from the dialect. -/
def Edit.strings : Edit → List String
  | .write p | .writeLine p | .statement p => p.strings
  | .newline | .endLine | .endStatement | .openBlock | .closeBlock => []

/-- What a run of the program writes that is not from the dialect. -/
def Program.strings (p : Program) : List String := p.edits.flatMap Edit.strings

theorem isLine_empty : IsLine "" := by decide

theorem Dialect.isLine_margin {l : Dialect} (hl : l.InLine) (depth : ℕ) :
    IsLine (l.margin depth) := by
  induction depth with
  | zero => exact isLine_empty
  | succ depth ih => exact isLine_append.mpr ⟨ih, hl.indent⟩

namespace Draft

/-- No line of the draft holds a line feed, and no token of its dialect brings one in. -/
structure Unbroken (d : Draft) : Prop where
  dialect : d.dialect.InLine
  lines : ∀ line ∈ d.lines, IsLine line
  pending : IsLine d.pending

theorem unbroken_empty {l : Dialect} (hl : l.InLine) : (empty l).Unbroken :=
  ⟨hl, by simp [empty], isLine_empty⟩

namespace Unbroken

variable {d : Draft} {text : String} {p : Phrase}

theorem write (h : d.Unbroken) (htext : IsLine text) : (d.write text).Unbroken := by
  refine ⟨by simpa using h.dialect, by simpa using h.lines, ?_⟩
  have hmargin := Dialect.isLine_margin h.dialect d.nesting.depth
  by_cases ht : text = "" <;> by_cases hp : d.pending = "" <;>
    simp [Draft.write, margin, ht, hp, isLine_empty, isLine_append, hmargin, htext, h.pending]

theorem newline (h : d.Unbroken) : d.newline.Unbroken := by
  refine ⟨h.dialect, fun line hline => ?_, isLine_empty⟩
  rw [newline_lines, Array.mem_push] at hline
  rcases hline with hdone | rfl
  · exact h.lines line hdone
  · exact h.pending

theorem endLine (h : d.Unbroken) : d.endLine.Unbroken := by
  unfold Draft.endLine
  split
  · exact h
  · exact h.newline

theorem space (h : d.Unbroken) : d.space.Unbroken := by
  unfold Draft.space
  split
  · exact h
  · exact ⟨h.dialect, h.lines, isLine_append.mpr ⟨h.pending, by decide⟩⟩

theorem withNesting (h : d.Unbroken) (nesting : Nesting) : { d with nesting : Draft }.Unbroken :=
  ⟨h.dialect, h.lines, h.pending⟩

theorem apply (h : d.Unbroken) {e : Edit} (he : ∀ s ∈ e.strings, IsLine s) :
    (d.apply e).Unbroken := by
  have hrender {p : Phrase} (hp : ∀ s ∈ p.strings, IsLine s) :
      (d.write (d.dialect.render p)).Unbroken :=
    h.write (Dialect.isLine_render h.dialect hp)
  cases e with
  | write p => exact hrender he
  | writeLine p => exact (hrender he).newline
  | newline => exact h.newline
  | endLine => exact h.endLine
  | statement p =>
    have hwritten := hrender he
    exact (hwritten.write hwritten.dialect.terminator).newline
  | endStatement => exact (h.write h.dialect.terminator).newline
  | openBlock => exact (h.space.write h.dialect.blockOpen).newline.withNesting _
  | closeBlock =>
    have hleft := h.endLine.withNesting d.endLine.nesting.leave
    exact (hleft.write hleft.dialect.blockClose).newline

theorem applyAll (h : d.Unbroken) {edits : List Edit}
    (hedits : ∀ s ∈ edits.flatMap Edit.strings, IsLine s) : (d.applyAll edits).Unbroken := by
  induction edits generalizing d with
  | nil => exact h
  | cons e edits ih =>
    rw [List.flatMap_cons, List.forall_mem_append] at hedits
    exact ih (h.apply hedits.1) hedits.2

end Unbroken
end Draft

theorem Listing.source_eq_empty_iff (s : Listing) : s.source = "" ↔ s.size = 0 := by
  obtain ⟨⟨lines⟩⟩ := s
  cases lines <;> simp [source, size, String.append_eq_empty_iff]

/-- Neither a token of the dialect nor a string in what the methods of the nodes write
breaks a line. -/
structure Strategy.InLines (strategy : Strategy) (l : Dialect) (nodes : List Descriptor) :
    Prop where
  dialect : l.InLine
  strings : ∀ node ∈ nodes, ∀ s ∈ (strategy.method node).strings, IsLine s

section Expansion

variable {l : Dialect} {strategy : Strategy} {nodes : List Descriptor} {s : Listing}

theorem isLine_of_mem_linesOf (h : strategy.InLines l nodes) {node : Descriptor}
    (hnode : node ∈ nodes) {line : String} (hline : line ∈ strategy.linesOf l node) :
    IsLine line := by
  have hdraft := (Draft.unbroken_empty h.dialect).applyAll (h.strings node hnode)
  exact hdraft.endLine.lines line (Array.mem_toList_iff.mp hline)

theorem isLine_of_expand (h : strategy.InLines l nodes)
    (hs : (expand l strategy nodes).result = .ok s) : ∀ line ∈ s.lines, IsLine line := by
  obtain ⟨-, -, hlines⟩ := expand_eq_ok_iff.mp hs
  intro line hline
  rw [← Array.mem_toList_iff, hlines] at hline
  cases nodes with
  | nil => simp at hline
  | cons node rest =>
    simp only [List.map_cons, intercalate_empty_line, List.mem_append, List.mem_flatMap,
      List.mem_map, List.mem_cons, exists_exists_and_eq_and] at hline
    rcases hline with hfirst | ⟨next, hnext, rfl | hmethod⟩
    · exact isLine_of_mem_linesOf h List.mem_cons_self hfirst
    · exact isLine_empty
    · exact isLine_of_mem_linesOf h (List.mem_cons_of_mem _ hnext) hmethod

end Expansion

theorem Factory.strings_method (node : Descriptor) : (method node).strings =
    position :: node.strings ++ [node.name, result] ++ node.strings ++
      [result ++ "." ++ position ++ " = " ++ position, "return " ++ result] := by
  simp [Program.strings, edits_method, body, Edit.strings, Phrase.strings, Parameter.strings]

theorem inLines_factory {l : Dialect} (hl : l.InLine) {nodes : List Descriptor}
    (h : ∀ node ∈ nodes, ∀ s ∈ node.strings, IsLine s) : factory.InLines l nodes := by
  refine ⟨hl, fun node hnode => ?_⟩
  have hnodes := h node hnode
  have hname := hnodes node.name List.mem_cons_self
  have hmethod : factory.method node = Factory.method node := rfl
  rw [hmethod, Factory.strings_method]
  simp only [List.forall_mem_append, List.forall_mem_cons]
  exact ⟨⟨⟨⟨by decide, hnodes⟩, hname, by decide, by simp⟩, hnodes⟩, by decide, by decide, by simp⟩

/-- Every listing is shown as its source, and where no line feed is written, the source cut at its
line feeds gives the lines back, whatever dialect, catalogue and methods they come from. -/
theorem source_cuts_into_lines :
    (∀ s : Listing, toString s = s.source ∧ (s.source = "" ↔ s.size = 0)) ∧
    (∀ {l : Dialect} {strategy : Strategy} {nodes : List Descriptor} {s : Listing},
      strategy.InLines l nodes → (expand l strategy nodes).result = .ok s →
      (∀ line ∈ s.lines, IsLine line) ∧
      (s.source.toList.splitOn '\n').map String.ofList = s.lines.toList ++ [""] ∧
      ∀ {l' : Dialect} {strategy' : Strategy} {nodes' : List Descriptor} {s' : Listing},
        strategy'.InLines l' nodes' → (expand l' strategy' nodes').result = .ok s' →
        s.source = s'.source → s = s') ∧
    ∀ {l : Dialect} {nodes : List Descriptor}, l.InLine →
      (∀ node ∈ nodes, ∀ s ∈ node.strings, IsLine s) → factory.InLines l nodes := by
  refine ⟨fun s => ⟨s.toString_eq_source, s.source_eq_empty_iff⟩, ?_,
    fun hl hnodes => inLines_factory hl hnodes⟩
  intro l strategy nodes s h hs
  have hlines := isLine_of_expand h hs
  refine ⟨hlines, ?_, ?_⟩
  · rw [Listing.splitOn_source hlines]
    simp [Function.comp_def]
  · intro l' strategy' nodes' s' h' hs' hsource
    exact Listing.eq_of_source hlines (isLine_of_expand h' hs') hsource

/-- The factory, and a method that writes the lines of another one by itself. -/
theorem source_cuts_into_lines_mark :
    let nodes : List Descriptor := [⟨"Mark", []⟩]
    let copying : Strategy :=
      { method := fun _ => .ofEdits ((Factory.lines .java ⟨"Mark", []⟩).map (.writeLine ∘ .text)) }
    (∀ node ∈ nodes, ∀ s ∈ node.strings, IsLine s) ∧ copying.InLines .rust nodes ∧
      ∃ s s', (expand .java factory nodes).result = .ok s ∧
        (expand .rust copying nodes).result = .ok s' ∧ s.source = s'.source ∧ s = s' ∧
        (s.source.toList.splitOn '\n').map String.ofList =
          Factory.lines .java ⟨"Mark", []⟩ ++ [""] := by
  intro nodes copying
  obtain ⟨-, hcuts, hfactory⟩ := source_cuts_into_lines
  have hnodes : ∀ node ∈ nodes, ∀ s ∈ node.strings, IsLine s := by decide
  have hcopying : copying.InLines .rust nodes := ⟨Dialect.inLine_rust, by decide +kernel⟩
  have hs : (expand .java factory nodes).result =
      .ok ⟨(Factory.lines .java ⟨"Mark", []⟩).toArray⟩ := by rfl
  have hs' : (expand .rust copying nodes).result =
      .ok ⟨(Factory.lines .java ⟨"Mark", []⟩).toArray⟩ := by rfl
  obtain ⟨-, hcut, hsame⟩ := hcuts (hfactory Dialect.inLine_java hnodes) hs
  exact ⟨hnodes, hcopying, _, _, hs, hs', rfl, hsame hcopying hs' rfl, hcut⟩

end FactoryMethods
