import FactoryMethods.Method.Factory
import FactoryMethods.Proofs.Expansion.Composition
import FactoryMethods.Proofs.Source.Rendering

/-! Listings of factory methods. The factory writes the same five lines for every node, whatever the
tokens of the dialect are: empty ones leave lines empty, but take none away. So the place of a node
in its catalogue settles the place of its lines in the listing. -/
namespace FactoryMethods

theorem Strategy.linesOf_eq_rendered (strategy : Strategy) (l : Dialect) (node : Descriptor) :
    strategy.linesOf l node =
      (Mark.linesFrom [] (Edit.record l 0 false (strategy.method node).edits)).map l.rendered :=
  Draft.finish_empty_lines l (strategy.method node).edits

namespace Dialect

theorem render_signature_ne_empty (l : Dialect) (extras : List Parameter) (node : Descriptor) :
    l.render (.signature extras node) ≠ "" := l.signature_ne_empty _ _ _

theorem rendered_cons (l : Dialect) {p : Piece} (hp : p.text ≠ "") (line : List Piece) :
    l.rendered (p :: line) = l.margin p.depth ++ Piece.content (p :: line) := by
  rw [rendered_eq_append, indentation, List.find?_cons_of_pos (by simpa using hp)]
  simp [margin_eq_join]

theorem rendered_outside (l : Dialect) (text : String) : l.rendered [⟨0, text⟩] = text := by
  by_cases h : text = "" <;> simp [rendered_eq_append, indentation, h]

end Dialect

namespace Factory

/-- The factory method of a node, line by line. -/
def lines (l : Dialect) (node : Descriptor) : List String :=
  [l.signature (l.factoryName node.name)
      (l.parameter ⟨"pos", l.positionType⟩ :: node.fields.map l.parameter) node.name ++
      " " ++ l.blockOpen,
    l.indent ++ l.bindingHead node.name "t" ++ l.constructed node.name node.fieldNames ++
      l.terminator,
    l.indent ++ "t.pos = pos" ++ l.terminator,
    l.indent ++ "return t" ++ l.terminator,
    l.blockClose]

theorem edits_method (node : Descriptor) : (method node).edits =
    .write (.signature [.position position] node) :: .openBlock ::
      (body node ++ [.closeBlock]) := by
  simp [method, Program.edits]

theorem linesFrom_record_method (l : Dialect) (node : Descriptor) :
    Mark.linesFrom [] (Edit.record l 0 false (method node).edits) =
      [[⟨0, l.render (.signature [.position position] node)⟩, ⟨0, " "⟩, ⟨0, l.blockOpen⟩],
        [⟨1, l.bindingHead node.name result⟩, ⟨1, l.constructed node.name node.fieldNames⟩,
          ⟨1, l.terminator⟩],
        [⟨1, "t.pos = pos"⟩, ⟨1, l.terminator⟩],
        [⟨1, "return t"⟩, ⟨1, l.terminator⟩],
        [⟨0, l.blockClose⟩]] := by
  have hheader := l.render_signature_ne_empty [.position position] node
  rw [edits_method]
  generalize (Phrase.signature [.position position] node) = header at hheader ⊢
  have hbinding : l.render (.bindingHead node.name result) = l.bindingHead node.name result := rfl
  have hconstruction : l.render (.construction node) = l.constructed node.name node.fieldNames :=
    rfl
  have htext (s : String) : l.render (.text s) = s := rfl
  have hstamp : result ++ "." ++ position ++ " = " ++ position = "t.pos = pos" := by decide
  have hreturn : "return " ++ result = "return t" := by decide
  simp [Edit.record, body, Edit.marks, Edit.depthAfter, Mark.textAfter, Mark.linesFrom, hheader,
    hbinding, hconstruction, htext, hstamp, hreturn]

theorem linesOf_factory (l : Dialect) (node : Descriptor) :
    factory.linesOf l node = lines l node := by
  have hmethod : factory.method node = method node := rfl
  have hheader := l.render_signature_ne_empty [.position position] node
  have hbinding := l.bindingHead_ne_empty node.name "t"
  have hsignature : l.render (.signature [.position position] node) =
      l.signature (l.factoryName node.name)
        (l.parameter ⟨"pos", l.positionType⟩ :: node.fields.map l.parameter) node.name := rfl
  have houtside : l.margin 0 = "" := rfl
  have hinside : l.margin 1 = l.indent := by simp [Dialect.margin]
  rw [Strategy.linesOf_eq_rendered, hmethod, linesFrom_record_method, lines, ← hsignature]
  simp [Dialect.rendered_cons, hheader, hbinding, Dialect.rendered_outside, houtside, hinside,
    String.append_assoc, result]

theorem accepted_method (node : Descriptor) : (factory.method node).Accepted := by
  have hmethod : factory.method node = method node := rfl
  rw [hmethod]
  refine ⟨by simp [method, Program.failure?], ?_⟩
  have hbrackets : brackets (method node).edits = [.U, .D] := by
    rw [edits_method]
    rfl
  rw [hbrackets]
  exact ⟨(0 : DyckWord).nest, rfl⟩

end Factory

theorem getElem?_flatMap_of_length {α β : Type} {f : α → List β} {k : ℕ}
    (hlength : ∀ a, (f a).length = k) {as : List α} {i j : ℕ} (hj : j < k) {a : α}
    (ha : as[i]? = some a) : (as.flatMap f)[k * i + j]? = (f a)[j]? := by
  induction as generalizing i with
  | nil => simp at ha
  | cons b as ih =>
    rw [List.flatMap_cons]
    cases i with
    | zero =>
      cases ha
      rw [Nat.mul_zero, Nat.zero_add, List.getElem?_append_left (by rw [hlength]; exact hj)]
    | succ i =>
      have hfirst : (f b).length ≤ k * (i + 1) + j := by
        rw [hlength, Nat.mul_succ]
        omega
      have hrest : k * (i + 1) + j - (f b).length = k * i + j := by
        rw [hlength, Nat.mul_succ]
        omega
      rw [List.getElem?_append_right hfirst, hrest]
      exact ih (by simpa using ha)

theorem flatMap_empty_line_concat (parts : List (List String)) :
    parts.flatMap ("" :: ·) ++ [""] = "" :: parts.flatMap (· ++ [""]) := by
  induction parts with
  | nil => rfl
  | cons part parts ih =>
    rw [List.flatMap_cons, List.flatMap_cons, List.append_assoc, ih]
    simp

theorem intercalate_empty_line_concat {parts : List (List String)} (h : parts ≠ []) :
    [""].intercalate parts ++ [""] = parts.flatMap (· ++ [""]) := by
  obtain ⟨first, rest, rfl⟩ := List.exists_cons_of_ne_nil h
  rw [intercalate_empty_line, List.append_assoc, flatMap_empty_line_concat, List.flatMap_cons]
  simp

namespace Factory

variable {l : Dialect} {nodes : List Descriptor} {s : Listing}

/-- The lines of a node, and one that keeps them apart from what follows. -/
def paragraph (l : Dialect) (node : Descriptor) : List String := lines l node ++ [""]

theorem length_paragraph (l : Dialect) (node : Descriptor) : (paragraph l node).length = 6 := rfl

theorem expand_eq_ok_iff_valid : (expand l factory nodes).result = .ok s ↔
    Catalogue.defect? ["pos", "t"] nodes = none ∧
      s.lines.toList = [""].intercalate (nodes.map (lines l)) := by
  have hlines : factory.linesOf l = lines l := funext (linesOf_factory l)
  have hreserved : factory.reserved = ["pos", "t"] := rfl
  rw [expand_eq_ok_iff, hlines, hreserved]
  simp [accepted_method]

theorem lines_concat (h : (expand l factory nodes).result = .ok s) (hnodes : nodes ≠ []) :
    s.lines.toList ++ [""] = nodes.flatMap (paragraph l) := by
  have hparts : nodes.map (lines l) ≠ [] := by simpa using hnodes
  rw [(expand_eq_ok_iff_valid.mp h).2, intercalate_empty_line_concat hparts, List.flatMap_map]
  rfl

theorem size_add_one (h : (expand l factory nodes).result = .ok s) (hnodes : nodes ≠ []) :
    s.size + 1 = 6 * nodes.length := by
  have hlength := congrArg List.length (lines_concat h hnodes)
  simpa [List.length_flatMap, length_paragraph, Listing.size, Nat.mul_comm] using hlength

theorem getElem?_lines (h : (expand l factory nodes).result = .ok s) {i j : ℕ} {node : Descriptor}
    (hnode : nodes[i]? = some node) (hj : j < 6) (hend : 6 * i + j < s.size) :
    s.lines[6 * i + j]? = (paragraph l node)[j]? := by
  have hnodes : nodes ≠ [] := by
    rintro rfl
    simp at hnode
  have hindex := getElem?_flatMap_of_length (length_paragraph l) hj hnode
  rw [← lines_concat h hnodes,
    List.getElem?_append_left (by simpa [Listing.size] using hend)] at hindex
  simpa using hindex

theorem getElem?_line (h : (expand l factory nodes).result = .ok s) {i j : ℕ} {node : Descriptor}
    (hnode : nodes[i]? = some node) (hj : j < 5) : s.lines[6 * i + j]? = (lines l node)[j]? := by
  obtain ⟨hi, -⟩ := List.getElem?_eq_some_iff.mp hnode
  have hsize := size_add_one h (List.ne_nil_of_length_pos (Nat.zero_lt_of_lt hi))
  rw [getElem?_lines h hnode (by omega) (by omega), paragraph]
  exact List.getElem?_append_left hj

end Factory

end FactoryMethods
