import FactoryMethods.Source.Listing
import FactoryMethods.Source.Phrase

/-! Source as lines. A line feed ends every line of a listing, also the last. So where no line
holds one of its own, the source can be cut back into its lines, and two listings with the same
source are the same. -/
namespace FactoryMethods

/-- Free of line feeds. -/
def IsLine (s : String) : Prop := '\n' ∉ s.toList

instance (s : String) : Decidable (IsLine s) := inferInstanceAs (Decidable ('\n' ∉ s.toList))

theorem isLine_append {a b : String} : IsLine (a ++ b) ↔ IsLine a ∧ IsLine b := by
  simp [IsLine]

/-- No token of the dialect breaks a line. -/
structure Dialect.InLine (l : Dialect) : Prop where
  indent : IsLine l.indent
  blockOpen : IsLine l.blockOpen
  blockClose : IsLine l.blockClose
  terminator : IsLine l.terminator
  modifiers : IsLine l.modifiers
  factoryStem : IsLine l.factoryStem
  positionType : IsLine l.positionType

namespace Dialect

theorem inLine_java : java.InLine := by constructor <;> decide

theorem inLine_rust : rust.InLine := by constructor <;> decide

theorem isLine_commaSeparated {items : List String} (h : ∀ item ∈ items, IsLine item) :
    IsLine (commaSeparated items) := by
  induction items with
  | nil => decide
  | cons item rest ih =>
    rw [List.forall_mem_cons] at h
    cases rest with
    | nil => exact h.1
    | cons next rest =>
      have hcomma : IsLine ", " := by decide
      exact isLine_append.mpr ⟨isLine_append.mpr ⟨h.1, hcomma⟩, ih h.2⟩

variable {l : Dialect}

theorem isLine_parameter {f : Field} (hname : IsLine f.name) (htype : IsLine f.type) :
    IsLine (l.parameter f) := by
  cases h : l.parameters <;> simp_all [parameter, IsLine]

theorem isLine_signature (hl : l.InLine) {name type : String} {parameters : List String}
    (hname : IsLine name) (hparameters : ∀ p ∈ parameters, IsLine p) (htype : IsLine type) :
    IsLine (l.signature name parameters type) := by
  have hitems := isLine_commaSeparated hparameters
  have hmodifiers := hl.modifiers
  by_cases hnone : l.modifiers = "" <;> cases h : l.returns <;> simp_all [signature, IsLine]

theorem isLine_bindingHead {type name : String} (htype : IsLine type) (hname : IsLine name) :
    IsLine (l.bindingHead type name) := by
  cases h : l.binding <;> simp_all [bindingHead, IsLine]

theorem isLine_constructed {type : String} {arguments : List String} (htype : IsLine type)
    (harguments : ∀ a ∈ arguments, IsLine a) : IsLine (l.constructed type arguments) := by
  have hitems := isLine_commaSeparated harguments
  cases h : l.construction <;> simp_all [constructed, IsLine]

end Dialect

def Descriptor.strings (d : Descriptor) : List String :=
  d.name :: d.fields.flatMap fun f => [f.name, f.type]

theorem Descriptor.name_mem_strings {d : Descriptor} {f : Field} (hf : f ∈ d.fields) :
    f.name ∈ d.strings :=
  List.mem_cons_of_mem _ (List.mem_flatMap.mpr ⟨f, hf, by simp⟩)

theorem Descriptor.type_mem_strings {d : Descriptor} {f : Field} (hf : f ∈ d.fields) :
    f.type ∈ d.strings :=
  List.mem_cons_of_mem _ (List.mem_flatMap.mpr ⟨f, hf, by simp⟩)

def Parameter.strings : Parameter → List String
  | .position name => [name]
  | .field f => [f.name, f.type]

/-- What a phrase holds that is not from the dialect. -/
def Phrase.strings : Phrase → List String
  | .text s => [s]
  | .parameter p => p.strings
  | .signature extras node => extras.flatMap Parameter.strings ++ node.strings
  | .bindingHead type name => [type, name]
  | .construction node => node.strings

namespace Dialect

variable {l : Dialect}

theorem isLine_parameter_asField (hl : l.InLine) {p : Parameter} (h : ∀ s ∈ p.strings, IsLine s) :
    IsLine (l.parameter (p.asField l)) := by
  cases p with
  | position name => exact isLine_parameter (h name (by simp [Parameter.strings])) hl.positionType
  | field f =>
    exact isLine_parameter (h f.name (by simp [Parameter.strings]))
      (h f.type (by simp [Parameter.strings]))

theorem isLine_render (hl : l.InLine) {p : Phrase} (h : ∀ s ∈ p.strings, IsLine s) :
    IsLine (l.render p) := by
  cases p with
  | text s => exact h s (by simp [Phrase.strings])
  | parameter p => exact isLine_parameter_asField hl h
  | signature extras node =>
    have hnode (s : String) (hs : s ∈ node.strings) : IsLine s := h s (List.mem_append_right _ hs)
    have hname : IsLine node.name := hnode node.name List.mem_cons_self
    refine isLine_signature hl (isLine_append.mpr ⟨hl.factoryStem, hname⟩)
      (fun item hitem => ?_) hname
    rcases List.mem_append.mp hitem with hextra | hfield
    · obtain ⟨p, hp, rfl⟩ := List.mem_map.mp hextra
      exact isLine_parameter_asField hl fun s hs =>
        h s (List.mem_append_left _ (List.mem_flatMap.mpr ⟨p, hp, hs⟩))
    · obtain ⟨f, hf, rfl⟩ := List.mem_map.mp hfield
      exact isLine_parameter (hnode f.name (Descriptor.name_mem_strings hf))
        (hnode f.type (Descriptor.type_mem_strings hf))
  | bindingHead type name =>
    exact isLine_bindingHead (h type (by simp [Phrase.strings])) (h name (by simp [Phrase.strings]))
  | construction node =>
    refine isLine_constructed (h node.name List.mem_cons_self) fun name hname => ?_
    obtain ⟨f, hf, rfl⟩ := List.mem_map.mp hname
    exact h f.name (Descriptor.name_mem_strings hf)

end Dialect

namespace Listing

theorem foldl_shown (shown : String) (lines : List String) :
    lines.foldl (fun shown line => shown ++ line ++ "\n") shown =
      shown ++ String.join (lines.map (· ++ "\n")) := by
  induction lines generalizing shown with
  | nil => simp
  | cons line lines ih =>
    rw [List.foldl_cons, ih]
    simp [String.append_assoc]

theorem toString_eq_source (s : Listing) : toString s = s.source := by
  have hshown := foldl_shown "" s.lines.toList
  rw [Array.foldl_toList, String.empty_append] at hshown
  exact hshown

theorem toList_source (s : Listing) :
    s.source.toList = ['\n'].intercalate (s.lines.toList.map String.toList ++ [[]]) := by
  rw [source]
  induction s.lines.toList with
  | nil => rfl
  | cons line lines ih =>
    rw [List.map_cons, String.join_cons, String.toList_append, ih, List.map_cons, List.cons_append,
      List.intercalate_cons_of_ne_nil (by simp)]
    simp

theorem splitOn_source {s : Listing} (h : ∀ line ∈ s.lines, IsLine line) :
    s.source.toList.splitOn '\n' = s.lines.toList.map String.toList ++ [[]] := by
  rw [toList_source]
  refine List.splitOn_intercalate '\n' (fun text htext => ?_) (by simp)
  rcases List.mem_append.mp htext with hline | hlast
  · obtain ⟨line, hmem, rfl⟩ := List.mem_map.mp hline
    exact h line (Array.mem_toList_iff.mp hmem)
  · simp [List.mem_singleton.mp hlast]

theorem eq_of_source {s t : Listing} (hs : ∀ line ∈ s.lines, IsLine line)
    (ht : ∀ line ∈ t.lines, IsLine line) (h : s.source = t.source) : s = t := by
  have hcut := congrArg (fun source => source.toList.splitOn '\n') h
  rw [splitOn_source hs, splitOn_source ht] at hcut
  have htexts := List.append_cancel_right hcut
  exact eq_of_lines ((List.map_inj_right fun _ _ => String.toList_inj.mp).mp htexts)

end Listing
end FactoryMethods
