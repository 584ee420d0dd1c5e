import FactoryMethods.Proofs.Expansion.Attribution

/-! What the log tells. The log of an expansion holds the descriptors that were begun, in order, and
then one entry for how the run ended. So it can be said in full from the result and, if a method was
refused, from the place of that method. -/
namespace FactoryMethods

def LogEntry.shown (e : LogEntry) : LogLevel × String := (e.level, e.message)

namespace Failure

/-- The texts of what caused a failure, outermost first. -/
def causeTexts : Failure → List String
  | .unreadable cause => [cause.message]
  | .file cause => [cause.message]
  | .malformed _ _ cause => [cause.message]
  | .expansion _ _ cause => cause.message :: cause.causeTexts
  | .unbalanced _ _ _ _ | .generation _ => []

theorem exists_expansion_message (index : ℕ) (name : String) (cause : Failure) :
    ∃ opening, (expansion index name cause).message = opening ++ cause.message := ⟨_, rfl⟩

theorem exists_message_eq_append {f : Failure} {text : String} (h : text ∈ f.causeTexts) :
    ∃ opening, f.message = opening ++ text := by
  induction f with
  | expansion index name cause ih =>
    obtain ⟨outer, houter⟩ := exists_expansion_message index name cause
    rcases List.mem_cons.mp h with rfl | hdeeper
    · exact ⟨outer, houter⟩
    · obtain ⟨inner, hinner⟩ := ih hdeeper
      exact ⟨outer ++ inner, by rw [houter, hinner, String.append_assoc]⟩
  | unreadable cause | file cause | malformed index name cause =>
    cases List.mem_singleton.mp h
    exact ⟨_, rfl⟩
  | unbalanced index name opened closed | generation message => cases h

end Failure

section Runs

variable (l : Dialect) (strategy : Strategy) (nodes : List Descriptor)

theorem expand_cases :
    (∃ f, Catalogue.defect? strategy.reserved nodes ≠ none ∧
      expand l strategy nodes = ⟨[.aborted f], .error f⟩) ∨
    (∃ i f, Catalogue.defect? strategy.reserved nodes = none ∧ RefusedAt l strategy nodes i ∧
      expand l strategy nodes = ⟨begun nodes (i + 1) ++ [.aborted f], .error f⟩) ∨
    ∃ s, Catalogue.defect? strategy.reserved nodes = none ∧ expand l strategy nodes =
      ⟨begun nodes nodes.length ++ [.expanded nodes.length s.size], .ok s⟩ := by
  cases hdefect : Catalogue.defect? strategy.reserved nodes with
  | some found =>
    obtain ⟨node, -, hexpand⟩ := expand_of_defect l hdefect
    exact .inl ⟨_, by simp, hexpand⟩
  | none =>
    by_cases hrefused : ∃ i, RefusedAt l strategy nodes i
    · obtain ⟨i, hi⟩ := hrefused
      obtain ⟨d, node, hd, here, hnode⟩ := hi
      obtain ⟨f, hf, -⟩ := hnode.exists_error
      exact .inr (.inl ⟨i, f, rfl, ⟨d, node, hd, here, hnode⟩, hd.expand_of_error here hf⟩)
    · obtain ⟨d, hd⟩ := exists_reaches hdefect (not_exists.mp hrefused) nodes.length le_rfl
      exact .inr (.inr ⟨d.finish, rfl, hd.expand_of_end⟩)

variable {l strategy nodes}

theorem log_of_ok {s : Listing} (h : (expand l strategy nodes).result = .ok s) :
    (expand l strategy nodes).log =
      begun nodes nodes.length ++ [.expanded nodes.length s.size] := by
  rcases expand_cases l strategy nodes with ⟨f, -, hrun⟩ | ⟨i, f, -, -, hrun⟩ | ⟨t, -, hrun⟩
  · simp [hrun] at h
  · simp [hrun] at h
  · have hts : t = s := by simpa [hrun] using h
    rw [hrun, hts]

variable {f : Failure} (h : (expand l strategy nodes).result = .error f)
include h

theorem log_of_defect (hdefect : Catalogue.defect? strategy.reserved nodes ≠ none) :
    (expand l strategy nodes).log = [.aborted f] := by
  rcases expand_cases l strategy nodes with ⟨g, -, hrun⟩ | ⟨i, g, hvalid, -, -⟩ | ⟨t, hvalid, -⟩
  · have hgf : g = f := by simpa [hrun] using h
    rw [hrun, hgf]
  · exact absurd hvalid hdefect
  · exact absurd hvalid hdefect

theorem exists_log_of_refused (hvalid : Catalogue.defect? strategy.reserved nodes = none) :
    ∃ i, RefusedAt l strategy nodes i ∧
      (expand l strategy nodes).log = begun nodes (i + 1) ++ [.aborted f] := by
  rcases expand_cases l strategy nodes with ⟨g, hdefect, -⟩ | ⟨i, g, -, hi, hrun⟩ | ⟨t, -, hrun⟩
  · exact absurd hvalid hdefect
  · have hgf : g = f := by simpa [hrun] using h
    exact ⟨i, hi, by rw [hrun, hgf]⟩
  · simp [hrun] at h

end Runs

theorem RefusedAt.lt_length {l : Dialect} {strategy : Strategy} {nodes : List Descriptor} {i : ℕ}
    (h : RefusedAt l strategy nodes i) : i < nodes.length := by
  obtain ⟨_, _, _, here, _⟩ := h
  exact (List.getElem?_eq_some_iff.mp here).1

theorem shown_begun (nodes : List Descriptor) (count : ℕ) : (begun nodes count).map LogEntry.shown =
    (nodes.take count).mapIdx fun index node => (LogLevel.debug,
      s!"Expanding descriptor #{index} '{node.name}' ({node.fields.length} fields)") := by
  rw [begun, List.mapIdx_eq_zipIdx_map, List.mapIdx_eq_zipIdx_map, List.map_map]
  rfl

/-- The log is that of the run: the descriptors announced in order, up to the first that is refused
if there is one, and then how the run ended, with the texts of a failure and of all its causes. -/
theorem log_tells_run (l : Dialect) (strategy : Strategy) (nodes : List Descriptor) :
    let run := expand l strategy nodes
    let announced (count : ℕ) := (nodes.take count).mapIdx fun index node => (LogLevel.debug,
      s!"Expanding descriptor #{index} '{node.name}' ({node.fields.length} fields)")
    let warning (f : Failure) := s!"Expansion aborted: {f.message}"
    (∀ s, run.result = .ok s → run.log.map LogEntry.shown = announced nodes.length ++
      [(.info, s!"Expanded {nodes.length} descriptors into {s.size} lines")]) ∧
    (∀ f, run.result = .error f →
      (Catalogue.defect? strategy.reserved nodes ≠ none →
        run.log.map LogEntry.shown = [(.warn, warning f)]) ∧
      (Catalogue.defect? strategy.reserved nodes = none → ∃ i < nodes.length,
        IsLeast {j | RefusedAt l strategy nodes j} i ∧
          run.log.map LogEntry.shown = announced (i + 1) ++ [(.warn, warning f)])) ∧
    ∀ f : Failure, ∀ text ∈ f.message :: f.causeTexts, ∃ before, warning f = before ++ text := by
  intro run announced warning
  refine ⟨fun s hs => ?_, fun f hf => ⟨fun hdefect => ?_, fun hvalid => ?_⟩, ?_⟩
  · rw [log_of_ok hs, List.map_append, shown_begun]
    rfl
  · rw [log_of_defect hf hdefect]
    rfl
  · obtain ⟨i, hi, hlog⟩ := exists_log_of_refused hf hvalid
    refine ⟨i, hi.lt_length, hi.isLeast, ?_⟩
    rw [hlog, List.map_append, shown_begun]
    rfl
  · intro f text htext
    have hwarning : warning f = "Expansion aborted: " ++ f.message := rfl
    rcases List.mem_cons.mp htext with rfl | hcause
    · exact ⟨_, hwarning⟩
    · obtain ⟨opening, hopening⟩ := Failure.exists_message_eq_append hcause
      exact ⟨"Expansion aborted: " ++ opening, by rw [hwarning, hopening, String.append_assoc]⟩

/-- The warning goes down through the layers of the failure. -/
example :
    let strategy : Strategy := ⟨[], fun _ => .fail (.unreadable (.missingAttribute "node" "name"))⟩
    (expand .java strategy [⟨"A", []⟩, ⟨"B", []⟩]).log.map LogEntry.shown =
      [(.debug, "Expanding descriptor #0 'A' (0 fields)"),
        (.warn, "Expansion aborted: failed to expand descriptor #0 'A': catalogue parse error: " ++
          "missing required attribute 'name' on element 'node'")] := by rfl

end FactoryMethods
