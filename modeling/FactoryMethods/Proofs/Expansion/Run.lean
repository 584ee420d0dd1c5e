import FactoryMethods.Expansion.Expand
import FactoryMethods.Proofs.Method.Flattening
import FactoryMethods.Proofs.Source.Brackets

/-! Runs of an expansion. Every method starts on an empty line and outside all blocks: the first one
because the draft is new, each other one because the method before it was found balanced and its
last line was ended. From there, whether a method is accepted depends on its program alone. -/
namespace FactoryMethods

/-- What a method finds: no text on the line, and no block open. -/
structure Draft.Ready (l : Dialect) (d : Draft) : Prop where
  dialect : d.dialect = l
  pending : d.pending = ""
  depth : d.nesting.depth = 0

/-- What a method has to be: free of failures, with its blocks properly nested. -/
structure Program.Accepted (p : Program) : Prop where
  failure : p.failure? = none
  balanced : Balanced (brackets p.edits)

namespace Draft

def separated (d : Draft) (index : ℕ) : Draft := if index = 0 then d else d.newline

theorem ready_empty (l : Dialect) : (empty l).Ready l := ⟨rfl, rfl, rfl⟩

theorem Ready.separated {l : Dialect} {d : Draft} (h : d.Ready l) (index : ℕ) :
    (d.separated index).Ready l := by
  unfold Draft.separated
  split
  · exact h
  · exact ⟨h.dialect, rfl, h.depth⟩

end Draft

section Node

variable {l : Dialect} {strategy : Strategy} (index : ℕ) {node : Descriptor} {d : Draft}

theorem expandNode_of_failure {f : Failure} (h : (strategy.method node).failure? = some f) :
    expandNode strategy index node d = .error (f.inDescriptor index node.name) := by
  simp [expandNode, h]

theorem expandNode_of_balanced (hf : (strategy.method node).failure? = none)
    (hb : ((strategy.method node).run (d.separated index)).draft.nesting.balancedSince
      (d.separated index).nesting = true) :
    expandNode strategy index node d =
      .ok ((strategy.method node).run (d.separated index)).draft.endLine := by
  simp only [Draft.separated] at hb ⊢
  simp only [expandNode, Program.run_failure, hf, hb]
  rfl

theorem expandNode_of_not_balanced (hf : (strategy.method node).failure? = none)
    (hb : ((strategy.method node).run (d.separated index)).draft.nesting.balancedSince
      (d.separated index).nesting = false) :
    let start := (d.separated index).nesting
    let stop := ((strategy.method node).run (d.separated index)).draft.nesting
    expandNode strategy index node d = .error (.unbalanced index (displayName node.name)
      (stop.opened - start.opened) (stop.closed - start.closed)) := by
  simp only [Draft.separated] at hb ⊢
  simp only [expandNode, Program.run_failure, hf, hb]
  rfl

/-- Outside all blocks, the check decides whether the blocks of the method are properly nested. -/
theorem balancedSince_run_iff (hd : d.Ready l) :
    ((strategy.method node).run (d.separated index)).draft.nesting.balancedSince
      (d.separated index).nesting = true ↔ Balanced (brackets (strategy.method node).edits) := by
  rw [Program.run_draft, Draft.applyAll_nesting]
  exact Nesting.balancedSince_afterAll_iff (hd.separated index).depth _

theorem expandNode_of_accepted (hd : d.Ready l) (h : (strategy.method node).Accepted) :
    expandNode strategy index node d =
      .ok ((d.separated index).applyAll (strategy.method node).edits).endLine := by
  have hcheck := (balancedSince_run_iff index hd).mpr h.balanced
  rw [expandNode_of_balanced index h.failure hcheck, Program.run_draft]

theorem expandNode_of_unbalanced (hd : d.Ready l) (hf : (strategy.method node).failure? = none)
    (h : ¬ Balanced (brackets (strategy.method node).edits)) :
    expandNode strategy index node d = .error (.unbalanced index (displayName node.name)
      ((brackets (strategy.method node).edits).count .U)
      ((brackets (strategy.method node).edits).count .D)) := by
  have hcheck := Bool.eq_false_of_not_eq_true (mt (balancedSince_run_iff index hd).mp h)
  rw [expandNode_of_not_balanced index hf hcheck]
  simp [Nesting.afterAll_opened, Nesting.afterAll_closed]

theorem expandNode_eq_ok_iff (hd : d.Ready l) {d' : Draft} :
    expandNode strategy index node d = .ok d' ↔ (strategy.method node).Accepted ∧
      d' = ((d.separated index).applyAll (strategy.method node).edits).endLine := by
  constructor
  · intro h
    cases hf : (strategy.method node).failure? with
    | some f =>
      rw [expandNode_of_failure index hf] at h
      cases h
    | none =>
      by_cases hb : Balanced (brackets (strategy.method node).edits)
      · rw [expandNode_of_accepted index hd ⟨hf, hb⟩] at h
        exact ⟨⟨hf, hb⟩, (Except.ok.inj h).symm⟩
      · rw [expandNode_of_unbalanced index hd hf hb] at h
        cases h
  · rintro ⟨ha, rfl⟩
    exact expandNode_of_accepted index hd ha

theorem Draft.Ready.expandNode (hd : d.Ready l) {d' : Draft}
    (h : expandNode strategy index node d = .ok d') : d'.Ready l := by
  obtain ⟨ha, rfl⟩ := (expandNode_eq_ok_iff index hd).mp h
  have hs := hd.separated index
  refine ⟨by simp [hs.dialect], by simp, ?_⟩
  simpa using Nesting.afterAll_depth_of_balanced hs.depth ha.balanced

end Node

/-- The run of an expansion comes to the descriptor at `index` with the draft `d`. -/
inductive Reaches (l : Dialect) (strategy : Strategy) (nodes : List Descriptor) : ℕ → Draft → Prop
  | start (valid : Catalogue.defect? strategy.reserved nodes = none) :
    Reaches l strategy nodes 0 (.empty l)
  | next {index : ℕ} {node : Descriptor} {d d' : Draft} (before : Reaches l strategy nodes index d)
    (here : nodes[index]? = some node) (step : expandNode strategy index node d = .ok d') :
    Reaches l strategy nodes (index + 1) d'

section Rest

variable {strategy : Strategy} {index : ℕ} {node : Descriptor} {d : Draft}

theorem expandFrom_of_ok {d' : Draft} (h : expandNode strategy index node d = .ok d')
    (rest : List Descriptor) : (expandFrom strategy index d (node :: rest)).result =
      (expandFrom strategy (index + 1) d' rest).result := by
  simp [expandFrom, h]

theorem expandFrom_of_error {f : Failure} (h : expandNode strategy index node d = .error f)
    (rest : List Descriptor) : (expandFrom strategy index d (node :: rest)).result = .error f := by
  simp [expandFrom, h]

end Rest

theorem expand_of_defect (l : Dialect) {strategy : Strategy} {nodes : List Descriptor} {index : ℕ}
    {defect : Defect} (h : Catalogue.defect? strategy.reserved nodes = some (index, defect)) :
    ∃ node, nodes[index]? = some node ∧
      let f := .malformed index (displayName node.name) defect
      expand l strategy nodes = ⟨[.aborted f], .error f⟩ := by
  obtain ⟨node, hnode⟩ := Catalogue.exists_getElem?_of_defect? h
  exact ⟨node, hnode, by simp [expand, h, Outcome.silent, hnode]⟩

theorem expand_result_of_valid (l : Dialect) {strategy : Strategy} {nodes : List Descriptor}
    (valid : Catalogue.defect? strategy.reserved nodes = none) :
    (expand l strategy nodes).result =
      (expandFrom strategy 0 (.empty l) nodes).result.map Draft.finish := by
  simp only [expand, valid]
  cases (expandFrom strategy 0 (.empty l) nodes).result <;> rfl

namespace Reaches

variable {l : Dialect} {strategy : Strategy} {nodes : List Descriptor} {index : ℕ} {d : Draft}

theorem ready (h : Reaches l strategy nodes index d) : d.Ready l := by
  induction h with
  | start => exact Draft.ready_empty l
  | next _ _ step ih => exact ih.expandNode _ step

theorem result (h : Reaches l strategy nodes index d) : (expand l strategy nodes).result =
    (expandFrom strategy index d (nodes.drop index)).result.map Draft.finish := by
  induction h with
  | start valid => exact expand_result_of_valid l valid
  | @next index node d d' before here step ih =>
    obtain ⟨hlt, rfl⟩ := List.getElem?_eq_some_iff.mp here
    rw [ih, List.drop_eq_getElem_cons hlt, expandFrom_of_ok step]

theorem result_of_error (h : Reaches l strategy nodes index d) {node : Descriptor}
    (here : nodes[index]? = some node) {f : Failure}
    (hf : expandNode strategy index node d = .error f) :
    (expand l strategy nodes).result = .error f := by
  obtain ⟨hlt, rfl⟩ := List.getElem?_eq_some_iff.mp here
  rw [h.result, List.drop_eq_getElem_cons hlt, expandFrom_of_error hf]
  rfl

end Reaches

end FactoryMethods
