import FactoryMethods.Proofs.Expansion.Run

/-! The balance check. It compares two differences of totals and one count of underflows, and yet it
decides proper nesting: no block is open where a method starts, so a close that meets no block of
the method itself meets none at all. -/
namespace FactoryMethods

/-- Of a method that does not fail, exactly the properly nested ones are accepted. Any other ends
the run, with the numbers of its own opens and closes. -/
theorem balance_check_iff {l : Dialect} {strategy : Strategy} {nodes : List Descriptor} {index : ℕ}
    {node : Descriptor} {d : Draft} (reached : Reaches l strategy nodes index d)
    (here : nodes[index]? = some node)
    (succeeds : ((strategy.method node).run (d.separated index)).failure = none) :
    let start := d.separated index
    let stop := ((strategy.method node).run start).draft
    let edits := (strategy.method node).edits
    start.nesting.depth = 0 ∧ stop = start.applyAll edits ∧
    (stop.nesting.balancedSince start.nesting = true ↔ Balanced (brackets edits)) ∧
    (Balanced (brackets edits) → Reaches l strategy nodes (index + 1) stop.endLine) ∧
    (¬ Balanced (brackets edits) → (expand l strategy nodes).result =
      .error (.unbalanced index (displayName node.name)
        (edits.count .openBlock) (edits.count .closeBlock))) := by
  intro start stop edits
  have hready := reached.ready
  have hdepth : start.nesting.depth = 0 := (hready.separated index).depth
  have hstop : stop = start.applyAll edits := Program.run_draft _ _
  have hfailure : (strategy.method node).failure? = none := by
    rw [← succeeds, Program.run_failure]
  refine ⟨hdepth, hstop, ?_, ?_, ?_⟩
  · rw [hstop, Draft.applyAll_nesting]
    exact Nesting.balancedSince_afterAll_iff hdepth edits
  · intro hb
    apply reached.next here
    rw [expandNode_of_accepted index hready ⟨hfailure, hb⟩, hstop]
  · intro hb
    apply reached.result_of_error here
    rw [expandNode_of_unbalanced index hready hfailure hb, count_open_brackets,
      count_close_brackets]

/-- Its method of any other node than `A` closes a block before it opens one. -/
def closingFirst : Strategy where
  method node := if node.name = "A" then .block .done .done else .ofEdits [.closeBlock, .openBlock]

theorem balance_check_iff_closing_first :
    ∃ d, Reaches .java closingFirst [⟨"A", []⟩, ⟨"B", []⟩] 1 d ∧
      ((closingFirst.method ⟨"B", []⟩).run (d.separated 1)).failure = none ∧
      (expand .java closingFirst [⟨"A", []⟩, ⟨"B", []⟩]).result =
        .error (.unbalanced 1 "B" 1 1) := by
  have hstart : Reaches .java closingFirst [⟨"A", []⟩, ⟨"B", []⟩] 0 (.empty .java) :=
    .start (by decide)
  have hreached := hstart.next rfl rfl
  have hcheck := balance_check_iff hreached rfl rfl
  refine ⟨_, hreached, rfl, hcheck.2.2.2.2 fun hb => ?_⟩
  exact absurd (((balanced_iff _).mp hb).2 1) (by decide)

end FactoryMethods
