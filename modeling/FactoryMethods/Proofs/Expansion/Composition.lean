import FactoryMethods.Catalogue.WellFormed
import FactoryMethods.Proofs.Expansion.Run
import FactoryMethods.Proofs.Source.Placement

/-! Expansion piece by piece. An expansion succeeds exactly if the expansion of every node alone
does, and then its lines are theirs, with one empty line between two nodes. -/
namespace FactoryMethods

def Strategy.linesOf (strategy : Strategy) (l : Dialect) (node : Descriptor) : List String :=
  ((Draft.empty l).applyAll (strategy.method node).edits).endLine.lines.toList

section Lines

variable {l : Dialect} {strategy : Strategy} (index : ℕ) {d : Draft}

theorem Draft.Ready.lines_applyAll (hd : d.Ready l) (edits : List Edit) :
    (d.applyAll edits).endLine.lines.toList =
      d.lines.toList ++ ((Draft.empty l).applyAll edits).endLine.lines.toList := by
  obtain ⟨rfl, hp, hn⟩ := hd
  conv_lhs => rw [← Draft.empty_below hp hn]
  simp

theorem expandNode_lines (hd : d.Ready l) {node : Descriptor}
    (ha : (strategy.method node).Accepted) : ∃ d', expandNode strategy index node d = .ok d' ∧
      d'.Ready l ∧ d'.lines.toList =
        (d.separated index).lines.toList ++ strategy.linesOf l node := by
  have hstep := expandNode_of_accepted index hd ha
  exact ⟨_, hstep, hd.expandNode index hstep, (hd.separated index).lines_applyAll _⟩

theorem expandFrom_of_accepted {nodes : List Descriptor} (hd : d.Ready l)
    (ha : ∀ n ∈ nodes, (strategy.method n).Accepted) :
    ∃ d', (expandFrom strategy (index + 1) d nodes).result = .ok d' ∧ d'.Ready l ∧
      d'.lines.toList = d.lines.toList ++ nodes.flatMap fun n => "" :: strategy.linesOf l n := by
  induction nodes generalizing index d with
  | nil => exact ⟨d, rfl, hd, by simp⟩
  | cons node rest ih =>
    obtain ⟨e, hstep, he, helines⟩ := expandNode_lines (index + 1) hd (ha node (by simp))
    obtain ⟨d', hrest, hd', hlines⟩ := ih (index + 1) he fun n hn => ha n (by simp [hn])
    refine ⟨d', (expandFrom_of_ok hstep rest).trans hrest, hd', ?_⟩
    rw [hlines, helines]
    simp [Draft.separated, hd.pending]

theorem accepted_of_expandFrom {nodes : List Descriptor} (hd : d.Ready l) {d' : Draft}
    (h : (expandFrom strategy index d nodes).result = .ok d') :
    ∀ n ∈ nodes, (strategy.method n).Accepted := by
  induction nodes generalizing index d with
  | nil => simp
  | cons node rest ih =>
    cases hstep : expandNode strategy index node d with
    | error f =>
      rw [expandFrom_of_error hstep] at h
      cases h
    | ok e =>
      rw [expandFrom_of_ok hstep] at h
      rw [List.forall_mem_cons]
      exact ⟨((expandNode_eq_ok_iff index hd).mp hstep).1,
        ih (index + 1) (hd.expandNode index hstep) h⟩

theorem intercalate_empty_line (first : List String) (rest : List (List String)) :
    [""].intercalate (first :: rest) = first ++ rest.flatMap ("" :: ·) := by
  induction rest generalizing first with
  | nil => simp
  | cons second rest ih =>
    have h := ih second
    simp_all [List.intercalate]

theorem expandFrom_zero_of_accepted {nodes : List Descriptor}
    (ha : ∀ n ∈ nodes, (strategy.method n).Accepted) :
    ∃ d', (expandFrom strategy 0 (.empty l) nodes).result = .ok d' ∧ d'.Ready l ∧
      d'.lines.toList = [""].intercalate (nodes.map (strategy.linesOf l)) := by
  cases nodes with
  | nil => exact ⟨.empty l, rfl, Draft.ready_empty l, rfl⟩
  | cons node rest =>
    obtain ⟨e, hstep, he, helines⟩ :=
      expandNode_lines 0 (Draft.ready_empty l) (ha node (by simp))
    obtain ⟨d', hrest, hd', hlines⟩ :=
      expandFrom_of_accepted 0 he fun n hn => ha n (List.mem_cons_of_mem _ hn)
    refine ⟨d', (expandFrom_of_ok hstep rest).trans hrest, hd', ?_⟩
    rw [hlines, helines, List.map_cons, intercalate_empty_line, List.flatMap_map]
    simp [Draft.separated, Draft.empty]

end Lines

theorem Draft.Ready.finish_lines {l : Dialect} {d : Draft} (hd : d.Ready l) :
    d.finish.lines = d.lines := by
  simp [Draft.finish, Draft.endLine, hd.pending]

/-- When an expansion succeeds, and with which lines, said without the run. -/
theorem expand_eq_ok_iff {l : Dialect} {strategy : Strategy} {nodes : List Descriptor}
    {s : Listing} :
    (expand l strategy nodes).result = .ok s ↔ Catalogue.defect? strategy.reserved nodes = none ∧
      (∀ n ∈ nodes, (strategy.method n).Accepted) ∧
      s.lines.toList = [""].intercalate (nodes.map (strategy.linesOf l)) := by
  cases hv : Catalogue.defect? strategy.reserved nodes with
  | some found => simp [expand, hv, Outcome.silent]
  | none =>
    rw [expand_result_of_valid l hv]
    constructor
    · intro h
      cases hrun : (expandFrom strategy 0 (.empty l) nodes).result with
      | error f =>
        rw [hrun] at h
        cases h
      | ok d =>
        rw [hrun] at h
        cases h
        have ha := accepted_of_expandFrom 0 (Draft.ready_empty l) hrun
        obtain ⟨d', hrun', hd', hlines⟩ := expandFrom_zero_of_accepted (l := l) ha
        cases hrun.symm.trans hrun'
        exact ⟨rfl, ha, by rw [hd'.finish_lines, hlines]⟩
    · rintro ⟨_, ha, hs⟩
      obtain ⟨d', hrun, hd', hlines⟩ := expandFrom_zero_of_accepted (l := l) ha
      have hfinish : d'.finish = s := Listing.eq_of_lines (by rw [hd'.finish_lines, hlines, hs])
      rw [hrun, ← hfinish]
      rfl

theorem Catalogue.defect?_singleton {reserved : List String} {nodes : List Descriptor}
    (h : Catalogue.defect? reserved nodes = none) {n : Descriptor} (hn : n ∈ nodes) :
    Catalogue.defect? reserved [n] = none := by
  rw [Catalogue.defect?_eq_none] at h ⊢
  exact ⟨by simpa using h.descriptors n hn, by simp⟩

theorem expand_singleton_eq_ok_iff {l : Dialect} {strategy : Strategy} {nodes : List Descriptor}
    (valid : Catalogue.defect? strategy.reserved nodes = none) {n : Descriptor} (hn : n ∈ nodes)
    {s : Listing} : (expand l strategy [n]).result = .ok s ↔
      (strategy.method n).Accepted ∧ s.lines.toList = strategy.linesOf l n := by
  simp [expand_eq_ok_iff, Catalogue.defect?_singleton valid hn]

/-- All or nothing, and piece by piece: a catalogue expands exactly if it is valid and each of its
nodes expands alone, and its lines are those of these listings, joined by empty lines. -/
theorem expand_composes (l : Dialect) (strategy : Strategy) (nodes : List Descriptor) :
    ((∃ s, (expand l strategy nodes).result = .ok s) ↔
      Catalogue.defect? strategy.reserved nodes = none ∧
        ∀ n ∈ nodes, ∃ s, (expand l strategy [n]).result = .ok s) ∧
    (∀ s, (expand l strategy nodes).result = .ok s → ∃ parts : List Listing,
      List.Forall₂ (fun n part => (expand l strategy [n]).result = .ok part) nodes parts ∧
        s.lines.toList = [""].intercalate (parts.map fun part => part.lines.toList)) ∧
    ((¬ ∃ s, (expand l strategy nodes).result = .ok s) →
      ∃ f, (expand l strategy nodes).result = .error f) := by
  let part (n : Descriptor) : Listing := ⟨(strategy.linesOf l n).toArray⟩
  refine ⟨⟨?_, ?_⟩, ?_, ?_⟩
  · rintro ⟨s, hs⟩
    obtain ⟨valid, ha, _⟩ := expand_eq_ok_iff.mp hs
    exact ⟨valid, fun n hn => ⟨part n, (expand_singleton_eq_ok_iff valid hn).mpr ⟨ha n hn, rfl⟩⟩⟩
  · rintro ⟨valid, hsingle⟩
    refine ⟨⟨([""].intercalate (nodes.map (strategy.linesOf l))).toArray⟩,
      expand_eq_ok_iff.mpr ⟨valid, fun n hn => ?_, rfl⟩⟩
    obtain ⟨s, hs⟩ := hsingle n hn
    exact ((expand_singleton_eq_ok_iff valid hn).mp hs).1
  · intro s hs
    obtain ⟨valid, ha, hlines⟩ := expand_eq_ok_iff.mp hs
    refine ⟨nodes.map part, ?_, ?_⟩
    · rw [List.forall₂_map_right_iff, List.forall₂_same]
      exact fun n hn => (expand_singleton_eq_ok_iff valid hn).mpr ⟨ha n hn, rfl⟩
    · rw [hlines, List.map_map]
      rfl
  · intro hno
    cases h : (expand l strategy nodes).result with
    | error f => exact ⟨f, rfl⟩
    | ok s => exact absurd ⟨s, h⟩ hno

end FactoryMethods
