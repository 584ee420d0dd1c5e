import FactoryMethods.Proofs.Expansion.Run

/-! Which descriptor is to blame. A run that does not succeed ends at one descriptor: at the first
defect, with no method begun, or else at the first method that fails or leaves blocks out of
balance. It begins no later method, and its failure names that descriptor once and for all, unless
the method's own failure names one already. -/
namespace FactoryMethods

/-- The strategy that reserves the same names and writes other methods. -/
def Strategy.withMethod (strategy : Strategy) (method : Descriptor → Program) : Strategy :=
  { strategy with method }

theorem expandNode_congr {strategy : Strategy} {method : Descriptor → Program} {node : Descriptor}
    (h : method node = strategy.method node) (index : ℕ) (d : Draft) :
    expandNode (strategy.withMethod method) index node d = expandNode strategy index node d := by
  simp only [expandNode, Strategy.withMethod, h]

def begun (nodes : List Descriptor) (count : ℕ) : List LogEntry :=
  (nodes.take count).mapIdx LogEntry.expanding

theorem begun_succ {nodes : List Descriptor} {index : ℕ} {node : Descriptor}
    (here : nodes[index]? = some node) :
    begun nodes (index + 1) = begun nodes index ++ [.expanding index node] := by
  obtain ⟨hlt, -⟩ := List.getElem?_eq_some_iff.mp here
  have hlength : (nodes.take index).length = index := List.length_take_of_le hlt.le
  rw [begun, List.take_add_one, here, List.mapIdx_append, hlength]
  simp [begun]

namespace Reaches

variable {l : Dialect} {strategy : Strategy} {nodes : List Descriptor} {index : ℕ} {d : Draft}

theorem valid (h : Reaches l strategy nodes index d) :
    Catalogue.defect? strategy.reserved nodes = none := by
  induction h with
  | start valid => exact valid
  | next _ _ _ ih => exact ih

theorem unique {d' : Draft} (h : Reaches l strategy nodes index d)
    (h' : Reaches l strategy nodes index d') : d = d' := by
  induction h generalizing d' with
  | start _ =>
    cases h'
    rfl
  | @next index node d e before here step ih =>
    cases h' with
    | @next _ node' c _ before' here' step' =>
      have hd : d = c := ih before'
      have hnode : node = node' := Option.some.inj (here.symm.trans here')
      subst hd hnode
      exact Except.ok.inj (step.symm.trans step')

theorem step_of_lt (h : Reaches l strategy nodes index d) {earlier : ℕ} (hlt : earlier < index) :
    ∃ e node e', Reaches l strategy nodes earlier e ∧ nodes[earlier]? = some node ∧
      expandNode strategy earlier node e = .ok e' := by
  induction h with
  | start _ => omega
  | @next index node d d' before here step ih =>
    rcases Nat.lt_succ_iff_lt_or_eq.mp hlt with hbefore | rfl
    · exact ih hbefore
    · exact ⟨d, node, d', before, here, step⟩

theorem congr {method : Descriptor → Program} (h : Reaches l strategy nodes index d)
    (hmethod : ∀ n ∈ nodes.take index, method n = strategy.method n) :
    Reaches l (strategy.withMethod method) nodes index d := by
  induction h with
  | start valid => exact .start valid
  | @next index node d d' before here step ih =>
    have hnode : node ∈ nodes.take (index + 1) := by
      rw [List.take_add_one, here]
      simp
    have hearlier : ∀ n ∈ nodes.take index, method n = strategy.method n := fun n hn =>
      hmethod n (List.take_subset_take_left nodes index.le_succ hn)
    have hstep := expandNode_congr (hmethod node hnode) index d
    exact (ih hearlier).next here (hstep.trans step)

theorem expandFrom_eq (h : Reaches l strategy nodes index d) :
    let rest := expandFrom strategy index d (nodes.drop index)
    expandFrom strategy 0 (.empty l) nodes = ⟨begun nodes index ++ rest.log, rest.result⟩ := by
  induction h with
  | start _ => rfl
  | @next index node d d' before here step ih =>
    obtain ⟨hlt, rfl⟩ := List.getElem?_eq_some_iff.mp here
    have hrest : expandFrom strategy index d (nodes.drop index) =
        ⟨.expanding index nodes[index] ::
          (expandFrom strategy (index + 1) d' (nodes.drop (index + 1))).log,
          (expandFrom strategy (index + 1) d' (nodes.drop (index + 1))).result⟩ := by
      rw [List.drop_eq_getElem_cons hlt]
      simp [expandFrom, step]
    rw [ih, hrest, begun_succ here]
    simp

theorem expand_of_error (h : Reaches l strategy nodes index d) {node : Descriptor}
    (here : nodes[index]? = some node) {f : Failure}
    (hf : expandNode strategy index node d = .error f) :
    expand l strategy nodes = ⟨begun nodes (index + 1) ++ [.aborted f], .error f⟩ := by
  obtain ⟨hlt, rfl⟩ := List.getElem?_eq_some_iff.mp here
  have hrest : expandFrom strategy index d (nodes.drop index) =
      ⟨[.expanding index nodes[index]], .error f⟩ := by
    rw [List.drop_eq_getElem_cons hlt]
    simp [expandFrom, hf]
  have hwritten := h.expandFrom_eq
  rw [hrest] at hwritten
  simp [expand, h.valid, hwritten, begun_succ here]

theorem expand_of_end (h : Reaches l strategy nodes nodes.length d) : expand l strategy nodes =
    ⟨begun nodes nodes.length ++ [.expanded nodes.length d.finish.size], .ok d.finish⟩ := by
  have hwritten := h.expandFrom_eq
  rw [List.drop_length] at hwritten
  simp [expand, h.valid, hwritten, expandFrom]

end Reaches

/-- Run on the draft on which its turn comes, the method fails or leaves blocks out of balance. -/
def Refused (strategy : Strategy) (index : ℕ) (node : Descriptor) (d : Draft) : Prop :=
  let run := (strategy.method node).run (d.separated index)
  run.failure ≠ none ∨ run.draft.nesting.balancedSince (d.separated index).nesting = false

/-- The run comes to the descriptor at `index`, and its method is refused. -/
def RefusedAt (l : Dialect) (strategy : Strategy) (nodes : List Descriptor) (index : ℕ) : Prop :=
  ∃ d node, Reaches l strategy nodes index d ∧ nodes[index]? = some node ∧
    Refused strategy index node d

section Node

variable {strategy : Strategy} {index : ℕ} {node : Descriptor} {d : Draft}

theorem Refused.exists_error (h : Refused strategy index node d) :
    ∃ f, expandNode strategy index node d = .error f ∧ f.index?.isSome = true := by
  cases hf : (strategy.method node).failure? with
  | some f =>
    have hnamed := f.index?_inDescriptor index node.name
    exact ⟨_, expandNode_of_failure index hf, by simp [hnamed]⟩
  | none =>
    have hb := h.resolve_left (by simp [hf])
    exact ⟨_, expandNode_of_not_balanced index hf hb, rfl⟩

theorem exists_ok_of_not_refused (h : ¬ Refused strategy index node d) :
    ∃ d', expandNode strategy index node d = .ok d' := by
  obtain ⟨hf, hb⟩ := not_or.mp h
  have hsucceeds : (strategy.method node).failure? = none := by
    simpa using Decidable.of_not_not hf
  exact ⟨_, expandNode_of_balanced index hsucceeds (Bool.eq_true_of_not_eq_false hb)⟩

end Node

namespace Failure

theorem inDescriptor_of_index? {f : Failure} (h : f.index?.isSome = true) (index : ℕ)
    (name : String) : f.inDescriptor index name = f := by
  simp [inDescriptor, h]

theorem inDescriptor_of_none {f : Failure} (h : f.index? = none) (index : ℕ) (name : String) :
    f.inDescriptor index name = .expansion index (displayName name) f := by
  simp [inDescriptor, h]

theorem foldl_inDescriptor {f : Failure} (h : f.index?.isSome = true) (handed : List (ℕ × String)) :
    handed.foldl (fun f w => f.inDescriptor w.1 w.2) f = f := by
  induction handed with
  | nil => rfl
  | cons w handed ih => rw [List.foldl_cons, inDescriptor_of_index? h, ih]

end Failure

section Runs

variable {l : Dialect} {strategy : Strategy} {nodes : List Descriptor}

/-- Induction on the descriptors: the run comes past each that is not refused. -/
theorem exists_reaches (valid : Catalogue.defect? strategy.reserved nodes = none)
    (h : ∀ i, ¬ RefusedAt l strategy nodes i) (index : ℕ) (hindex : index ≤ nodes.length) :
    ∃ d, Reaches l strategy nodes index d := by
  induction index with
  | zero => exact ⟨_, .start valid⟩
  | succ index ih =>
    obtain ⟨d, hd⟩ := ih (by omega)
    have here : nodes[index]? = some nodes[index] := List.getElem?_eq_getElem (by omega)
    have hnot : ¬ Refused strategy index nodes[index] d := fun hr => h index ⟨d, _, hd, here, hr⟩
    obtain ⟨d', step⟩ := exists_ok_of_not_refused hnot
    exact ⟨d', hd.next here step⟩

theorem expand_ok_of_none_refused (valid : Catalogue.defect? strategy.reserved nodes = none)
    (h : ∀ i, ¬ RefusedAt l strategy nodes i) : ∃ s, (expand l strategy nodes).result = .ok s := by
  obtain ⟨d, hd⟩ := exists_reaches valid h nodes.length le_rfl
  exact ⟨d.finish, congrArg Outcome.result hd.expand_of_end⟩

theorem RefusedAt.isLeast {index : ℕ} (h : RefusedAt l strategy nodes index) :
    IsLeast {i | RefusedAt l strategy nodes i} index := by
  refine ⟨h, ?_⟩
  rintro earlier ⟨d, node, hd, here, hrefused⟩
  by_contra hlt
  obtain ⟨last, _, hlast, _, _⟩ := h
  obtain ⟨e, node', e', he, here', step⟩ := hlast.step_of_lt (Nat.lt_of_not_le hlt)
  obtain ⟨f, hf, -⟩ := hrefused.exists_error
  have hd : d = e := hd.unique he
  have hnode : node = node' := Option.some.inj (here.symm.trans here')
  subst hd hnode
  rw [step] at hf
  cases hf

theorem index?_isSome_of_expand {f : Failure} (h : (expand l strategy nodes).result = .error f) :
    f.index?.isSome = true := by
  cases hdefect : Catalogue.defect? strategy.reserved nodes with
  | some found =>
    obtain ⟨node, -, hexpand⟩ := expand_of_defect l hdefect
    rw [hexpand] at h
    cases h
    rfl
  | none =>
    by_cases hnone : ∀ i, ¬ RefusedAt l strategy nodes i
    · obtain ⟨s, hs⟩ := expand_ok_of_none_refused hdefect hnone
      rw [hs] at h
      cases h
    · obtain ⟨i, hi⟩ := not_forall.mp hnone
      obtain ⟨d, node, hd, here, hrefused⟩ := not_not.mp hi
      obtain ⟨f', hf', hnamed⟩ := hrefused.exists_error
      rw [hd.result_of_error here hf'] at h
      cases h
      exact hnamed

end Runs

/-- Every failure of a run is put down to one descriptor: the first with a defect, before any method
is begun, or else the first whose method is refused. Later descriptors are not begun. -/
theorem expand_attribution (l : Dialect) (strategy : Strategy) (nodes : List Descriptor) :
    (∀ index defect, Catalogue.defect? strategy.reserved nodes = some (index, defect) →
      ∃ node, nodes[index]? = some node ∧
        let f := Failure.malformed index (displayName node.name) defect
        ∀ method, expand l (strategy.withMethod method) nodes = ⟨[.aborted f], .error f⟩) ∧
    (Catalogue.defect? strategy.reserved nodes = none →
      (∀ i, ¬ RefusedAt l strategy nodes i) → ∃ s, (expand l strategy nodes).result = .ok s) ∧
    (∀ i, RefusedAt l strategy nodes i → IsLeast {j | RefusedAt l strategy nodes j} i ∧
      ∃ d node f, Reaches l strategy nodes i d ∧ nodes[i]? = some node ∧
        (let start := d.separated i
        let run := (strategy.method node).run start
        (∀ e, run.failure = some e → (e.index?.isSome = true → f = e) ∧
          (e.index? = none → f = .expansion i (displayName node.name) e)) ∧
        (run.failure = none → f = .unbalanced i (displayName node.name)
          (run.draft.nesting.opened - start.nesting.opened)
          (run.draft.nesting.closed - start.nesting.closed))) ∧
        ∀ method, (∀ n ∈ nodes.take (i + 1), method n = strategy.method n) →
          expand l (strategy.withMethod method) nodes =
            ⟨begun nodes (i + 1) ++ [.aborted f], .error f⟩) ∧
    (∀ f, (expand l strategy nodes).result = .error f → f.index?.isSome = true ∧
      ∀ handed : List (ℕ × String), handed.foldl (fun f w => f.inDescriptor w.1 w.2) f = f) := by
  refine ⟨?_, expand_ok_of_none_refused, ?_, ?_⟩
  · intro index defect hdefect
    obtain ⟨node, here, -⟩ := expand_of_defect l hdefect
    refine ⟨node, here, fun method => ?_⟩
    have hother : Catalogue.defect? (strategy.withMethod method).reserved nodes =
      some (index, defect) := hdefect
    obtain ⟨node', here', hexpand⟩ := expand_of_defect l hother
    cases here.symm.trans here'
    exact hexpand
  · intro i hrefusedAt
    refine ⟨hrefusedAt.isLeast, ?_⟩
    obtain ⟨d, node, hd, here, hrefused⟩ := hrefusedAt
    obtain ⟨f, hf, -⟩ := hrefused.exists_error
    refine ⟨d, node, f, hd, here, ⟨fun e he => ?_, fun hnone => ?_⟩, fun method hmethod => ?_⟩
    · rw [Program.run_failure] at he
      have hwrapped := Except.error.inj (hf.symm.trans (expandNode_of_failure i he))
      rw [hwrapped]
      exact ⟨fun hnamed => e.inDescriptor_of_index? hnamed i node.name,
        fun hnone => e.inDescriptor_of_none hnone i node.name⟩
    · have hunbalanced := hrefused.resolve_left (not_not_intro hnone)
      rw [Program.run_failure] at hnone
      have herror := expandNode_of_not_balanced i hnone hunbalanced
      exact Except.error.inj (hf.symm.trans herror)
    · have hearlier : ∀ n ∈ nodes.take i, method n = strategy.method n := fun n hn =>
        hmethod n (List.take_subset_take_left nodes i.le_succ hn)
      have hlast : node ∈ nodes.take (i + 1) := by
        rw [List.take_add_one, here]
        simp
      have hstep := expandNode_congr (hmethod node hlast) i d
      exact (hd.congr hearlier).expand_of_error here (hstep.trans hf)
  · intro f hf
    have hnamed := index?_isSome_of_expand hf
    exact ⟨hnamed, Failure.foldl_inDescriptor hnamed⟩

/-- A method that fails inside a block of its own is put down as failed, not as unbalanced. -/
example :
    let strategy : Strategy := ⟨[], fun node =>
      if node.name = "A" then .done else .edit .openBlock (.fail (.generation "no body"))⟩
    (expand .rust strategy [⟨"A", []⟩, ⟨"B", []⟩, ⟨"C", []⟩]).result =
      .error (.expansion 1 "B" (.generation "no body")) := by rfl

end FactoryMethods
