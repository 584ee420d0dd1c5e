import FactoryMethods.Method.Factory
import FactoryMethods.Proofs.Expansion.Run
import FactoryMethods.Proofs.Source.Shape

/-! Independence of the dialect. A method program does not see the dialect, so the runs of an
expansion under two dialects go step by step through drafts of the same shape. They are accepted or
refused together and log the same; only the text on their lines differs. -/
namespace FactoryMethods

/-- What a checkpoint shows under every dialect. -/
def Checkpoint.shape (c : Checkpoint) : String × Shape := (c.label, c.draft.shape)

section Mapped

variable {ε α β : Type} {g : α → β} {x y : Except ε α}

theorem error_iff_of_map_eq (h : x.map g = y.map g) (f : ε) : x = .error f ↔ y = .error f := by
  cases x <;> cases y <;> simp_all [Except.map]

theorem exists_ok_of_map_eq (h : x.map g = y.map g) {a : α} (hx : x = .ok a) :
    ∃ b, y = .ok b ∧ g a = g b := by
  subst hx
  cases y with
  | error f => cases h
  | ok b => exact ⟨b, rfl, Except.ok.inj h⟩

end Mapped

section Congruence

variable {d e : Draft}

theorem Draft.shape_applyAll_congr (h : d.shape = e.shape) (edits : List Edit) :
    (d.applyAll edits).shape = (e.applyAll edits).shape := by
  rw [shape_applyAll, shape_applyAll, h]

theorem Draft.shape_separated_congr (h : d.shape = e.shape) (index : ℕ) :
    (d.separated index).shape = (e.separated index).shape := by
  unfold Draft.separated
  split
  · exact h
  · rw [shape_newline, shape_newline, h]

/-- Induction on the program: each of its steps keeps the shapes the same. -/
theorem Program.checkpoints_congr (p : Program) (h : d.shape = e.shape) :
    (p.run d).checkpoints.map Checkpoint.shape = (p.run e).checkpoints.map Checkpoint.shape := by
  induction p generalizing d e with
  | edit a next ih => exact ih (Draft.shape_applyAll_congr h [a])
  | checkpoint label next ih => simp [run, Checkpoint.shape, h, ih h]
  | block body next ihb ihn =>
    have hopen : d.openBlock.shape = e.openBlock.shape := Draft.shape_applyAll_congr h [.openBlock]
    have hclose : (d.openBlock.applyAll body.edits).closeBlock.shape =
        (e.openBlock.applyAll body.edits).closeBlock.shape := by
      have hbody := Draft.shape_applyAll_congr hopen body.edits
      exact Draft.shape_applyAll_congr hbody [.closeBlock]
    cases hf : body.failure? with
    | some f => simp [run, hf, ihb hopen]
    | none => simp [run, hf, ihb hopen, ihn hclose]
  | _ => rfl

variable (strategy : Strategy)

/-- The check of balance and the numbers in its failure come from the account of blocks, and that is
part of the shape. -/
theorem expandNode_congr_shape (h : d.shape = e.shape) (index : ℕ) (node : Descriptor) :
    (expandNode strategy index node d).map Draft.shape =
      (expandNode strategy index node e).map Draft.shape := by
  cases hf : (strategy.method node).failure? with
  | some f => rw [expandNode_of_failure index hf, expandNode_of_failure index hf]
  | none =>
    have hstart := Draft.shape_separated_congr h index
    have hstop : ((strategy.method node).run (d.separated index)).draft.shape =
        ((strategy.method node).run (e.separated index)).draft.shape := by
      rw [Program.run_draft, Program.run_draft, Draft.shape_applyAll_congr hstart]
    have hbefore : (d.separated index).nesting = (e.separated index).nesting :=
      congrArg Shape.nesting hstart
    have hafter : ((strategy.method node).run (d.separated index)).draft.nesting =
        ((strategy.method node).run (e.separated index)).draft.nesting :=
      congrArg Shape.nesting hstop
    cases hb : ((strategy.method node).run (d.separated index)).draft.nesting.balancedSince
        (d.separated index).nesting with
    | true =>
      rw [expandNode_of_balanced index hf hb,
        expandNode_of_balanced index hf (by rw [← hafter, ← hbefore, hb])]
      exact congrArg Except.ok (by rw [Draft.shape_endLine, Draft.shape_endLine, hstop])
    | false =>
      rw [expandNode_of_not_balanced index hf hb,
        expandNode_of_not_balanced index hf (by rw [← hafter, ← hbefore, hb]), hafter, hbefore]

theorem expandFrom_congr_shape (h : d.shape = e.shape) (index : ℕ) (nodes : List Descriptor) :
    (expandFrom strategy index d nodes).map Draft.shape =
      (expandFrom strategy index e nodes).map Draft.shape := by
  induction nodes generalizing index d e with
  | nil => simp [expandFrom, Outcome.map, Except.map, h]
  | cons node rest ih =>
    have hstep := expandNode_congr_shape strategy h index node
    cases hd : expandNode strategy index node d with
    | error f =>
      have he := (error_iff_of_map_eq hstep f).mp hd
      simp [expandFrom, hd, he]
    | ok d' =>
      obtain ⟨e', he, hshape⟩ := exists_ok_of_map_eq hstep hd
      have hrest := ih hshape (index + 1)
      simp_all [expandFrom, Outcome.map]

end Congruence

section Runs

variable {strategy : Strategy} {nodes : List Descriptor}

theorem Reaches.exists_shape_eq {l : Dialect} {index : ℕ} {d : Draft}
    (h : Reaches l strategy nodes index d) (m : Dialect) :
    ∃ e, Reaches m strategy nodes index e ∧ d.shape = e.shape := by
  induction h with
  | start valid => exact ⟨.empty m, .start valid, rfl⟩
  | @next index node d d' before here step ih =>
    obtain ⟨e, he, hshape⟩ := ih
    have hstep := expandNode_congr_shape strategy hshape index node
    obtain ⟨e', he', hshape'⟩ := exists_ok_of_map_eq hstep step
    exact ⟨e', he.next here he', hshape'⟩

theorem expand_map_size (l m : Dialect) (strategy : Strategy) (nodes : List Descriptor) :
    (expand l strategy nodes).map Listing.size = (expand m strategy nodes).map Listing.size := by
  cases hv : Catalogue.defect? strategy.reserved nodes with
  | some found => simp [expand, hv, Outcome.silent, Outcome.map, Except.map]
  | none =>
    have hnew : (Draft.empty l).shape = (Draft.empty m).shape := rfl
    have hrun := expandFrom_congr_shape strategy hnew 0 nodes
    have hlog : (expandFrom strategy 0 (.empty l) nodes).log =
        (expandFrom strategy 0 (.empty m) nodes).log := by simpa using congrArg Outcome.log hrun
    have hresult := congrArg Outcome.result hrun
    cases hd : (expandFrom strategy 0 (.empty l) nodes).result with
    | error f =>
      have he := (error_iff_of_map_eq hresult f).mp hd
      simp [expand, hv, hd, he, hlog]
    | ok d =>
      obtain ⟨e, he, hshape⟩ := exists_ok_of_map_eq hresult hd
      simp [expand, hv, hd, he, hlog, hshape, Draft.size_finish, Outcome.map, Except.map]

end Runs

/-- Under any two dialects an expansion logs the same and fails with the same failure or gives as
many lines; after every edit the accounts of blocks agree, and so does whether the line is empty. -/
theorem expand_independent_of_dialect (l m : Dialect) (strategy : Strategy)
    (nodes : List Descriptor) : (expand l strategy nodes).log = (expand m strategy nodes).log ∧
    (∀ f, (expand l strategy nodes).result = .error f ↔
      (expand m strategy nodes).result = .error f) ∧
    (∀ s, (expand l strategy nodes).result = .ok s →
      ∃ t, (expand m strategy nodes).result = .ok t ∧ s.size = t.size) ∧
    ∀ i d, Reaches l strategy nodes i d → ∃ e, Reaches m strategy nodes i e ∧ d.shape = e.shape ∧
      ∀ node, nodes[i]? = some node →
        (∀ made, made <+: (strategy.method node).edits →
          ((d.separated i).applyAll made).shape = ((e.separated i).applyAll made).shape) ∧
        ((strategy.method node).run (d.separated i)).checkpoints.map Checkpoint.shape =
          ((strategy.method node).run (e.separated i)).checkpoints.map Checkpoint.shape := by
  have hsame := expand_map_size l m strategy nodes
  have hlog : (expand l strategy nodes).log = (expand m strategy nodes).log := by
    simpa using congrArg Outcome.log hsame
  have hresult := congrArg Outcome.result hsame
  refine ⟨hlog, error_iff_of_map_eq hresult, fun s hs => exists_ok_of_map_eq hresult hs,
    fun i d hd => ?_⟩
  obtain ⟨e, he, hshape⟩ := hd.exists_shape_eq m
  have hstart := Draft.shape_separated_congr hshape i
  exact ⟨e, he, hshape, fun node _ =>
    ⟨fun made _ => Draft.shape_applyAll_congr hstart made, Program.checkpoints_congr _ hstart⟩⟩

/-- With nothing for every token, lines are empty, but there are as many. -/
example :
    let bare : Dialect := ⟨"", "", "", "", "", "", "", .typeFirst, .trailing, .typed, .keyword⟩
    ((expand bare factory [⟨"A", []⟩, ⟨"B", [⟨"x", "X"⟩]⟩]).map Listing.lines).result =
      .ok #["A( pos) -> A ", "A t = new A()", "t.pos = pos", "return t", "", "",
        "B( pos, X x) -> B ", "B t = new B(x)", "t.pos = pos", "return t", ""] := by rfl

end FactoryMethods
