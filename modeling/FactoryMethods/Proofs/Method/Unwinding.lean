import FactoryMethods.Proofs.Method.Flattening

/-! Ways out of a block. Written out flat, a program shows the open and the close of each of its
blocks as steps of their own, where they stand. A run takes the steps in order; if one fails, the
blocks that were entered and not left are closed, innermost first, and nothing else is done. -/
namespace FactoryMethods

/-- A step of a program written out flat. To enter and to leave a block of the program is kept apart
from the edits that open or close one by hand. -/
inductive Step
  | edit (e : Edit)
  | enter
  | leave
  | fail (f : Failure)
  deriving DecidableEq, Repr

/-- The account after so many more blocks, all of them closed. -/
def Nesting.withBlocks (n : Nesting) (blocks : Nat) : Nesting :=
  { n with opened := n.opened + blocks, closed := n.closed + blocks }

namespace Nesting

@[simp] theorem withBlocks_withBlocks (n : Nesting) (a b : Nat) :
    (n.withBlocks a).withBlocks b = n.withBlocks (a + b) := by
  simp [withBlocks, Nat.add_assoc]

theorem leave_withBlocks_enter (n : Nesting) (blocks : Nat) :
    (n.enter.withBlocks blocks).leave = n.withBlocks (blocks + 1) := by
  simp [withBlocks, enter, leave]
  omega

end Nesting

namespace Step

def failure? : Step → Option Failure
  | fail f => some f
  | _ => none

def edit? : Step → Option Edit
  | edit e => some e
  | enter => some .openBlock
  | leave => some .closeBlock
  | fail _ => none

def edits (steps : List Step) : List Edit := steps.filterMap edit?

/-- The steps before the first that fails. -/
def taken (steps : List Step) : List Step := steps.takeWhile fun s => s.failure? = none

/-- How many blocks were entered and not left. -/
def unclosed (steps : List Step) : Nat := steps.count enter - steps.count leave

theorem taken_append_of_none {a : List Step} (h : a.findSome? failure? = none) (b : List Step) :
    taken (a ++ b) = a ++ taken b := by
  rw [List.findSome?_eq_none_iff] at h
  exact List.takeWhile_append_of_pos (by simpa using h)

theorem taken_append_of_some {a : List Step} {f : Failure} (h : a.findSome? failure? = some f)
    (b : List Step) : taken (a ++ b) = taken a := by
  induction a with
  | nil => cases h
  | cons s a ih =>
    rw [List.findSome?_cons] at h
    cases hs : s.failure? with
    | some g => simp [taken, hs]
    | none =>
      have htail := ih (by simpa [hs] using h)
      simpa [taken, hs] using htail

theorem findSome?_eq_some_iff {steps : List Step} {f : Failure} :
    steps.findSome? failure? = some f ↔ ∃ rest, steps = taken steps ++ fail f :: rest := by
  induction steps with
  | nil => simp
  | cons s steps ih =>
    cases s with
    | fail g => simp [List.findSome?_cons, taken, failure?]
    | _ => simpa [List.findSome?_cons, taken, failure?] using ih

end Step

namespace Program

open Step (taken unclosed)

def steps : Program → List Step
  | .done => []
  | .edit e next => .edit e :: next.steps
  | .block body next => .enter :: (body.steps ++ .leave :: next.steps)
  | .checkpoint _ next => next.steps
  | .fail f => [.fail f]

theorem failure?_eq (p : Program) : p.failure? = p.steps.findSome? Step.failure? := by
  induction p with
  | done => rfl
  | edit e next ih => exact ih
  | block body next ihb ihn =>
    simp [failure?, steps, List.findSome?_cons, Step.failure?, ihb, ihn]
  | checkpoint label next ih => exact ih
  | fail f => rfl

theorem count_leave_steps (p : Program) : p.steps.count .leave = p.steps.count .enter := by
  induction p with
  | block body next ihb ihn =>
    simp [steps, ihb, ihn]
    omega
  | edit e next ih => simpa [steps] using ih
  | checkpoint label next ih => exact ih
  | _ => rfl

theorem taken_of_succeeds {p : Program} (h : p.failure? = none) : taken p.steps = p.steps := by
  rw [failure?_eq] at h
  simpa [taken] using Step.taken_append_of_none h []

theorem taken_block_of_succeeds {body : Program} (h : body.failure? = none) (next : Program) :
    taken (block body next).steps = .enter :: (body.steps ++ .leave :: taken next.steps) := by
  rw [failure?_eq] at h
  exact congrArg (Step.enter :: ·) (Step.taken_append_of_none h (.leave :: next.steps))

theorem taken_block_of_fails {body : Program} {f : Failure} (h : body.failure? = some f)
    (next : Program) : taken (block body next).steps = .enter :: taken body.steps := by
  rw [failure?_eq] at h
  exact congrArg (Step.enter :: ·) (Step.taken_append_of_some h (.leave :: next.steps))

theorem count_leave_taken_le (p : Program) :
    (taken p.steps).count .leave ≤ (taken p.steps).count .enter := by
  induction p with
  | edit e next ih => simpa [taken, steps, Step.failure?] using ih
  | block body next ihb ihn =>
    cases h : body.failure? with
    | none =>
      have hbody := body.count_leave_steps
      simp [taken_block_of_succeeds h]
      omega
    | some f =>
      simp [taken_block_of_fails h]
      omega
  | checkpoint label next ih => exact ih
  | _ => exact Nat.le_refl _

/-- Induction on the program. A block whose body fails is one more to be closed, after
those in it. -/
theorem edits_eq (p : Program) : p.edits =
    Step.edits (taken p.steps) ++ List.replicate (unclosed (taken p.steps)) .closeBlock := by
  induction p with
  | edit e next ih =>
    have htaken : taken (edit e next).steps = .edit e :: taken next.steps := rfl
    rw [htaken, edits, ih]
    simp [Step.edits, Step.edit?, unclosed]
  | block body next ihb ihn =>
    cases h : body.failure? with
    | none =>
      have hbody := body.count_leave_steps
      have hnext := next.count_leave_taken_le
      rw [taken_of_succeeds h, unclosed, hbody, Nat.sub_self] at ihb
      rw [taken_block_of_succeeds h, edits, if_pos h, ihb, ihn]
      have hunclosed : unclosed (.enter :: (body.steps ++ .leave :: taken next.steps)) =
          unclosed (taken next.steps) := by
        simp [unclosed, hbody]
        omega
      rw [hunclosed]
      simp [Step.edits, Step.edit?]
    | some f =>
      have hbody := body.count_leave_taken_le
      have hunclosed : unclosed (.enter :: taken body.steps) = unclosed (taken body.steps) + 1 := by
        simp [unclosed]
        omega
      rw [taken_block_of_fails h, edits, if_neg (by simp [h]), ihb, hunclosed, List.replicate_succ']
      simp [Step.edits, Step.edit?]
  | checkpoint label next ih => exact ih
  | _ => rfl

/-- No block is opened or closed by hand. -/
def Structured (p : Program) : Prop := ∀ e, .edit e ∈ p.steps → e ≠ .openBlock ∧ e ≠ .closeBlock

/-- What a program opens it closes, also when it fails, and it closes nothing else. -/
theorem afterAll_edits_of_structured {p : Program} (h : p.Structured) (n : Nesting) :
    n.afterAll p.edits = n.withBlocks ((taken p.steps).count .enter) := by
  induction p generalizing n with
  | edit e next ih =>
    have hnext : next.Structured := fun e' he' => h e' (List.mem_cons_of_mem _ he')
    obtain ⟨hopen, hclose⟩ := h e List.mem_cons_self
    have hafter : n.after e = n := by cases e <;> simp_all [Nesting.after]
    simpa [edits, hafter, taken, steps, Step.failure?] using ih hnext n
  | block body next ihb ihn =>
    have hbody : body.Structured := fun e he => h e (by simp [steps, he])
    have hnext : next.Structured := fun e he => h e (by simp [steps, he])
    have hclosed : (n.enter.afterAll body.edits).leave =
        n.withBlocks ((taken body.steps).count .enter + 1) := by
      rw [ihb hbody, Nesting.leave_withBlocks_enter]
    cases hf : body.failure? with
    | none =>
      have hcount : (taken (block body next).steps).count .enter =
          body.steps.count .enter + 1 + (taken next.steps).count .enter := by
        simp [taken_block_of_succeeds hf]
        omega
      rw [taken_of_succeeds hf] at hclosed
      simp [edits, hf, Nesting.after, hclosed, ihn hnext, hcount]
    | some f =>
      rw [taken_block_of_fails hf]
      simp [edits, hf, Nesting.after, hclosed]
  | checkpoint label next ih => exact ih h n
  | _ => rfl

end Program

/-- A run does the steps before the failing one, if there is one, and then closes each block that it
has entered and not left, so a structured program gives its blocks back as it found them. -/
theorem run_unwinds (p : Program) (d : Draft) :
    let run := p.run d
    let taken := Step.taken p.steps
    run.draft = (d.applyAll (Step.edits taken)).applyAll
      (List.replicate (Step.unclosed taken) .closeBlock) ∧
    taken.count .leave + Step.unclosed taken = taken.count .enter ∧
    (∀ f, run.failure = some f ↔ ∃ rest, p.steps = taken ++ .fail f :: rest) ∧
    (run.failure = none → run.draft = d.applyAll (Step.edits p.steps)) ∧
    (p.Structured → run.draft.nesting.depth = d.nesting.depth ∧
      run.draft.nesting.underflows = d.nesting.underflows ∧
      run.draft.nesting.opened = d.nesting.opened + taken.count .enter ∧
      run.draft.nesting.closed = d.nesting.closed + taken.count .enter) := by
  intro run taken
  have hdraft : run.draft = (d.applyAll (Step.edits taken)).applyAll
      (List.replicate (Step.unclosed taken) .closeBlock) := by
    rw [← Draft.applyAll_append, ← p.edits_eq]
    exact p.run_draft d
  have hcount : taken.count .leave + Step.unclosed taken = taken.count .enter :=
    Nat.add_sub_cancel' p.count_leave_taken_le
  refine ⟨hdraft, hcount, fun f => ?_, fun hnone => ?_, fun hstructured => ?_⟩
  · rw [Program.run_failure, Program.failure?_eq, Step.findSome?_eq_some_iff]
  · rw [Program.run_failure] at hnone
    have htaken : taken = p.steps := Program.taken_of_succeeds hnone
    have hunclosed : Step.unclosed p.steps = 0 := by
      rw [Step.unclosed, p.count_leave_steps, Nat.sub_self]
    rw [hdraft, htaken, hunclosed]
    rfl
  · have hnesting : run.draft.nesting = d.nesting.withBlocks (taken.count .enter) := by
      rw [Program.run_draft, Draft.applyAll_nesting]
      exact Program.afterAll_edits_of_structured hstructured d.nesting
    rw [hnesting]
    exact ⟨rfl, rfl, rfl, rfl⟩

/-- A block that was closed by hand is closed once more, which closes the one around it; so the
close of that one meets no block. -/
example :
    let inner : Program :=
      .edit .closeBlock (.edit (.write (.text "a")) (.fail (.generation "no b")))
    let draft := ((Program.block (.block inner .done) .done).run (.empty .java)).draft
    draft.lines = #["\x7b", "    \x7b", "    \x7d", "    a", "\x7d", "\x7d"] ∧
      draft.nesting = { opened := 2, closed := 3, underflows := 1 } := by decide

end FactoryMethods
