import FactoryMethods.Method.Program

/-! Runs without a draft. Whether a program fails, and which edits it makes, depends on the program
alone: a run makes its flat sequence of edits, in which a block closes on every way out of it. -/
namespace FactoryMethods
namespace Program

def failure? : Program → Option Failure
  | .done => none
  | .edit _ next => next.failure?
  | .block body next => body.failure?.or next.failure?
  | .checkpoint _ next => next.failure?
  | .fail f => some f

def edits : Program → List Edit
  | .done => []
  | .edit e next => e :: next.edits
  | .block body next =>
    .openBlock :: (body.edits ++ .closeBlock :: if body.failure? = none then next.edits else [])
  | .checkpoint _ next => next.edits
  | .fail _ => []

@[simp] theorem failure_ofEdits (edits : List Edit) : (ofEdits edits).failure? = none := by
  induction edits with
  | nil => rfl
  | cons e edits ih => exact ih

@[simp] theorem edits_ofEdits (edits : List Edit) : (ofEdits edits).edits = edits := by
  induction edits with
  | nil => rfl
  | cons e edits ih => exact congrArg (e :: ·) ih

@[simp] theorem run_failure (p : Program) (d : Draft) : (p.run d).failure = p.failure? := by
  induction p generalizing d with
  | done => rfl
  | edit e next ih => exact ih (d.apply e)
  | block body next ihb ihn =>
    have hb := ihb d.openBlock
    cases h : body.failure? with
    | none => simp [run, failure?, hb, h, ihn]
    | some f => simp [run, failure?, hb, h]
  | checkpoint label next ih => exact ih d
  | fail f => rfl

@[simp] theorem run_draft (p : Program) (d : Draft) : (p.run d).draft = d.applyAll p.edits := by
  induction p generalizing d with
  | done => rfl
  | edit e next ih => exact ih (d.apply e)
  | block body next ihb ihn =>
    have hb := ihb d.openBlock
    cases h : body.failure? with
    | none => simp [run, edits, h, hb, ihn, Draft.apply]
    | some f => simp [run, edits, h, hb, Draft.apply]
  | checkpoint label next ih => exact ih d
  | fail f => rfl

end Program
end FactoryMethods
