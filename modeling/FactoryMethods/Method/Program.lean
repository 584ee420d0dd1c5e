import FactoryMethods.Source.Draft
import FactoryMethods.Method.Failure

/-! Programs that write one method. A program edits a draft step by step, may stand in blocks, and
may fail; a block that was opened is closed on every way out of it. A checkpoint keeps the draft as
it is when the run comes by. -/
namespace FactoryMethods

inductive Program
  | done
  | edit (e : Edit) (next : Program)
  /-- Opens a block, runs `body` in it and closes it. -/
  | block (body next : Program)
  | checkpoint (label : String) (next : Program)
  | fail (f : Failure)
  deriving DecidableEq, Repr, Inhabited

structure Checkpoint where
  label : String
  draft : Draft
  deriving DecidableEq, Repr

/-- What a run leaves: the draft, also after a failure, and the checkpoints passed in order. -/
structure Run where
  draft : Draft
  failure : Option Failure := none
  checkpoints : List Checkpoint := []
  deriving DecidableEq, Repr

namespace Program

def run : Program → Draft → Run
  | .done, d => { draft := d }
  | .fail f, d => { draft := d, failure := some f }
  | .edit e next, d => next.run (d.apply e)
  | .checkpoint label next, d =>
    let rest := next.run d
    { rest with checkpoints := ⟨label, d⟩ :: rest.checkpoints }
  | .block body next, d =>
    let inner := body.run d.openBlock
    match inner.failure with
    | some f => { inner with draft := inner.draft.closeBlock, failure := some f }
    | none =>
      let rest := next.run inner.draft.closeBlock
      { rest with checkpoints := inner.checkpoints ++ rest.checkpoints }

def andThen : Program → Program → Program
  | .done, q => q
  | .fail f, _ => .fail f
  | .edit e next, q => .edit e (next.andThen q)
  | .checkpoint label next, q => .checkpoint label (next.andThen q)
  | .block body next, q => .block body (next.andThen q)

instance : Append Program := ⟨andThen⟩

def ofEdits (edits : List Edit) : Program := edits.foldr .edit .done

end Program

/-- How the methods of a catalogue are written, and the names they bind besides the fields. -/
structure Strategy where
  reserved : List String := []
  method : Descriptor → Program

end FactoryMethods
