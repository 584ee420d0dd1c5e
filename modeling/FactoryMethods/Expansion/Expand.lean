import FactoryMethods.Method.Program
import FactoryMethods.Expansion.Log

/-! Expansion of a catalogue. All descriptors are checked before anything is written; then their
methods are written in order on one draft, each ending its last line, with one empty line between
two. A method has to leave every block that it opens and none that it does not. -/
namespace FactoryMethods

def expandNode (strategy : Strategy) (index : Nat) (node : Descriptor) (d : Draft) :
    Except Failure Draft :=
  let before := if index = 0 then d else d.newline
  let run := (strategy.method node).run before
  match run.failure with
  | some f => .error (f.inDescriptor index node.name)
  | none =>
    let (start, stop) := (before.nesting, run.draft.nesting)
    if stop.balancedSince start then .ok run.draft.endLine
    else .error (.unbalanced index (displayName node.name)
      (stop.opened - start.opened) (stop.closed - start.closed))

def expandFrom (strategy : Strategy) (index : Nat) (d : Draft) : List Descriptor → Outcome Draft
  | [] => ⟨[], .ok d⟩
  | node :: rest =>
    match expandNode strategy index node d with
    | .error f => ⟨[.expanding index node], .error f⟩
    | .ok d =>
      let after := expandFrom strategy (index + 1) d rest
      { after with log := .expanding index node :: after.log }

def expand (l : Dialect) (strategy : Strategy) (nodes : List Descriptor) : Outcome Listing :=
  let written : Outcome Draft :=
    match Catalogue.defect? strategy.reserved nodes with
    | some (index, defect) =>
      .silent (.malformed index (displayName (nodes.getD index default).name) defect)
    | none => expandFrom strategy 0 (.empty l) nodes
  match written.result with
  | .error f => ⟨written.log ++ [.aborted f], .error f⟩
  | .ok d => ⟨written.log ++ [.expanded nodes.length d.finish.size], .ok d.finish⟩

end FactoryMethods
