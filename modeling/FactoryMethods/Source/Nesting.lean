import FactoryMethods.Source.Edit

/-! The account of blocks in a draft. Closing a block where none is open is no error: it is counted
as an underflow, and whoever asks for balance finds it there. -/
namespace FactoryMethods

structure Nesting where
  depth : Nat := 0
  opened : Nat := 0
  closed : Nat := 0
  /-- How often a block was closed with none open. -/
  underflows : Nat := 0
  deriving DecidableEq, Repr

namespace Nesting

def enter (n : Nesting) : Nesting := { n with depth := n.depth + 1, opened := n.opened + 1 }

def leave (n : Nesting) : Nesting :=
  if n.depth = 0 then { n with underflows := n.underflows + 1, closed := n.closed + 1 }
  else { n with depth := n.depth - 1, closed := n.closed + 1 }

@[simp] theorem enter_depth (n : Nesting) : n.enter.depth = n.depth + 1 := rfl
@[simp] theorem enter_opened (n : Nesting) : n.enter.opened = n.opened + 1 := rfl
@[simp] theorem enter_closed (n : Nesting) : n.enter.closed = n.closed := rfl
@[simp] theorem enter_underflows (n : Nesting) : n.enter.underflows = n.underflows := rfl

@[simp] theorem leave_depth (n : Nesting) : n.leave.depth = n.depth - 1 := by
  by_cases h : n.depth = 0 <;> simp [leave, h]
@[simp] theorem leave_opened (n : Nesting) : n.leave.opened = n.opened := by
  by_cases h : n.depth = 0 <;> simp [leave, h]
@[simp] theorem leave_closed (n : Nesting) : n.leave.closed = n.closed + 1 := by
  by_cases h : n.depth = 0 <;> simp [leave, h]
theorem leave_underflows (n : Nesting) :
    n.leave.underflows = n.underflows + if n.depth = 0 then 1 else 0 := by
  by_cases h : n.depth = 0 <;> simp [leave, h]

def after (n : Nesting) : Edit → Nesting
  | .openBlock => n.enter
  | .closeBlock => n.leave
  | _ => n

def afterAll (n : Nesting) (edits : List Edit) : Nesting := edits.foldl after n

@[simp] theorem afterAll_nil (n : Nesting) : n.afterAll [] = n := rfl

@[simp] theorem afterAll_cons (n : Nesting) (e : Edit) (edits : List Edit) :
    n.afterAll (e :: edits) = (n.after e).afterAll edits := rfl

@[simp] theorem afterAll_append (n : Nesting) (a b : List Edit) :
    n.afterAll (a ++ b) = (n.afterAll a).afterAll b := List.foldl_append

/-- Whether since `before` as many blocks were closed as opened, and none that was not open. -/
def balancedSince (n before : Nesting) : Bool :=
  n.opened - before.opened = n.closed - before.closed ∧ n.underflows = before.underflows

end Nesting

end FactoryMethods
