import FactoryMethods.Proofs.Expansion.Run

/-! The account of blocks over whole runs. Closes that meet no block are forgiven one by one, so
where an account ends depends on its whole past; but all of it is settled by how far closes were
ever ahead of opens. -/
namespace FactoryMethods

namespace Nesting

/-- What every account meets that started with nothing open. -/
structure Sound (n : Nesting) : Prop where
  flow : n.opened + n.underflows = n.closed + n.depth
  underflows_le : n.underflows ≤ n.closed

/-- What is counted from here on is counted on top. -/
structure Grows (n m : Nesting) : Prop where
  opened_le : n.opened ≤ m.opened
  closed_le : n.closed ≤ m.closed
  underflows_le : n.underflows ≤ m.underflows

theorem sound_new : Sound {} := ⟨rfl, Nat.le_refl 0⟩

theorem Sound.enter {n : Nesting} (h : n.Sound) : n.enter.Sound := by
  have hflow := h.flow
  have hle := h.underflows_le
  exact ⟨by simp; omega, by simpa using hle⟩

theorem Sound.leave {n : Nesting} (h : n.Sound) : n.leave.Sound := by
  have hflow := h.flow
  have hle := h.underflows_le
  constructor
  · rw [leave_underflows, leave_opened, leave_closed, leave_depth]
    split <;> omega
  · rw [leave_underflows, leave_closed]
    split <;> omega

theorem Sound.after {n : Nesting} (h : n.Sound) (e : Edit) : (n.after e).Sound := by
  cases e with
  | openBlock => exact h.enter
  | closeBlock => exact h.leave
  | _ => exact h

theorem Sound.afterAll {n : Nesting} (h : n.Sound) (edits : List Edit) :
    (n.afterAll edits).Sound := by
  induction edits generalizing n with
  | nil => exact h
  | cons e edits ih => exact ih (h.after e)

theorem grows_afterAll (n : Nesting) (edits : List Edit) : n.Grows (n.afterAll edits) := by
  constructor
  · rw [afterAll_opened]
    exact Nat.le_add_right _ _
  · rw [afterAll_closed]
    exact Nat.le_add_right _ _
  · rw [afterAll_underflows]
    exact Nat.le_add_right _ _

end Nesting

/-- Where an account of blocks stands after any edits, from the number of opens and of closes and
from the most by which closes are ahead in a prefix. -/
theorem block_accounting (l : Dialect) (earlier later : List Edit) :
    let start := (Draft.empty l).applyAll earlier
    let stop := start.applyAll later
    let opens := later.count .openBlock
    let closes := later.count .closeBlock
    (∃ most : ℤ,
      IsGreatest {k : ℤ | ∃ first, first <+: later ∧
        k = first.count .closeBlock - first.count .openBlock} most ∧
      let missing := max 0 (most - start.nesting.depth)
      stop.nesting.opened = start.nesting.opened + opens ∧
      stop.nesting.closed = start.nesting.closed + closes ∧
      (stop.nesting.underflows : ℤ) = start.nesting.underflows + missing ∧
      (stop.nesting.depth : ℤ) = start.nesting.depth + opens + missing - closes) ∧
    (∀ p : Program, p.edits = later → (p.run start).draft = stop) ∧
    stop.nesting.Sound ∧ start.nesting.Grows stop.nesting ∧
    (stop.closeBlock.nesting.depth : ℤ) =
      stop.nesting.depth - (if 0 < stop.nesting.depth then 1 else 0) ∧
    ∀ (strategy : Strategy) (index : ℕ) (node : Descriptor) (d : Draft),
      let before := d.separated index
      before.nesting.Grows ((strategy.method node).run before).draft.nesting := by
  intro start stop opens closes
  have hstop : stop.nesting = start.nesting.afterAll later := Draft.applyAll_nesting _ _
  have hopens : (brackets later).count .U = opens := count_open_brackets later
  have hcloses : (brackets later).count .D = closes := count_close_brackets later
  have hstart : start.nesting.Sound := by
    rw [Draft.applyAll_nesting]
    exact Nesting.sound_new.afterAll earlier
  refine ⟨⟨deficit (brackets later), isGreatest_deficit_brackets later, ?_⟩, ?_, ?_, ?_, ?_, ?_⟩
  · have hopened := start.nesting.afterAll_opened later
    have hclosed := start.nesting.afterAll_closed later
    have hunderflows := start.nesting.afterAll_underflows later
    have hdepth := start.nesting.afterAll_depth_add later
    rw [← hstop, hopens] at hopened
    rw [← hstop, hcloses] at hclosed
    rw [← hstop] at hunderflows
    rw [← hstop, hopens, hcloses] at hdepth
    refine ⟨hopened, hclosed, ?_, ?_⟩ <;> omega
  · rintro p rfl
    exact p.run_draft start
  · rw [hstop]
    exact hstart.afterAll later
  · rw [hstop]
    exact start.nesting.grows_afterAll later
  · rw [Draft.closeBlock_nesting, Nesting.leave_depth]
    split <;> omega
  · intro strategy index node d before
    rw [Program.run_draft, Draft.applyAll_nesting]
    exact before.nesting.grows_afterAll _

end FactoryMethods
