import FactoryMethods.Source.Nesting
import Mathlib.Combinatorics.Enumerative.DyckWord

/-! Blocks as brackets. The opens and closes among edits form a word of brackets, and an account of
blocks depends on that word alone: its underflows count how far a prefix goes below the depth at the
start. From depth zero, an account is balanced exactly if the word is a Dyck word. -/
namespace FactoryMethods

open DyckStep

def Edit.bracket? : Edit → Option DyckStep
  | .openBlock => some U
  | .closeBlock => some D
  | _ => none

def brackets (edits : List Edit) : List DyckStep := edits.filterMap Edit.bracket?

@[simp] theorem brackets_nil : brackets [] = [] := rfl

@[simp] theorem brackets_cons (e : Edit) (edits : List Edit) :
    brackets (e :: edits) = e.bracket?.toList ++ brackets edits := by
  cases h : e.bracket? <;> simp [brackets, h]

theorem count_open_brackets (edits : List Edit) :
    (brackets edits).count U = edits.count .openBlock := by
  induction edits with
  | nil => rfl
  | cons e edits ih => cases e <;> simp [Edit.bracket?, ih]

theorem count_close_brackets (edits : List Edit) :
    (brackets edits).count D = edits.count .closeBlock := by
  induction edits with
  | nil => rfl
  | cons e edits ih => cases e <;> simp [Edit.bracket?, ih]

/-- As many closes as opens, and never more closes than opens so far. -/
def Balanced (word : List DyckStep) : Prop := ∃ w : DyckWord, w.toList = word

theorem balanced_iff (word : List DyckStep) : Balanced word ↔
    word.count U = word.count D ∧ ∀ i, (word.take i).count D ≤ (word.take i).count U := by
  constructor
  · rintro ⟨w, rfl⟩
    exact ⟨w.count_U_eq_count_D, w.count_D_le_count_U⟩
  · rintro ⟨htotal, hprefix⟩
    exact ⟨⟨word, htotal, hprefix⟩, rfl⟩

/-- The most by which closes outnumber opens in a prefix. -/
def deficit : List DyckStep → ℕ
  | [] => 0
  | U :: word => deficit word - 1
  | D :: word => deficit word + 1

theorem deficit_le_iff (word : List DyckStep) (depth : ℕ) : deficit word ≤ depth ↔
    ∀ i, (word.take i).count D ≤ depth + (word.take i).count U := by
  induction word generalizing depth with
  | nil => simp [deficit]
  | cons b word ih =>
    rw [← Nat.and_forall_add_one]
    cases b with
    | U =>
      rw [deficit, Nat.sub_le_iff_le_add, ih]
      simp [Nat.add_assoc, Nat.add_comm 1]
    | D =>
      cases depth with
      | zero =>
        have hfirst : ¬ ((D :: word).take 1).count D ≤ 0 + ((D :: word).take 1).count U := by simp
        exact ⟨fun h => absurd h (by simp [deficit]), fun h => absurd (h.2 0) hfirst⟩
      | succ depth =>
        rw [deficit, Nat.add_le_add_iff_right, ih]
        simp [Nat.add_right_comm _ 1]

theorem balanced_iff_deficit (word : List DyckStep) :
    Balanced word ↔ word.count U = word.count D ∧ deficit word = 0 := by
  rw [balanced_iff, ← Nat.le_zero, deficit_le_iff]
  simp

/-- The deficit is reached by a prefix and exceeded by none. -/
theorem isGreatest_deficit (word : List DyckStep) : IsGreatest
    {k : ℤ | ∃ first, first <+: word ∧ k = first.count D - first.count U} (deficit word) := by
  constructor
  · by_cases hzero : deficit word = 0
    · exact ⟨[], List.nil_prefix, by simp [hzero]⟩
    · obtain ⟨i, hi⟩ := not_forall.mp (mt (deficit_le_iff word (deficit word - 1)).mpr (by omega))
      have hmost := (deficit_le_iff word (deficit word)).mp le_rfl i
      exact ⟨word.take i, List.take_prefix i word, by omega⟩
  · rintro k ⟨first, hfirst, rfl⟩
    have hmost := (deficit_le_iff word (deficit word)).mp le_rfl first.length
    rw [← List.prefix_iff_eq_take.mp hfirst] at hmost
    omega

theorem isGreatest_deficit_brackets (edits : List Edit) : IsGreatest
    {k : ℤ | ∃ first, first <+: edits ∧ k = first.count .closeBlock - first.count .openBlock}
    (deficit (brackets edits)) := by
  convert isGreatest_deficit (brackets edits) using 1
  ext k
  constructor
  · rintro ⟨first, hfirst, rfl⟩
    refine ⟨brackets first, hfirst.filterMap _, ?_⟩
    rw [count_close_brackets, count_open_brackets]
  · rintro ⟨word, hword, rfl⟩
    obtain ⟨first, hfirst, rfl⟩ := List.prefix_filterMap_iff.mp hword
    refine ⟨first, hfirst, ?_⟩
    rw [← count_close_brackets, ← count_open_brackets]
    rfl

namespace Nesting

theorem afterAll_opened (n : Nesting) (edits : List Edit) :
    (n.afterAll edits).opened = n.opened + (brackets edits).count U := by
  induction edits generalizing n with
  | nil => rfl
  | cons e edits ih =>
    have h := ih (n.after e)
    cases e <;> simp [after, Edit.bracket?] at h ⊢ <;> omega

theorem afterAll_closed (n : Nesting) (edits : List Edit) :
    (n.afterAll edits).closed = n.closed + (brackets edits).count D := by
  induction edits generalizing n with
  | nil => rfl
  | cons e edits ih =>
    have h := ih (n.after e)
    cases e <;> simp [after, Edit.bracket?] at h ⊢ <;> omega

theorem afterAll_underflows (n : Nesting) (edits : List Edit) :
    (n.afterAll edits).underflows = n.underflows + (deficit (brackets edits) - n.depth) := by
  induction edits generalizing n with
  | nil => simp [deficit]
  | cons e edits ih =>
    have h := ih (n.after e)
    cases e with
    | openBlock =>
      simp [after, Edit.bracket?, deficit] at h ⊢
      omega
    | closeBlock =>
      simp [after, Edit.bracket?, deficit, leave_underflows] at h ⊢
      split at h <;> omega
    | _ => simpa [after, Edit.bracket?] using h

theorem afterAll_depth_add (n : Nesting) (edits : List Edit) :
    (n.afterAll edits).depth + (brackets edits).count D =
      n.depth + (brackets edits).count U + (deficit (brackets edits) - n.depth) := by
  induction edits generalizing n with
  | nil => simp [deficit]
  | cons e edits ih =>
    have h := ih (n.after e)
    cases e with
    | openBlock =>
      simp [after, Edit.bracket?, deficit] at h ⊢
      omega
    | closeBlock =>
      simp [after, Edit.bracket?, deficit] at h ⊢
      omega
    | _ => simpa [after, Edit.bracket?] using h

theorem balancedSince_afterAll_iff {n : Nesting} (hn : n.depth = 0) (edits : List Edit) :
    (n.afterAll edits).balancedSince n = true ↔ Balanced (brackets edits) := by
  rw [balanced_iff_deficit, balancedSince, afterAll_opened, afterAll_closed, afterAll_underflows,
    hn]
  simp

theorem afterAll_depth_of_balanced {n : Nesting} (hn : n.depth = 0) {edits : List Edit}
    (h : Balanced (brackets edits)) : (n.afterAll edits).depth = 0 := by
  obtain ⟨htotal, hdeficit⟩ := (balanced_iff_deficit _).mp h
  have hdepth := n.afterAll_depth_add edits
  omega

end Nesting
end FactoryMethods
