import FactoryMethods.Catalogue.Defect

/-! Checking in order. The fields of a descriptor and the descriptors of a catalogue are checked one
after the other, each against the names before it, up to the first that is refused. Both checks are
one search, of which it is said here what it finds. -/
namespace FactoryMethods

section Refusal

variable {α β : Type} (check : List String → α → Option β) (name : α → String)

/-- Goes through a list up to the first element that `check` refuses, given the names before it. The
position of that element comes with what `check` says of it. -/
def refusal? (earlier : List String) : List α → Option (Nat × β)
  | [] => none
  | x :: rest =>
    match check earlier x with
    | some why => some (0, why)
    | none => (refusal? (name x :: earlier) rest).map fun r => (r.1 + 1, r.2)

variable {check name}

theorem refusal?_cons_of_some {earlier : List String} {x : α} {why : β}
    (h : check earlier x = some why) (rest : List α) :
    refusal? check name earlier (x :: rest) = some (0, why) := by
  simp [refusal?, h]

theorem refusal?_cons_of_none {earlier : List String} {x : α} (h : check earlier x = none)
    (rest : List α) : refusal? check name earlier (x :: rest) =
      (refusal? check name (name x :: earlier) rest).map fun r => (r.1 + 1, r.2) := by
  simp [refusal?, h]

theorem refusal?_cons_eq_none_iff {earlier : List String} {x : α} {rest : List α} :
    refusal? check name earlier (x :: rest) = none ↔
      check earlier x = none ∧ refusal? check name (name x :: earlier) rest = none := by
  cases hx : check earlier x with
  | some why => simp [refusal?_cons_of_some hx]
  | none => simp [refusal?_cons_of_none hx]

/-- Where a name that was there before is refused as well as what `own` does not allow, nothing is
refused in a list of allowed elements with distinct names. -/
theorem refusal?_eq_none_iff_nodup {own : α → Prop}
    (hcheck : ∀ earlier x, check earlier x = none ↔ own x ∧ name x ∉ earlier)
    {earlier : List String} {xs : List α} : refusal? check name earlier xs = none ↔
      (∀ x ∈ xs, own x ∧ name x ∉ earlier) ∧ (xs.map name).Nodup := by
  induction xs generalizing earlier with
  | nil => simp [refusal?]
  | cons x rest ih =>
    rw [refusal?_cons_eq_none_iff, hcheck, ih, List.forall_mem_cons, List.map_cons, List.nodup_cons]
    constructor
    · rintro ⟨hx, hrest, hnodup⟩
      refine ⟨⟨hx, fun y hy => ?_⟩, fun hmem => ?_, hnodup⟩
      · obtain ⟨hown, hname⟩ := hrest y hy
        exact ⟨hown, fun h => hname (List.mem_cons_of_mem _ h)⟩
      · obtain ⟨y, hy, hsame⟩ := List.mem_map.mp hmem
        exact (hrest y hy).2 (by simp [hsame])
    · rintro ⟨⟨hx, hrest⟩, hmem, hnodup⟩
      refine ⟨hx, fun y hy => ⟨(hrest y hy).1, fun h => ?_⟩, hnodup⟩
      rcases List.mem_cons.mp h with hsame | hearlier
      · exact hmem (List.mem_map.mpr ⟨y, hy, hsame⟩)
      · exact (hrest y hy).2 hearlier

theorem refusal?_eq_none_iff {earlier : List String} {xs : List α} :
    refusal? check name earlier xs = none ↔
      ∀ k x, xs[k]? = some x → check (((xs.take k).map name).reverse ++ earlier) x = none := by
  induction xs generalizing earlier with
  | nil => simp [refusal?]
  | cons x rest ih =>
    cases hx : check earlier x with
    | some why =>
      rw [refusal?_cons_of_some hx]
      simp only [reduceCtorEq, false_iff]
      intro h
      have hfirst := h 0 x rfl
      simp [hx] at hfirst
    | none =>
      rw [refusal?_cons_of_none hx, Option.map_eq_none_iff, ih]
      constructor
      · intro h k y hy
        cases k with
        | zero =>
          cases hy
          simpa using hx
        | succ k => simpa using h k y (by simpa using hy)
      · intro h k y hy
        simpa using h (k + 1) y (by simpa using hy)

theorem refusal?_take_eq_none_iff {earlier : List String} {xs : List α} {k : Nat} :
    refusal? check name earlier (xs.take k) = none ↔ ∀ j < k, ∀ x, xs[j]? = some x →
      check (((xs.take j).map name).reverse ++ earlier) x = none := by
  have hinner {j : Nat} (hj : j < k) : (xs.take k).take j = xs.take j := by
    rw [List.take_take, Nat.min_eq_left (Nat.le_of_lt hj)]
  rw [refusal?_eq_none_iff]
  constructor
  · intro h j hj x hx
    have hx' : (xs.take k)[j]? = some x := by rw [List.getElem?_take_of_lt hj, hx]
    simpa [hinner hj] using h j x hx'
  · intro h j x hx
    rw [List.getElem?_take] at hx
    split at hx
    · rename_i hj
      rw [hinner hj]
      exact h j hj x hx
    · cases hx

theorem refusal?_eq_some_iff {earlier : List String} {xs : List α} {k : Nat} {why : β} :
    refusal? check name earlier xs = some (k, why) ↔
      refusal? check name earlier (xs.take k) = none ∧
        ∃ x, xs[k]? = some x ∧ check (((xs.take k).map name).reverse ++ earlier) x = some why := by
  induction xs generalizing earlier k with
  | nil => simp [refusal?]
  | cons x rest ih =>
    cases hx : check earlier x with
    | some found =>
      rw [refusal?_cons_of_some hx]
      cases k with
      | zero => simp [refusal?, hx]
      | succ k => simp [refusal?_cons_of_some hx]
    | none =>
      rw [refusal?_cons_of_none hx]
      cases k with
      | zero => simp [hx]
      | succ k => simp [refusal?_cons_of_none hx, ih]

end Refusal

namespace Descriptor

theorem fieldsDefect?_eq_refusal? (reserved : List String) (node : String) (earlier : List String)
    (fs : List Field) : fieldsDefect? reserved node earlier fs =
      (refusal? (fieldDefect? reserved node) Field.name earlier fs).map Prod.snd := by
  induction fs generalizing earlier with
  | nil => rfl
  | cons f rest ih =>
    rw [fieldsDefect?]
    cases hf : fieldDefect? reserved node earlier f with
    | some defect => simp [refusal?_cons_of_some hf]
    | none => simp [refusal?_cons_of_none hf, ih, Function.comp_def]

/-- The defect of a descriptor that follows others, named `earlier`. -/
def defectAfter? (reserved earlier : List String) (d : Descriptor) : Option Defect :=
  (d.defect? reserved).or (if d.name ∈ earlier then some (.duplicateNode d.name) else none)

end Descriptor

namespace Catalogue

theorem defectFrom?_eq_refusal? (reserved : List String) (index : Nat) (earlier : List String)
    (ds : List Descriptor) : defectFrom? reserved index earlier ds =
      (refusal? (Descriptor.defectAfter? reserved) Descriptor.name earlier ds).map
        fun r => (index + r.1, r.2) := by
  induction ds generalizing index earlier with
  | nil => rfl
  | cons d rest ih =>
    rw [defectFrom?]
    cases hown : d.defect? reserved with
    | some defect =>
      have hd : d.defectAfter? reserved earlier = some defect := by
        simp [Descriptor.defectAfter?, hown]
      simp [refusal?_cons_of_some hd]
    | none =>
      by_cases hname : d.name ∈ earlier
      · have hd : d.defectAfter? reserved earlier = some (.duplicateNode d.name) := by
          simp [Descriptor.defectAfter?, hown, hname]
        simp [refusal?_cons_of_some hd, hname]
      · have hd : d.defectAfter? reserved earlier = none := by
          simp [Descriptor.defectAfter?, hown, hname]
        have hindex (k : Nat) : index + 1 + k = index + (k + 1) := by omega
        simp [refusal?_cons_of_none hd, hname, ih, Function.comp_def, hindex]

end Catalogue
end FactoryMethods
