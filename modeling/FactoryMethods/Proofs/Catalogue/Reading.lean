import FactoryMethods.Catalogue.Document
import FactoryMethods.Proofs.Outcome

/-! Reading by events. A document is read byte by byte, but its outcome is that of all its events,
handled in order, and then of the end of its markup. -/
namespace FactoryMethods

open Markup

namespace Place

/-- Handles events in order. -/
def stepAll (p : Place) (es : List Event) : Except ReadError Place := es.foldlM step p

@[simp] theorem stepAll_nil (p : Place) : p.stepAll [] = .ok p := rfl

@[simp] theorem stepAll_cons (p : Place) (e : Event) (es : List Event) :
    p.stepAll (e :: es) = p.step e >>= fun p => p.stepAll es := rfl

@[simp] theorem stepAll_append (p : Place) (es fs : List Event) :
    p.stepAll (es ++ fs) = p.stepAll es >>= fun p => p.stepAll fs := List.foldlM_append

end Place

namespace Reader

theorem feedAll_cons (r : Reader) (b : UInt8) (rest : Bytes) :
    r.feedAll (b :: rest) = r.feed b >>= fun r => r.feedAll rest := rfl

/-- The lexer runs ahead of no event: where handling the events fails, the fault after them is not
seen, and otherwise it is. -/
theorem feedAll_eq (r : Reader) (bytes : Bytes) : r.feedAll bytes =
    r.place.stepAll (r.lexer.feedAll bytes).1 >>= fun p =>
      match (r.lexer.feedAll bytes).2 with
      | .ok l => .ok ⟨l, p⟩
      | .error f => .error (.markup f) := by
  induction bytes generalizing r with
  | nil => rfl
  | cons b rest ih =>
    rw [feedAll_cons, feed, Lexer.feedAll]
    cases hfeed : r.lexer.feed b with
    | error f => rfl
    | ok read =>
      obtain ⟨_ | e, l⟩ := read
      · exact ih ⟨l, r.place⟩
      · simp only [Place.stepAll_cons]
        cases hstep : r.place.step e with
        | error f => rfl
        | ok p => exact ih ⟨l, p⟩

end Reader

namespace Catalogue

theorem parseBytes_eq (bytes : Bytes) : parseBytes bytes =
    (Place.document none).stepAll (Lexer.events bytes).1 >>= fun p =>
      match (Lexer.events bytes).2 with
      | some f => .error (.markup f)
      | none => p.finish := by
  rw [parseBytes, Reader.feedAll_eq, Lexer.events]
  cases hread : (Lexer.feedAll {} bytes).2 with
  | error f => cases (Place.document none).stepAll (Lexer.feedAll {} bytes).1 <;> rfl
  | ok l => cases (Place.document none).stepAll (Lexer.feedAll {} bytes).1 <;> rfl

theorem finish_eq_ok_iff {p : Place} {c : Catalogue} :
    p.finish = .ok c ↔ p = .document (some c) := by
  cases p with
  | document found => cases found <;> simp [Place.finish]
  | _ => simp [Place.finish]

theorem parseBytes_eq_ok_iff {bytes : Bytes} {c : Catalogue} : parseBytes bytes = .ok c ↔
    (Lexer.events bytes).2 = none ∧
      (Place.document none).stepAll (Lexer.events bytes).1 = .ok (.document (some c)) := by
  rw [parseBytes_eq, bind_eq_ok_iff]
  cases (Lexer.events bytes).2 with
  | some f => simp
  | none => simp [finish_eq_ok_iff]

end Catalogue
end FactoryMethods
