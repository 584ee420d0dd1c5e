import FactoryMethods.Proofs.Catalogue.Replacement

/-! Final errors. A tag that is refused ends the reading at its closing bracket. What stands before
that bracket has been read without an error, and what stands behind it is not looked at, so a
document that goes on differently has the same error. -/
namespace FactoryMethods

open Markup

namespace ReadError

/-- Whether a tag is to blame: its name, a required attribute, the value of one, or that it begins
a second catalogue. -/
def Decisive : ReadError → Prop
  | .unknownElement _ _ | .missingAttribute _ _ | .structural .manyCatalogues => True
  | .markup f => f.kind = .escape
  | _ => False

end ReadError

namespace Markup

def Event.tag? : Event → Option Tag
  | .opening tag | .selfClosing tag => some tag
  | .closing _ | .ignorable => none

namespace Lexer

theorem kind_closeElement {l : Lexer} {name : Bytes} {f : Fault}
    (h : l.closeElement name = .error f) : f.kind ≠ .escape := by
  unfold closeElement at h
  split at h
  · cases h
    simp [Fault.kind]
  · split at h
    · cases h
    · cases h
      simp [Fault.kind]

theorem kind_feedTag {l : Lexer} {quote : Option UInt8} {read : Bytes} {b : UInt8} {f : Fault}
    (h : l.feedTag quote read b = .error f) : f.kind ≠ .escape := by
  unfold feedTag finishTag at h
  split at h
  · split at h
    · exact kind_closeElement h
    · split at h <;> cases h
  · cases h

theorem kind_feed {l : Lexer} {b : UInt8} {f : Fault} (h : l.feed b = .error f) :
    f.kind ≠ .escape := by
  have hmove := feed_move l b
  rw [h] at hmove
  generalize hr : (Except.error f : Result) = r at hmove
  cases hmove with
  | tag _ => exact kind_feedTag hr.symm
  | turn _ => cases hr
  | ignorable => cases hr
  | fault plain =>
    cases hr
    exact plain

theorem kind_endFault? {l : Lexer} {f : Fault} (h : l.endFault? = some f) : f.kind ≠ .escape := by
  unfold endFault? instructionFault at h
  repeat' split at h
  all_goals cases h
  all_goals simp [Fault.kind]

theorem kind_feedAll {l : Lexer} {bytes : Bytes} {f : Fault} (h : (l.feedAll bytes).2 = .error f) :
    f.kind ≠ .escape := by
  induction bytes generalizing l with
  | nil => cases h
  | cons b rest ih =>
    rw [feedAll] at h
    cases hfeed : l.feed b with
    | error f' =>
      rw [hfeed] at h
      cases h
      exact kind_feed hfeed
    | ok read =>
      obtain ⟨_ | e, l'⟩ := read
      · rw [hfeed] at h
        exact ih h
      · rw [hfeed] at h
        exact ih h

theorem kind_events {document : Bytes} {f : Fault} (h : (events document).2 = some f) :
    f.kind ≠ .escape := by
  unfold events at h
  cases hread : (feedAll {} document).2 with
  | error f' =>
    simp only [hread] at h
    cases h
    exact kind_feedAll hread
  | ok l =>
    simp only [hread] at h
    exact kind_endFault? h

theorem eq_greater_of_feed {l l' : Lexer} {b : UInt8} {e : Event} {tag : Tag}
    (h : l.feed b = .ok (some e, l')) (he : e.tag? = some tag) : b = greater := by
  have hmove := feed_move l b
  rw [h] at hmove
  generalize hr : (Except.ok (some e, l') : Result) = r at hmove
  cases hmove with
  | tag _ =>
    unfold feedTag at hr
    split at hr
    · rename_i hend
      exact hend.1
    · cases hr
  | turn _ => cases hr
  | ignorable =>
    cases hr
    cases he
  | fault _ => cases hr

end Lexer
end Markup

theorem Place.step_eq_error {p : Place} {e : Event} {error : ReadError}
    (h : p.step e = .error error) : ∃ tag, e.tag? = some tag ∧ p.enter tag = .error error := by
  cases e with
  | opening tag => exact ⟨tag, rfl, h⟩
  | selfClosing tag =>
    refine ⟨tag, rfl, ?_⟩
    rw [step] at h
    cases henter : p.enter tag with
    | error e =>
      rw [henter] at h
      cases h
      rfl
    | ok q =>
      rw [henter] at h
      cases h
  | closing name => cases h
  | ignorable => cases h

namespace Reader

theorem exists_feed_of_feedAll {r : Reader} {bytes : Bytes} {e : ReadError}
    (h : r.feedAll bytes = .error e) :
    ∃ a b rest r', bytes = a ++ b :: rest ∧ r.feedAll a = .ok r' ∧ r'.feed b = .error e := by
  induction bytes generalizing r with
  | nil => cases h
  | cons b rest ih =>
    rw [feedAll_cons] at h
    cases hfeed : r.feed b with
    | error e' =>
      rw [hfeed] at h
      cases h
      exact ⟨[], b, rest, r, rfl, rfl, hfeed⟩
    | ok m =>
      rw [hfeed] at h
      obtain ⟨a, b', rest', r', rfl, ha, hb⟩ := ih h
      refine ⟨b :: a, b', rest', r', rfl, ?_, hb⟩
      rw [feedAll_cons, hfeed]
      exact ha

/-- With this bracket a tag is complete, and reading refuses it. -/
def Refuses (r : Reader) (e : ReadError) : Prop :=
  ∃ event lexer tag, r.lexer.feed greater = .ok (some event, lexer) ∧ event.tag? = some tag ∧
    r.place.enter tag = .error e

theorem refuses_of_feed {r : Reader} {b : UInt8} {e : ReadError} (he : e.Decisive)
    (h : r.feed b = .error e) : b = greater ∧ r.Refuses e := by
  rw [feed] at h
  cases hfeed : r.lexer.feed b with
  | error f =>
    rw [hfeed] at h
    cases h
    exact absurd he (Lexer.kind_feed hfeed)
  | ok read =>
    rw [hfeed] at h
    obtain ⟨_ | event, lexer⟩ := read
    · cases h
    · have hstep : r.place.step event = .error e := by
        cases hp : r.place.step event with
        | error e' =>
          simp only [hp] at h
          cases h
          rfl
        | ok p =>
          simp only [hp] at h
          cases h
      obtain ⟨tag, htag, henter⟩ := Place.step_eq_error hstep
      obtain rfl := Lexer.eq_greater_of_feed hfeed htag
      exact ⟨rfl, event, lexer, tag, hfeed, htag, henter⟩

theorem not_decisive_of_finish {r : Reader} {e : ReadError} (h : r.finish = .error e) :
    ¬ e.Decisive := by
  rw [finish] at h
  cases hfault : r.lexer.endFault? with
  | some f =>
    rw [hfault] at h
    cases h
    exact Lexer.kind_endFault? hfault
  | none =>
    rw [hfault] at h
    cases hplace : r.place with
    | document found =>
      rw [hplace] at h
      cases found with
      | none =>
        cases h
        exact id
      | some c => cases h
    | _ =>
      rw [hplace] at h
      cases h
      exact id

end Reader

namespace Catalogue

/-- An error in the bytes, and not at their end, does not depend on what follows. -/
theorem parse_append_of_feedAll {a : String} {e : ReadError}
    (h : Reader.feedAll {} (Utf8.encode a) = .error e) (b : String) :
    parse (a ++ b) = .error e := by
  rw [parse_append, h]
  rfl

theorem feedAll_eq_error_of_decisive {p : String} {e : ReadError} (h : parse p = .error e)
    (he : e.Decisive) : Reader.feedAll {} (Utf8.encode p) = .error e := by
  rw [parse, parseBytes] at h
  cases hread : Reader.feedAll {} (Utf8.encode p) with
  | error e' =>
    rw [hread] at h
    cases h
    rfl
  | ok r =>
    rw [hread] at h
    exact absurd he (Reader.not_decisive_of_finish h)

/-- A decisive error is final: it is that of the first tag that is refused, it comes with the
bracket of that tag and not before, and what follows changes nothing. -/
theorem parse_append_of_decisive {p : String} {e : ReadError} (h : parse p = .error e)
    (he : e.Decisive) : (∀ s, parse (p ++ s) = .error e) ∧
    ∃ a b r, p = a ++ ">" ++ b ∧ Reader.feedAll {} (Utf8.encode a) = .ok r ∧ r.Refuses e ∧
      (∀ s, parse (a ++ ">" ++ s) = .error e) ∧
      ∀ start rest e', a = start ++ rest → parse start = .error e' → ¬ e'.Decisive := by
  have hread := feedAll_eq_error_of_decisive h he
  refine ⟨parse_append_of_feedAll hread, ?_⟩
  obtain ⟨before, bracket, behind, r, hp, hbefore, hfeed⟩ := Reader.exists_feed_of_feedAll hread
  obtain ⟨rfl, hrefuses⟩ := Reader.refuses_of_feed he hfeed
  have hvalid := Utf8.valid_encode p
  rw [hp] at hvalid
  obtain ⟨a, rfl⟩ := hvalid.left (by decide)
  obtain ⟨b, rfl⟩ := hvalid.right (by decide)
  have hbracket : Utf8.encode ">" = [greater] := rfl
  have hpieces : p = a ++ ">" ++ b := by
    apply Utf8.encode_injective
    rw [hp, Utf8.encode_append, Utf8.encode_append, hbracket]
    simp
  have hstopped : Reader.feedAll {} (Utf8.encode (a ++ ">")) = .error e := by
    rw [Utf8.encode_append, hbracket, Reader.feedAll_append, hbefore]
    show (r.feed greater >>= _) = _
    rw [hfeed]
    rfl
  refine ⟨a, b, r, hpieces, hbefore, hrefuses, parse_append_of_feedAll hstopped, ?_⟩
  rintro start rest e' rfl hstart he'
  have herror := feedAll_eq_error_of_decisive hstart he'
  rw [Utf8.encode_append, Reader.feedAll_append, herror] at hbefore
  cases hbefore

/-- A reference that stands for nothing, in a node that is followed by an unknown element. -/
theorem parse_append_of_decisive_reference :
    let p := "<catalogue><node name='A'/><node name='&b;'><leaf/>"
    let e := ReadError.markup (.reference (.unknown 1 2 "b"))
    parse p = .error e ∧ e.Decisive ∧ parse (p ++ "</node></catalogue>") = .error e := by
  intro p e
  have hparse : parse p = .error e := by rfl
  have hdecisive : e.Decisive := rfl
  exact ⟨hparse, hdecisive, (parse_append_of_decisive hparse hdecisive).1 _⟩

end Catalogue
end FactoryMethods
