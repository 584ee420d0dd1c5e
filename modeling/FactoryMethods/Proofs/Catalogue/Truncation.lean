import FactoryMethods.Proofs.Catalogue.Acceptance

/-! Truncated documents. Reading goes from left to right, and at the top it keeps the catalogue that
it has found. So the start of an accepted document is read as the same catalogue or not at all, and
it is not read as long as the catalogue element has not ended. -/
namespace FactoryMethods

open Markup

/-- Whether an element at the top is complete in the bytes: a tag stands in them, and behind them no
element is open. -/
def Markup.Lexer.EndsElement (bytes : Bytes) : Prop :=
  ∃ es l, feedAll {} bytes = (es, .ok l) ∧ Event.significant es ≠ [] ∧ l.path = []

namespace Place

theorem enter_found (c : Catalogue) (tag : Tag) (q : Place) :
    (document (some c)).enter tag ≠ .ok q := by
  intro h
  have hfound := (enter_document_eq_ok_iff.mp h).2.1
  cases hfound

theorem step_found {c : Catalogue} {e : Event} {q : Place} {path : List Bytes}
    (h : (document (some c)).step e = .ok q) (hpath : e.path? [] = some path) :
    e = .ignorable ∧ q = .document (some c) ∧ path = [] := by
  cases e with
  | opening tag => exact absurd h (enter_found c tag q)
  | selfClosing tag =>
    obtain ⟨r, hr, -⟩ := map_eq_ok_iff.mp h
    exact absurd hr (enter_found c tag r)
  | closing name => simp [Event.path?] at hpath
  | ignorable =>
    cases h
    cases hpath
    exact ⟨rfl, rfl, rfl⟩

theorem stepAll_found {c : Catalogue} {es : List Event} {q : Place} {path : List Bytes}
    (h : (document (some c)).stepAll es = .ok q) (hpath : es.foldlM Event.path? [] = some path) :
    q = .document (some c) ∧ Event.significant es = [] := by
  induction es with
  | nil =>
    cases h
    exact ⟨rfl, rfl⟩
  | cons e es ih =>
    obtain ⟨r, hr, hrest⟩ := bind_eq_ok_iff.mp h
    rw [List.foldlM_cons, Option.bind_eq_bind, Option.bind_eq_some_iff] at hpath
    obtain ⟨outer, houter, hpath⟩ := hpath
    obtain ⟨rfl, rfl, rfl⟩ := step_found hr houter
    exact ih hrest hpath

theorem enter_ne_start {p q : Place} {tag : Tag} (h : p.enter tag = .ok q) :
    q ≠ .document none := by
  rintro rfl
  have hdepth := depth_enter h
  simp [depth] at hdepth

theorem leave_ne_start {p : Place} (h : p ≠ .document none) : p.leave ≠ .document none := by
  cases p with
  | document found => exact h
  | field found current nested => cases nested <;> simp [leave]
  | _ => simp [leave]

theorem step_ne_start {p q : Place} {e : Event} (hp : p ≠ .document none) (h : p.step e = .ok q) :
    q ≠ .document none := by
  cases e with
  | opening tag => exact enter_ne_start h
  | selfClosing tag =>
    obtain ⟨r, hr, rfl⟩ := map_eq_ok_iff.mp h
    exact leave_ne_start (enter_ne_start hr)
  | closing name =>
    cases h
    exact leave_ne_start hp
  | ignorable =>
    cases h
    exact hp

theorem stepAll_ne_start {p q : Place} {es : List Event} (hp : p ≠ .document none)
    (h : p.stepAll es = .ok q) : q ≠ .document none := by
  induction es generalizing p with
  | nil =>
    cases h
    exact hp
  | cons e es ih =>
    obtain ⟨r, hr, hrest⟩ := bind_eq_ok_iff.mp h
    exact ih (step_ne_start hp hr) hrest

theorem significant_eq_nil_of_start {es : List Event} {path : List Bytes}
    (h : (document none).stepAll es = .ok (.document none))
    (hpath : es.foldlM Event.path? [] = some path) : Event.significant es = [] := by
  induction es with
  | nil => rfl
  | cons e es ih =>
    obtain ⟨r, hr, hrest⟩ := bind_eq_ok_iff.mp h
    cases e with
    | opening tag =>
      have hr : (document none).enter tag = .ok r := hr
      exact absurd rfl (stepAll_ne_start (enter_ne_start hr) hrest)
    | selfClosing tag =>
      obtain ⟨s, hs, rfl⟩ := map_eq_ok_iff.mp hr
      exact absurd rfl (stepAll_ne_start (leave_ne_start (enter_ne_start hs)) hrest)
    | closing name => simp [Event.path?] at hpath
    | ignorable =>
      cases hr
      exact ih hrest hpath

end Place

namespace Catalogue

/-- The run over an accepted document, cut in two: what the lexer brings and where reading stands
after the bytes of `p`, and what is still to come. -/
structure Cut (p rest : Bytes) (c : Catalogue) (before behind : List Event) (l : Lexer)
    (q : Place) : Prop where
  read : Lexer.feedAll {} p = (before, .ok l)
  events : (Lexer.events (p ++ rest)).1 = before ++ behind
  path : ∃ path, behind.foldlM Event.path? l.path = some path
  place : (Place.document none).stepAll before = .ok q
  finish : q.stepAll behind = .ok (.document (some c))

theorem exists_cut {p rest : Bytes} {c : Catalogue} (h : parseBytes (p ++ rest) = .ok c) :
    ∃ before behind l q, Cut p rest c before behind l q := by
  obtain ⟨hfault, hread⟩ := parseBytes_eq_ok_iff.mp h
  cases hbefore : Lexer.feedAll {} p with
  | mk before result =>
    cases result with
    | error f => simp [Lexer.events, Lexer.feedAll_append, hbefore] at hfault
    | ok l =>
      cases hbehind : l.feedAll rest with
      | mk behind result =>
        cases result with
        | error f => simp [Lexer.events, Lexer.feedAll_append, hbefore, hbehind] at hfault
        | ok m =>
          have hevents : (Lexer.events (p ++ rest)).1 = before ++ behind := by
            simp [Lexer.events, Lexer.feedAll_append, hbefore, hbehind]
          rw [hevents, Place.stepAll_append] at hread
          obtain ⟨q, hplace, hfinish⟩ := bind_eq_ok_iff.mp hread
          exact ⟨before, behind, l, q, hbefore, hevents, ⟨_, Lexer.path_feedAll hbehind⟩, hplace,
            hfinish⟩

namespace Cut

variable {p rest : Bytes} {c : Catalogue} {before behind : List Event} {l : Lexer} {q : Place}

theorem events_before (h : Cut p rest c before behind l q) :
    Lexer.events p = (before, l.endFault?) := by
  rw [Lexer.events, h.read]

theorem depth (h : Cut p rest c before behind l q) : q.depth = l.path.length :=
  Place.depth_stepAll h.place (Lexer.path_feedAll h.read) rfl

theorem path_eq_nil {found : Option Catalogue}
    (h : Cut p rest c before behind l (.document found)) :
    l.path = [] := List.eq_nil_of_length_eq_zero h.depth.symm

theorem eq_of_found {found : Catalogue}
    (h : Cut p rest c before behind l (.document (some found))) :
    found = c ∧ Event.significant behind = [] := by
  obtain ⟨path, hbehind⟩ := h.path
  rw [h.path_eq_nil] at hbehind
  obtain ⟨hplace, hnone⟩ := Place.stepAll_found h.finish hbehind
  cases hplace
  exact ⟨rfl, hnone⟩

/-- Reading has come to the top again exactly if the catalogue element ends before the cut. -/
theorem endsElement_iff (h : Cut p rest c before behind l q) :
    Lexer.EndsElement p ↔ q = .document (some c) := by
  constructor
  · rintro ⟨es, m, hread, hbegun, hclosed⟩
    cases h.read.symm.trans hread
    have hdepth : q.depth = 0 := by rw [h.depth, hclosed, List.length_nil]
    cases q with
    | document found =>
      cases found with
      | none =>
        have hstart := Place.significant_eq_nil_of_start h.place (Lexer.path_feedAll h.read)
        exact absurd hstart hbegun
      | some found => rw [h.eq_of_found.1]
    | _ => simp [Place.depth] at hdepth
  · rintro rfl
    refine ⟨before, l, h.read, fun hnone => ?_, h.path_eq_nil⟩
    have hplace := h.place
    rw [← Place.stepAll_significant, hnone] at hplace
    cases hplace

theorem endsElement_iff_significant (h : Cut p rest c before behind l q) :
    Lexer.EndsElement p ↔ Event.significant behind = [] := by
  rw [h.endsElement_iff]
  constructor
  · rintro rfl
    exact h.eq_of_found.2
  · intro hnone
    have hfinish := h.finish
    rw [← Place.stepAll_significant, hnone] at hfinish
    exact Except.ok.inj hfinish

theorem parseBytes_eq_ok_iff (h : Cut p rest c before behind l q) {found : Catalogue} :
    parseBytes p = .ok found ↔ Lexer.EndsElement p ∧ (Lexer.events p).2 = none ∧ found = c := by
  rw [Catalogue.parseBytes_eq_ok_iff, h.endsElement_iff, h.events_before]
  dsimp only
  rw [h.place]
  constructor
  · rintro ⟨hfault, hplace⟩
    cases hplace
    obtain ⟨rfl, -⟩ := h.eq_of_found
    exact ⟨rfl, hfault, rfl⟩
  · rintro ⟨rfl, hfault, rfl⟩
    exact ⟨hfault, rfl⟩

end Cut

theorem exists_error {p : Bytes} (h : ∀ c, parseBytes p ≠ .ok c) :
    ∃ e, parseBytes p = .error e := by
  cases hp : parseBytes p with
  | error e => exact ⟨e, rfl⟩
  | ok c => exact absurd hp (h c)

/-- A document cut short is never read as another catalogue. It is not read at all before the end of
the catalogue element, which stands where the last tag of the whole document does. -/
theorem parse_of_truncated {p rest : String} {c : Catalogue} (h : parse (p ++ rest) = .ok c) :
    (parse p = .ok c ∨ ∃ e, parse p = .error e) ∧
    (¬ Lexer.EndsElement (Utf8.encode p) → ∃ e, parse p = .error e) ∧
    (Lexer.EndsElement (Utf8.encode p) ↔ Event.significant (Lexer.events (Utf8.encode p)).1 =
      Event.significant (Lexer.events (Utf8.encode (p ++ rest))).1) := by
  rw [parse, Utf8.encode_append] at h
  obtain ⟨before, behind, l, q, hcut⟩ := exists_cut h
  refine ⟨?_, ?_, ?_⟩
  · cases hp : parse p with
    | error e => exact .inr ⟨e, rfl⟩
    | ok found =>
      obtain ⟨-, -, rfl⟩ := hcut.parseBytes_eq_ok_iff.mp hp
      exact .inl rfl
  · intro hends
    exact exists_error fun found hp => hends (hcut.parseBytes_eq_ok_iff.mp hp).1
  · rw [hcut.endsElement_iff_significant, Utf8.encode_append, hcut.events, hcut.events_before]
    simp [Event.significant]

/-- A cut inside a field, behind an element that is passed over. -/
theorem parse_of_truncated_in_field :
    let p := "<catalogue><node name=\"A\"><field name=\"b\" type=\"C\"><x/>"
    let rest := "</field></node></catalogue>"
    parse (p ++ rest) = .ok ⟨[⟨"A", [⟨"b", "C"⟩]⟩]⟩ ∧ ∃ e, parse p = .error e := by
  intro p rest
  have hwhole : parse (p ++ rest) = .ok ⟨[⟨"A", [⟨"b", "C"⟩]⟩]⟩ := by rfl
  refine ⟨hwhole, (parse_of_truncated hwhole).2.1 ?_⟩
  rintro ⟨es, l, hread, -, hclosed⟩
  have hpath : (Lexer.feedAll {} (Utf8.encode p)).2 = .ok ⟨.text,
    [Utf8.encode "field", Utf8.encode "node", Utf8.encode "catalogue"]⟩ := by rfl
  rw [hread] at hpath
  cases hpath
  cases hclosed

end Catalogue
end FactoryMethods
