import FactoryMethods.Proofs.Catalogue.Grammar

/-! Acceptance. Reading takes a document exactly if its markup is without fault and its elements are
derived by the grammar. In one direction the elements have to be found first: as the place knows how
many are open, it is back at the top only when all of them are closed. -/
namespace FactoryMethods

open Markup

namespace Place

theorem enter_document_eq_ok_iff {found : Option Catalogue} {t : Tag} {p : Place} :
    (document found).enter t = .ok p ↔
      t.name = Utf8.encode "catalogue" ∧ found = none ∧ p = .catalogue {} := by
  simp only [enter, bind_eq_ok_iff, expectName_eq_ok_iff]
  constructor
  · rintro ⟨_, hname, hp⟩
    cases found with
    | none =>
      cases hp
      exact ⟨hname, rfl, rfl⟩
    | some c => cases hp
  · rintro ⟨hname, rfl, rfl⟩
    exact ⟨(), hname, rfl⟩

theorem enter_catalogue_eq_ok_iff {found : Catalogue} {t : Tag} {p : Place}
    (h : Utf8.Valid t.content) : (catalogue found).enter t = .ok p ↔
      ∃ name, t.IsNode name ∧ p = .node found ⟨name, []⟩ := by
  simp only [enter, bind_eq_ok_iff, expectName_eq_ok_iff, required_eq_ok_iff h]
  constructor
  · rintro ⟨_, htag, name, hname, ⟨⟩⟩
    exact ⟨name, ⟨htag, hname⟩, rfl⟩
  · rintro ⟨name, ⟨htag, hname⟩, rfl⟩
    exact ⟨(), htag, name, hname, rfl⟩

theorem enter_node_eq_ok_iff {found : Catalogue} {current : Descriptor} {t : Tag} {p : Place}
    (h : Utf8.Valid t.content) : (node found current).enter t = .ok p ↔
      ∃ f, t.IsField f ∧ p = .field found (current.addField f) 0 := by
  simp only [enter, bind_eq_ok_iff, expectName_eq_ok_iff, required_eq_ok_iff h]
  constructor
  · rintro ⟨_, htag, name, hname, type, htype, ⟨⟩⟩
    exact ⟨⟨name, type⟩, ⟨htag, hname, htype⟩, rfl⟩
  · rintro ⟨f, ⟨htag, hname, htype⟩, rfl⟩
    exact ⟨(), htag, f.name, hname, f.type, htype, rfl⟩

theorem stepAll_leaf (p : Place) (tag : Tag) (next : Forest) :
    p.stepAll (Forest.leaf tag next).events =
      p.enter tag >>= fun q => q.leave.stepAll next.events := by
  rw [Forest.events, stepAll_cons, step]
  cases p.enter tag <;> rfl

theorem stepAll_element (p : Place) (tag : Tag) (content next : Forest) :
    p.stepAll (Forest.element tag content next).events =
      p.enter tag >>= fun q => q.stepAll content.events >>= fun r =>
        r.leave.stepAll next.events := by
  simp only [Forest.events, stepAll_cons, stepAll_append]
  rfl

theorem stepAll_field (found : Catalogue) (current : Descriptor) (nested : Nat) (f : Forest) :
    (field found current nested).stepAll f.events = .ok (field found current nested) := by
  induction f generalizing nested with
  | nil => rfl
  | leaf tag next ih =>
    rw [stepAll_leaf]
    exact ih nested
  | element tag content next ihContent ihNext =>
    rw [stepAll_element, enter]
    show ((field found current (nested + 1)).stepAll content.events >>= _) = _
    rw [ihContent]
    exact ihNext nested

theorem stepAll_node_iff {f : Forest} {found : Catalogue} {current : Descriptor} {p : Place}
    (h : ∀ e ∈ f.events, e.Encoded) : (node found current).stepAll f.events = .ok p ↔
      ∃ fs, IsFields f fs ∧ p = .node found ⟨current.name, current.fields ++ fs⟩ := by
  induction f generalizing current with
  | nil =>
    constructor
    · rintro ⟨⟩
      exact ⟨[], .nil, by simp⟩
    · rintro ⟨_, ⟨⟩, rfl⟩
      simp [Forest.events]
  | leaf tag next ih =>
    simp only [Forest.events, List.forall_mem_cons] at h
    obtain ⟨htag, hnext⟩ := h
    rw [stepAll_leaf, bind_eq_ok_iff]
    constructor
    · rintro ⟨_, henter, hrest⟩
      obtain ⟨f, hf, rfl⟩ := (enter_node_eq_ok_iff htag).mp henter
      obtain ⟨fs, hfs, rfl⟩ := (ih hnext).mp hrest
      exact ⟨f :: fs, .leaf hf hfs, by simp⟩
    · rintro ⟨_, hfields, rfl⟩
      cases hfields with
      | @leaf _ _ f fs hf hfs =>
        have henter : (node found current).enter tag = .ok (.field found (current.addField f) 0) :=
          (enter_node_eq_ok_iff htag).mpr ⟨f, hf, rfl⟩
        have hrest : (node found (current.addField f)).stepAll next.events =
            .ok (.node found ⟨current.name, current.fields ++ f :: fs⟩) :=
          (ih hnext).mpr ⟨fs, hfs, by simp⟩
        exact ⟨_, henter, hrest⟩
  | element tag content next _ ih =>
    simp only [Forest.events, List.forall_mem_cons, List.forall_mem_append] at h
    obtain ⟨htag, -, -, hnext⟩ := h
    simp only [stepAll_element, bind_eq_ok_iff]
    constructor
    · rintro ⟨_, henter, _, hcontent, hrest⟩
      obtain ⟨f, hf, rfl⟩ := (enter_node_eq_ok_iff htag).mp henter
      rw [stepAll_field] at hcontent
      cases hcontent
      obtain ⟨fs, hfs, rfl⟩ := (ih hnext).mp hrest
      exact ⟨f :: fs, .element hf hfs, by simp⟩
    · rintro ⟨_, hfields, rfl⟩
      cases hfields with
      | @element _ _ _ f fs hf hfs =>
        have henter : (node found current).enter tag = .ok (.field found (current.addField f) 0) :=
          (enter_node_eq_ok_iff htag).mpr ⟨f, hf, rfl⟩
        have hskipped := stepAll_field found (current.addField f) 0 content
        have hrest : (node found (current.addField f)).stepAll next.events =
            .ok (.node found ⟨current.name, current.fields ++ f :: fs⟩) :=
          (ih hnext).mpr ⟨fs, hfs, by simp⟩
        exact ⟨_, henter, _, hskipped, hrest⟩

theorem stepAll_catalogue_iff {f : Forest} {found : Catalogue} {p : Place}
    (h : ∀ e ∈ f.events, e.Encoded) : (catalogue found).stepAll f.events = .ok p ↔
      ∃ ds, IsNodes f ds ∧ p = .catalogue ⟨found.descriptors ++ ds⟩ := by
  induction f generalizing found with
  | nil =>
    constructor
    · rintro ⟨⟩
      exact ⟨[], .nil, by simp⟩
    · rintro ⟨_, ⟨⟩, rfl⟩
      simp [Forest.events]
  | leaf tag next ih =>
    simp only [Forest.events, List.forall_mem_cons] at h
    obtain ⟨htag, hnext⟩ := h
    rw [stepAll_leaf, bind_eq_ok_iff]
    constructor
    · rintro ⟨_, henter, hrest⟩
      obtain ⟨name, hname, rfl⟩ := (enter_catalogue_eq_ok_iff htag).mp henter
      obtain ⟨ds, hds, rfl⟩ := (ih hnext).mp hrest
      exact ⟨⟨name, []⟩ :: ds, .leaf hname hds, by simp⟩
    · rintro ⟨_, hnodes, rfl⟩
      cases hnodes with
      | @leaf _ _ name ds hname hds =>
        have henter : (catalogue found).enter tag = .ok (.node found ⟨name, []⟩) :=
          (enter_catalogue_eq_ok_iff htag).mpr ⟨name, hname, rfl⟩
        have hrest : (catalogue (found.add ⟨name, []⟩)).stepAll next.events =
            .ok (.catalogue ⟨found.descriptors ++ ⟨name, []⟩ :: ds⟩) :=
          (ih hnext).mpr ⟨ds, hds, by simp⟩
        exact ⟨_, henter, hrest⟩
  | element tag content next _ ih =>
    simp only [Forest.events, List.forall_mem_cons, List.forall_mem_append] at h
    obtain ⟨htag, hcontent, -, hnext⟩ := h
    simp only [stepAll_element, bind_eq_ok_iff]
    constructor
    · rintro ⟨_, henter, _, hfields, hrest⟩
      obtain ⟨name, hname, rfl⟩ := (enter_catalogue_eq_ok_iff htag).mp henter
      obtain ⟨fs, hfs, rfl⟩ := (stepAll_node_iff hcontent).mp hfields
      obtain ⟨ds, hds, rfl⟩ := (ih hnext).mp hrest
      exact ⟨⟨name, fs⟩ :: ds, .element hname hfs hds, by simp⟩
    · rintro ⟨_, hnodes, rfl⟩
      cases hnodes with
      | @element _ _ _ name fs ds hname hfs hds =>
        have henter : (catalogue found).enter tag = .ok (.node found ⟨name, []⟩) :=
          (enter_catalogue_eq_ok_iff htag).mpr ⟨name, hname, rfl⟩
        have hread : (node found ⟨name, []⟩).stepAll content.events =
            .ok (.node found ⟨name, fs⟩) :=
          (stepAll_node_iff hcontent).mpr ⟨fs, hfs, rfl⟩
        have hrest : (catalogue (found.add ⟨name, fs⟩)).stepAll next.events =
            .ok (.catalogue ⟨found.descriptors ++ ⟨name, fs⟩ :: ds⟩) :=
          (ih hnext).mpr ⟨ds, hds, by simp⟩
        exact ⟨_, henter, _, hread, hrest⟩

theorem stepAll_found_iff {f : Forest} {found c : Catalogue} :
    (document (some found)).stepAll f.events = .ok (.document (some c)) ↔ f = .nil ∧ found = c := by
  cases f with
  | nil => simp [Forest.events]
  | leaf tag next => simp [stepAll_leaf, bind_eq_ok_iff, enter_document_eq_ok_iff]
  | element tag content next => simp [stepAll_element, bind_eq_ok_iff, enter_document_eq_ok_iff]

theorem stepAll_document_iff {f : Forest} {c : Catalogue} (h : ∀ e ∈ f.events, e.Encoded) :
    (document none).stepAll f.events = .ok (.document (some c)) ↔ IsDocument f c := by
  cases f with
  | nil =>
    constructor
    · rintro ⟨⟩
    · rintro ⟨⟩
  | leaf tag next =>
    simp only [stepAll_leaf, bind_eq_ok_iff, enter_document_eq_ok_iff]
    constructor
    · rintro ⟨_, ⟨hname, -, rfl⟩, hrest⟩
      obtain ⟨rfl, rfl⟩ := stepAll_found_iff.mp hrest
      exact .leaf hname
    · rintro ⟨hname⟩
      exact ⟨_, ⟨hname, trivial, rfl⟩, stepAll_found_iff.mpr ⟨rfl, rfl⟩⟩
  | element tag content next =>
    simp only [Forest.events, List.forall_mem_cons, List.forall_mem_append] at h
    obtain ⟨-, hcontent, -⟩ := h
    simp only [stepAll_element, bind_eq_ok_iff, enter_document_eq_ok_iff]
    constructor
    · rintro ⟨_, ⟨hname, -, rfl⟩, _, hnodes, hrest⟩
      obtain ⟨ds, hds, rfl⟩ := (stepAll_catalogue_iff hcontent).mp hnodes
      obtain ⟨rfl, rfl⟩ := stepAll_found_iff.mp hrest
      exact .element hname hds
    · rintro (_ | ⟨hname, hds⟩)
      exact ⟨_, ⟨hname, trivial, rfl⟩, _, (stepAll_catalogue_iff hcontent).mpr ⟨_, hds, rfl⟩,
        stepAll_found_iff.mpr ⟨rfl, rfl⟩⟩

theorem stepAll_significant (p : Place) (es : List Event) :
    p.stepAll (Event.significant es) = p.stepAll es := by
  induction es generalizing p with
  | nil => rfl
  | cons e es ih =>
    cases e with
    | ignorable => exact ih p
    | opening tag => simp [ih]
    | selfClosing tag => simp [ih]
    | closing name => simp [ih]

def depth : Place → Nat
  | document _ => 0
  | catalogue _ => 1
  | node _ _ => 2
  | field _ _ nested => nested + 3

theorem depth_leave (p : Place) : p.leave.depth = p.depth - 1 := by
  cases p with
  | field found current nested => cases nested <;> rfl
  | _ => rfl

theorem depth_enter {p q : Place} {tag : Tag} (h : p.enter tag = .ok q) :
    q.depth = p.depth + 1 := by
  cases p with
  | document found =>
    obtain ⟨-, -, rfl⟩ := enter_document_eq_ok_iff.mp h
    rfl
  | catalogue found =>
    simp only [enter, bind_eq_ok_iff] at h
    obtain ⟨_, _, name, _, ⟨⟩⟩ := h
    rfl
  | node found current =>
    simp only [enter, bind_eq_ok_iff] at h
    obtain ⟨_, _, name, _, type, _, ⟨⟩⟩ := h
    rfl
  | field found current nested =>
    cases h
    rfl

theorem depth_step {p q : Place} {e : Event} {path path' : List Bytes}
    (hstep : p.step e = .ok q) (hpath : e.path? path = some path')
    (hdepth : p.depth = path.length) : q.depth = path'.length := by
  cases e with
  | opening tag =>
    cases hpath
    rw [depth_enter hstep, hdepth, List.length_cons]
  | selfClosing tag =>
    cases hpath
    obtain ⟨r, henter, rfl⟩ := map_eq_ok_iff.mp hstep
    have hr := depth_enter henter
    rw [depth_leave]
    omega
  | closing name =>
    cases hstep
    simp only [Event.path?] at hpath
    split at hpath
    · cases hpath
      rw [depth_leave, hdepth, List.length_tail]
    · cases hpath
  | ignorable =>
    cases hpath
    cases hstep
    exact hdepth

/-- Induction on the events: the place and the lexer count the same open elements. -/
theorem depth_stepAll {p q : Place} {es : List Event} {path path' : List Bytes}
    (hstep : p.stepAll es = .ok q) (hpath : es.foldlM Event.path? path = some path')
    (hdepth : p.depth = path.length) : q.depth = path'.length := by
  induction es generalizing p path with
  | nil =>
    cases hstep
    cases hpath
    exact hdepth
  | cons e es ih =>
    obtain ⟨r, hr, hrest⟩ := bind_eq_ok_iff.mp hstep
    rw [List.foldlM_cons, Option.bind_eq_bind, Option.bind_eq_some_iff] at hpath
    obtain ⟨outer, houter, hpath⟩ := hpath
    exact ih hrest hpath (depth_step hr houter hdepth)

end Place

namespace Catalogue

theorem forest_of_stepAll {bytes : Bytes} {found : Option Catalogue}
    (hfault : (Lexer.events bytes).2 = none)
    (hread : (Place.document none).stepAll (Lexer.events bytes).1 = .ok (.document found)) :
    ∃ f : Forest, Event.significant (Lexer.events bytes).1 = f.events := by
  rw [Lexer.events] at hfault hread ⊢
  cases hlexed : Lexer.feedAll {} bytes with
  | mk es result =>
    cases result with
    | error fault => simp [hlexed] at hfault
    | ok l =>
      simp only [hlexed] at hread ⊢
      have hpath := Lexer.path_feedAll hlexed
      have hdepth := Place.depth_stepAll hread hpath rfl
      rw [List.eq_nil_of_length_eq_zero hdepth.symm] at hpath
      exact Event.closes_of_path [] hpath

/-- Reading accepts exactly the documents without a fault whose elements the grammar derives, and
what it reads is what the grammar says. -/
theorem parse_eq_ok_iff_isDocument (document : String) (c : Catalogue) : parse document = .ok c ↔
    (Lexer.events (Utf8.encode document)).2 = none ∧
      ∃ f : Forest, Event.significant (Lexer.events (Utf8.encode document)).1 = f.events ∧
        IsDocument f c := by
  have hencoded : ∀ e ∈ Event.significant (Lexer.events (Utf8.encode document)).1, e.Encoded :=
    fun e he => Lexer.events_encoded document e (List.mem_filter.mp he).1
  rw [parse, parseBytes_eq_ok_iff]
  refine and_congr_right fun hfault => ?_
  constructor
  · intro hread
    obtain ⟨f, hf⟩ := forest_of_stepAll hfault hread
    rw [hf] at hencoded
    rw [← Place.stepAll_significant, hf] at hread
    exact ⟨f, hf, (Place.stepAll_document_iff hencoded).mp hread⟩
  · rintro ⟨f, hf, hc⟩
    rw [hf] at hencoded
    rw [← Place.stepAll_significant, hf]
    exact (Place.stepAll_document_iff hencoded).mpr hc

end Catalogue
end FactoryMethods
