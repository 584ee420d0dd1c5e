import FactoryMethods.Proofs.Catalogue.Insertion
import FactoryMethods.Proofs.Markup.Content
import FactoryMethods.Proofs.Markup.Tags

/-! Pieces of a document that stand for each other. Two pieces that the lexer reads to their
ends, and whose events are handled alike wherever reading stands, may be exchanged. So a
self-closing tag does for a start tag with its end tag, and a field that holds nothing for one
that holds anything. -/
namespace FactoryMethods

open Markup

namespace Place

theorem stepAll_selfClosing (p : Place) (tag : Tag) (name : Bytes) :
    p.stepAll [.selfClosing tag] = p.stepAll [.opening tag, .closing name] := by
  simp only [stepAll_cons, stepAll_nil, step]
  cases p.enter tag <;> rfl

theorem enter_field {p q : Place} {tag : Tag} (hname : tag.name = Utf8.encode "field")
    (h : p.enter tag = .ok q) : ∃ found current nested, q = .field found current nested := by
  cases p with
  | document found =>
    have hother := (enter_document_eq_ok_iff.mp h).1
    exact absurd (Utf8.encode_injective (hname.symm.trans hother)) (by decide)
  | catalogue found =>
    simp only [enter, bind_eq_ok_iff, expectName_eq_ok_iff] at h
    obtain ⟨_, hother, -⟩ := h
    exact absurd (Utf8.encode_injective (hname.symm.trans hother)) (by decide)
  | node found current =>
    simp only [enter, bind_eq_ok_iff] at h
    obtain ⟨_, _, name, _, type, _, ⟨⟩⟩ := h
    exact ⟨found, current.addField ⟨name, type⟩, 0, rfl⟩
  | field found current nested =>
    cases h
    exact ⟨found, current, nested + 1, rfl⟩

section Field

variable (found : Catalogue) (current : Descriptor) (nested : Nat)

theorem step_in_field {e : Event} {path path' : List Bytes} (h : e.path? path = some path') :
    (field found current (nested + path.length)).step e =
      .ok (field found current (nested + path'.length)) := by
  cases e with
  | opening tag =>
    cases h
    rfl
  | selfClosing tag =>
    cases h
    rfl
  | closing name =>
    simp only [Event.path?] at h
    split at h
    · rename_i hhead
      cases h
      obtain ⟨outer, rfl⟩ := List.head?_eq_some_iff.mp hhead
      rfl
    · cases h
  | ignorable =>
    cases h
    rfl

/-- Induction on the events: in a field reading does no more than count the open elements. -/
theorem stepAll_in_field {es : List Event} {path path' : List Bytes}
    (h : es.foldlM Event.path? path = some path') :
    (field found current (nested + path.length)).stepAll es =
      .ok (field found current (nested + path'.length)) := by
  induction es generalizing path with
  | nil =>
    cases h
    rfl
  | cons e es ih =>
    rw [List.foldlM_cons, Option.bind_eq_bind, Option.bind_eq_some_iff] at h
    obtain ⟨outer, houter, hrest⟩ := h
    rw [stepAll_cons, step_in_field found current nested houter]
    exact ih hrest

theorem stepAll_from_field {es : List Event} {path : List Bytes}
    (h : es.foldlM Event.path? [] = some path) :
    (field found current nested).stepAll es = .ok (field found current (nested + path.length)) := by
  simpa using stepAll_in_field found current nested h

end Field

theorem stepAll_passed {tag : Tag} (hname : tag.name = Utf8.encode "field") {es : List Event}
    (hes : es.foldlM Event.path? [] = some []) (p : Place) (name : Bytes) :
    p.stepAll (.opening tag :: (es ++ [.closing name])) = p.stepAll [.selfClosing tag] := by
  rw [stepAll_selfClosing p tag name]
  simp only [stepAll_cons, stepAll_append, step]
  cases henter : p.enter tag with
  | error e => rfl
  | ok q =>
    obtain ⟨found, current, nested, rfl⟩ := enter_field hname henter
    show ((field found current nested).stepAll es >>= _) = _
    rw [stepAll_from_field found current nested hes]
    rfl

end Place

namespace Reader

theorem feedAll_append (r : Reader) (a b : Bytes) :
    r.feedAll (a ++ b) = r.feedAll a >>= fun r => r.feedAll b := List.foldlM_append

theorem feedAll_of_reads {l m : Lexer} {bytes : Bytes} {es : List Event}
    (h : Lexer.Reads l bytes es m) (p : Place) :
    feedAll ⟨l, p⟩ bytes = (p.stepAll es).map fun q => ⟨m, q⟩ := by
  rw [Lexer.Reads] at h
  rw [feedAll_eq, h]
  cases p.stepAll es <;> rfl

end Reader

namespace Catalogue

theorem parse_append (a b : String) : parse (a ++ b) =
    Reader.feedAll {} (Utf8.encode a) >>= fun r => r.feedAll (Utf8.encode b) >>= Reader.finish := by
  rw [parse, parseBytes, Utf8.encode_append, Reader.feedAll_append]
  exact bind_assoc _ _ _

/-- Two pieces whose events are handled alike lead reading to the same place, so what follows
is read alike. -/
theorem parse_replace {a x x' : String} {es fs fs' : List Event} {path : List Bytes}
    (ha : Lexer.Reads {} (Utf8.encode a) es ⟨.text, path⟩)
    (hx : Lexer.Reads ⟨.text, path⟩ (Utf8.encode x) fs ⟨.text, path⟩)
    (hx' : Lexer.Reads ⟨.text, path⟩ (Utf8.encode x') fs' ⟨.text, path⟩)
    (hsame : ∀ p : Place, p.stepAll fs = p.stepAll fs') (b : String) :
    parse (a ++ x ++ b) = parse (a ++ x' ++ b) := by
  have hread : Reader.feedAll {} (Utf8.encode (a ++ x)) =
      Reader.feedAll {} (Utf8.encode (a ++ x')) := by
    rw [Utf8.encode_append, Utf8.encode_append, Reader.feedAll_of_reads (ha.append hx),
      Reader.feedAll_of_reads (ha.append hx'), Place.stepAll_append, Place.stepAll_append]
    simp only [hsame]
  rw [parse_append, parse_append, hread]

/-- A self-closing tag and a start tag with its end tag right behind it are read alike, wherever
they stand, whatever they are named and whatever is wrong with them, before them or behind them. -/
theorem parse_emptyTag {a name attributes : String} (between : Lexer.Between (Utf8.encode a))
    (htag : IsTag name attributes) (b : String) :
    parse (a ++ emptyTag name attributes ++ b) =
      parse (a ++ (startTag name attributes ++ endTag name) ++ b) := by
  obtain ⟨es, path, ha⟩ := between
  have hpair := (htag.reads_startTag path).append (htag.reads_endTag path)
  rw [← Utf8.encode_append] at hpair
  exact parse_replace ha (htag.reads_emptyTag path) hpair
    (fun p => p.stepAll_selfClosing _ _) b

/-- A value that looks like the end of a tag, and a field where nodes should stand. -/
theorem parse_emptyTag_node :
    let a := "<catalogue>"
    Lexer.Between (Utf8.encode a) ∧ IsTag "node" " name='/>'" ∧ IsTag "field" "" ∧
      parse (a ++ (startTag "node" " name='/>'" ++ endTag "node") ++ "</catalogue>") =
        .ok ⟨[⟨"/>", []⟩]⟩ ∧
      parse (a ++ (startTag "field" "" ++ endTag "field") ++ "</node>") =
        .error (.unknownElement "field" "catalogue") := by
  intro a
  have hbetween : Lexer.Between (Utf8.encode a) := ⟨_, [Utf8.encode "catalogue"], by rfl⟩
  have hnode : IsTag "node" " name='/>'" := by
    refine ⟨by decide, by simp [blanks], by simp, by simp [blanks], ?_, by decide⟩
    iterate 6 refine .plain (by decide) ?_
    exact @Quoted.quoted '\'' ['/', '>'] _ (by decide) (by decide) .nil
  have hfield : IsTag "field" "" := ⟨by decide, by simp [blanks], by simp, by simp, .nil, by decide⟩
  refine ⟨hbetween, hnode, hfield, ?_, ?_⟩
  · rw [← parse_emptyTag hbetween hnode]
    rfl
  · rw [← parse_emptyTag hbetween hfield]
    rfl

section Field

variable {a attributes x : String}

theorem exists_field_of_startTag {path : List Bytes} {es : List Event} {r : Reader}
    (ha : Lexer.Reads {} (Utf8.encode a) es ⟨.text, path⟩) (htag : IsTag "field" attributes)
    (hr : Reader.feedAll {} (Utf8.encode (a ++ startTag "field" attributes)) = .ok r) :
    ∃ found current nested,
      r = ⟨⟨.text, Utf8.encode "field" :: path⟩, .field found current nested⟩ := by
  rw [Utf8.encode_append, Reader.feedAll_of_reads (ha.append (htag.reads_startTag path)),
    Place.stepAll_append, map_eq_ok_iff] at hr
  obtain ⟨q, hq, rfl⟩ := hr
  obtain ⟨p, -, hlast⟩ := bind_eq_ok_iff.mp hq
  obtain ⟨_, henter, ⟨⟩⟩ := bind_eq_ok_iff.mp hlast
  obtain ⟨found, current, nested, rfl⟩ := Place.enter_field htag.tag_name henter
  exact ⟨found, current, nested, rfl⟩

theorem exists_reads_of_content {y z : String} (hx : IsContent (y ++ z)) (path : List Bytes)
    (found : Catalogue) (current : Descriptor) (nested : Nat) :
    ∃ l, (Lexer.feedAll {} (Utf8.encode y)).2 = .ok l ∧
      Reader.feedAll ⟨⟨.text, path⟩, .field found current nested⟩ (Utf8.encode y) =
        .ok ⟨l.inside path, .field found current (nested + l.path.length)⟩ := by
  obtain ⟨es, hreads⟩ := hx
  rw [Utf8.encode_append] at hreads
  obtain ⟨l, ys, _, hy, -, -⟩ := hreads.split
  have hinside := hy.inside path
  have hplace := Place.stepAll_from_field found current nested (Lexer.path_feedAll hy)
  refine ⟨l, congrArg Prod.snd hy, ?_⟩
  rw [Lexer.inside, List.nil_append] at hinside
  rw [Reader.feedAll_of_reads hinside, hplace]
  rfl

/-- The end of the input in a field: the markup is at fault, or else the node is not closed. -/
theorem finish_in_field (l : Lexer) (path : List Bytes) (found : Catalogue) (current : Descriptor)
    (nested : Nat) : Reader.finish ⟨l.inside path, .field found current nested⟩ =
      .error (match l.endFault? with
        | some f => .markup f
        | none => .structural (.openNode current.name)) := by
  have hfault : (l.inside path).endFault? = l.endFault? := rfl
  rw [Reader.finish, hfault]
  cases l.endFault? <;> rfl

/-- What a field holds is passed over, to the end tag of the field and no further. An error up to
the start tag is final; where the input ends in the content, the node is not closed or the markup
is broken off. -/
theorem parse_field_content (between : Lexer.Between (Utf8.encode a))
    (htag : IsTag "field" attributes) (hx : IsContent x) :
    let start := a ++ startTag "field" attributes
    (∀ b, parse (start ++ x ++ endTag "field" ++ b) =
      parse (a ++ emptyTag "field" attributes ++ b)) ∧
    (∀ e, Reader.feedAll {} (Utf8.encode start) = .error e → ∀ b, parse (start ++ b) = .error e) ∧
    ∀ r, Reader.feedAll {} (Utf8.encode start) = .ok r → ∃ found current nested,
      r.place = .field found current nested ∧
      (∀ y z, x = y ++ z → ∃ l, (Lexer.feedAll {} (Utf8.encode y)).2 = .ok l ∧
        Reader.feedAll {} (Utf8.encode (start ++ y)) =
          .ok ⟨l.inside r.lexer.path, .field found current (nested + l.path.length)⟩ ∧
        parse (start ++ y) = .error (match l.endFault? with
          | some f => .markup f
          | none => .structural (.openNode current.name))) ∧
      Reader.feedAll {} (Utf8.encode (start ++ x ++ endTag "field")) =
        .ok ⟨⟨.text, r.lexer.path.tail⟩, (Place.field found current nested).leave⟩ := by
  intro start
  obtain ⟨es, path, ha⟩ := between
  obtain ⟨fs, hbalanced, hfs⟩ := hx.reads
  refine ⟨fun b => ?_, fun e he b => ?_, fun r hr => ?_⟩
  · have hwhole := ((htag.reads_startTag path).append (hfs _)).append (htag.reads_endTag path)
    rw [← Utf8.encode_append, ← Utf8.encode_append] at hwhole
    have hsame (p : Place) := Place.stepAll_passed htag.tag_name hbalanced p (Utf8.encode "field")
    have hreplaced := parse_replace ha hwhole (htag.reads_emptyTag path) hsame b
    simpa only [start, String.append_assoc] using hreplaced
  · rw [parse_append, he]
    rfl
  · obtain ⟨found, current, nested, rfl⟩ := exists_field_of_startTag ha htag hr
    refine ⟨found, current, nested, rfl, ?_, ?_⟩
    · rintro y z rfl
      obtain ⟨l, hl, hread⟩ := exists_reads_of_content hx
        (Utf8.encode "field" :: path) found current nested
      refine ⟨l, hl, ?_, ?_⟩
      · rw [Utf8.encode_append, Reader.feedAll_append, hr]
        exact hread
      · rw [parse_append, hr]
        show (Reader.feedAll _ _ >>= _) = _
        rw [hread]
        exact finish_in_field l _ found current _
    · have hpassed := (hfs (Utf8.encode "field" :: path)).append (htag.reads_endTag path)
      have hplace := Place.stepAll_from_field found current nested hbalanced
      rw [String.append_assoc, Utf8.encode_append, Reader.feedAll_append, hr, Utf8.encode_append]
      show Reader.feedAll _ _ = _
      rw [Reader.feedAll_of_reads hpassed, Place.stepAll_append, hplace]
      rfl

/-- A field in a field, with a node in it, and an end tag in a comment. -/
theorem parse_field_content_nested :
    let a := "<catalogue><node name='A'>"
    let attributes := " name='b' type='C'"
    let start := a ++ startTag "field" attributes
    let x := "<field><node/></field><!-- </field> -->"
    Lexer.Between (Utf8.encode a) ∧ IsTag "field" attributes ∧ IsContent x ∧
      parse (start ++ x ++ endTag "field" ++ "</node></catalogue>") = .ok ⟨[⟨"A", [⟨"b", "C"⟩]⟩]⟩ ∧
      parse (start ++ "<field><node/>") = .error (.structural (.openNode "A")) := by
  intro a attributes start x
  have hbetween : Lexer.Between (Utf8.encode a) :=
    ⟨_, [Utf8.encode "node", Utf8.encode "catalogue"], by rfl⟩
  have htag : IsTag "field" " name='b' type='C'" := by
    refine ⟨by decide, by simp [blanks], by simp, by simp [blanks], ?_, by decide⟩
    iterate 6 refine .plain (by decide) ?_
    refine @Quoted.quoted '\'' ['b'] _ (by decide) (by decide) ?_
    iterate 6 refine .plain (by decide) ?_
    exact @Quoted.quoted '\'' ['C'] _ (by decide) (by decide) .nil
  have hx : IsContent x := ⟨_, by rfl⟩
  obtain ⟨hwhole, -, hinside⟩ := parse_field_content hbetween htag hx
  refine ⟨hbetween, htag, hx, ?_, ?_⟩
  · rw [hwhole]
    rfl
  · have hstart : Reader.feedAll {} (Utf8.encode start) =
        .ok ⟨⟨.text, [Utf8.encode "field", Utf8.encode "node", Utf8.encode "catalogue"]⟩,
          .field {} ⟨"A", [⟨"b", "C"⟩]⟩ 0⟩ := by rfl
    obtain ⟨found, current, nested, hplace, hcut, -⟩ := hinside _ hstart
    cases hplace
    obtain ⟨l, hl, -, hparse⟩ := hcut "<field><node/>" "</field><!-- </field> -->" (by rfl)
    have hlexer : (Lexer.feedAll {} (Utf8.encode "<field><node/>")).2 =
        .ok ⟨.text, [Utf8.encode "field"]⟩ := by rfl
    cases hlexer.symm.trans hl
    exact hparse

end Field

end Catalogue
end FactoryMethods
