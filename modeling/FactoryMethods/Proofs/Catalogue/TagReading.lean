import FactoryMethods.Proofs.Catalogue.Finality
import FactoryMethods.Proofs.Catalogue.Lookup

/-! Tags that are read alike. What a document is read as depends on the attributes of a tag only
through those that the tag is asked for. Their order is of no account, and neither are others among
them, nor what is no attribute at all: a tag is read as if no more had been written in it than what
is recovered from it. -/
namespace FactoryMethods

open Markup

namespace Reader

theorem exists_feedAll_tag {write : String → String → String}
    (hwrite : write ∈ [startTag, emptyTag]) (name : String) (path : List Bytes) : ∃ next :
    Place → Reader, ∀ text, IsTag name text → ∀ p : Place,
      feedAll ⟨⟨.text, path⟩, p⟩ (Utf8.encode (write name text)) =
        (p.enter ⟨Utf8.encode (name ++ text)⟩).map next := by
  simp only [List.mem_cons, List.not_mem_nil, or_false] at hwrite
  rcases hwrite with rfl | rfl
  · refine ⟨fun q => ⟨⟨.text, Utf8.encode name :: path⟩, q⟩, fun text htag p => ?_⟩
    rw [feedAll_of_reads (htag.reads_startTag path), Place.stepAll_cons, Place.step]
    cases p.enter ⟨Utf8.encode (name ++ text)⟩ <;> rfl
  · refine ⟨fun q => ⟨⟨.text, path⟩, q.leave⟩, fun text htag p => ?_⟩
    rw [feedAll_of_reads (htag.reads_emptyTag path), Place.stepAll_cons, Place.step]
    cases p.enter ⟨Utf8.encode (name ++ text)⟩ <;> rfl

end Reader

namespace Catalogue

variable {a name text text' : String} {as as' : List (String × String)}
  {write : String → String → String}

theorem exists_feedAll_append_tag (between : Lexer.Between (Utf8.encode a))
    (hwrite : write ∈ [startTag, emptyTag]) (name : String) :
    ∃ next : Place → Reader, ∀ text, IsTag name text →
      Reader.feedAll {} (Utf8.encode (a ++ write name text)) =
        Reader.feedAll {} (Utf8.encode a) >>= fun r =>
          (r.place.enter ⟨Utf8.encode (name ++ text)⟩).map next := by
  obtain ⟨es, path, ha⟩ := between
  obtain ⟨next, hnext⟩ := Reader.exists_feedAll_tag hwrite name path
  refine ⟨next, fun text htag => ?_⟩
  rw [Utf8.encode_append, Reader.feedAll_append, Reader.feedAll_of_reads ha]
  cases Place.stepAll (.document none) es with
  | error e => rfl
  | ok p => exact hnext text htag p

theorem parse_eq_of_enter (between : Lexer.Between (Utf8.encode a))
    (hwrite : write ∈ [startTag, emptyTag]) (htag : IsTag name text) (htag' : IsTag name text')
    (h : ∀ p : Place, p.enter ⟨Utf8.encode (name ++ text)⟩ = p.enter ⟨Utf8.encode (name ++ text')⟩)
    (b : String) : parse (a ++ write name text ++ b) = parse (a ++ write name text' ++ b) := by
  obtain ⟨next, hnext⟩ := exists_feedAll_append_tag between hwrite name
  rw [parse_append, parse_append, hnext text htag, hnext text' htag']
  simp only [h]

theorem parse_eq_of_lookUp (between : Lexer.Between (Utf8.encode a))
    (hwrite : write ∈ [startTag, emptyTag]) (htag : IsTag name text) (htag' : IsTag name text')
    (hfound : Recovers [] (Utf8.encode text) (as.map encoded))
    (hfound' : Recovers [] (Utf8.encode text') (as'.map encoded))
    (h : ∀ key ∈ lookedUp name, lookUp name key as = lookUp name key as') (b : String) :
    parse (a ++ write name text ++ b) = parse (a ++ write name text' ++ b) := by
  refine parse_eq_of_enter between hwrite htag htag'
    (Place.enter_congr htag.tag_name htag'.tag_name ?_) b
  intro key hkey
  rw [required_eq_lookUp (htag.attributes_of_recovers hfound),
    required_eq_lookUp (htag'.attributes_of_recovers hfound'), h key hkey]

theorem parse_of_enter_error (between : Lexer.Between (Utf8.encode a))
    (hwrite : write ∈ [startTag, emptyTag]) (htag : IsTag name text) {r : Reader}
    (hr : Reader.feedAll {} (Utf8.encode a) = .ok r) {e : ReadError}
    (h : r.place.enter ⟨Utf8.encode (name ++ text)⟩ = .error e) (b : String) :
    parse (a ++ write name text ++ b) = .error e := by
  obtain ⟨next, hnext⟩ := exists_feedAll_append_tag between hwrite name
  refine parse_append_of_feedAll ?_ b
  rw [hnext text htag, hr]
  show (r.place.enter _).map next = _
  rw [h]
  rfl

/-- Well-formed attributes may be put into another order, and others may be added or left out. In a
field a bad name is reported before a bad type, in whatever order they stand. -/
theorem parse_reordered (between : Lexer.Between (Utf8.encode a))
    (hwrite : write ∈ [startTag, emptyTag]) (hname : IsTag name "") (h : IsAttributes as text)
    (hnodup : (as.map Prod.fst).Nodup) (h' : IsAttributes as' text')
    (hnodup' : (as'.map Prod.fst).Nodup) (hsame : (wanted name as).Perm (wanted name as'))
    (b : String) : parse (a ++ write name text ++ b) = parse (a ++ write name text' ++ b) ∧
    ∀ lexer found current, Reader.feedAll {} (Utf8.encode a) = .ok ⟨lexer, .node found current⟩ →
      name = "field" →
      (∀ e, lookUp "field" "name" as = .error e → parse (a ++ write name text ++ b) = .error e) ∧
      ∀ value e, lookUp "field" "name" as = .ok value → lookUp "field" "type" as = .error e →
        parse (a ++ write name text ++ b) = .error e := by
  have htag := h.isTag hname
  have hfound : Recovers [] (Utf8.encode text) (as.map encoded) := h.recovers hnodup (by simp)
  have hfound' : Recovers [] (Utf8.encode text') (as'.map encoded) := h'.recovers hnodup' (by simp)
  refine ⟨parse_eq_of_lookUp between hwrite htag (h'.isTag hname) hfound hfound'
    (lookUp_eq_of_perm hnodup hnodup' hsame) b, ?_⟩
  rintro lexer found current hr rfl
  have henter :=
    Place.enter_field_eq htag.tag_name (htag.attributes_of_recovers hfound) found current
  refine ⟨fun e he => ?_, fun value e hvalue he => ?_⟩
  · rw [he] at henter
    exact parse_of_enter_error between hwrite htag hr henter b
  · rw [hvalue, he] at henter
    exact parse_of_enter_error between hwrite htag hr henter b

/-- In a field a bad name and a bad type, the type first and something else between them. -/
theorem parse_reordered_field :
    let a := "<catalogue><node name='A'>"
    let text := " type=\"&x;\" id=\"&z;\" name=\"&y;\""
    let text' := " name=\"&y;\" type=\"&x;\""
    let e := ReadError.markup (.reference (.unknown 1 2 "y"))
    parse (a ++ emptyTag "field" text ++ "</node>") = .error e ∧
      parse (a ++ emptyTag "field" text' ++ "</node>") = .error e := by
  intro a text text' e
  have hbetween : Lexer.Between (Utf8.encode a) :=
    ⟨_, [Utf8.encode "node", Utf8.encode "catalogue"], by rfl⟩
  have hwrite : emptyTag ∈ [startTag, emptyTag] := by simp
  have htext : IsAttributes [("type", "&x;"), ("id", "&z;"), ("name", "&y;")] text :=
    isAttributes_marked (by decide)
  have htext' : IsAttributes [("name", "&y;"), ("type", "&x;")] text' :=
    isAttributes_marked (by decide)
  have hfield : IsTag "field" "" := isTag_of_mem (by decide)
  obtain ⟨hsame, hfirst⟩ :=
    parse_reordered hbetween hwrite hfield htext (by decide) htext' (by decide)
    (by decide) "</node>"
  have hstart : Reader.feedAll {} (Utf8.encode a) =
      .ok ⟨⟨.text, [Utf8.encode "node", Utf8.encode "catalogue"]⟩, .node {} ⟨"A", []⟩⟩ := by rfl
  have herror := (hfirst _ _ _ hstart rfl).1 e rfl
  exact ⟨herror, hsame ▸ herror⟩

/-- A tag is refused only for a required key that has no value among the attributes recovered
from it, and so not for being ill-formed; else it is read as a well-formed tag with what it
is asked for. -/
theorem parse_recovered (between : Lexer.Between (Utf8.encode a))
    (hwrite : write ∈ [startTag, emptyTag]) (htag : IsTag name text) :
    ∃ as : List (String × String), Recovers [] (Utf8.encode text) (as.map encoded) ∧
      (∀ r, Reader.feedAll {} (Utf8.encode a) = .ok r → r.place.child? = some name →
        (∃ r', Reader.feedAll {} (Utf8.encode (a ++ write name text)) = .ok r' ∧
          ∀ key ∈ lookedUp name, ∃ value, lookUp name key as = .ok value) ∨
        ∃ key ∈ lookedUp name, ∃ e, lookUp name key as = .error e ∧
          ∀ b, parse (a ++ write name text ++ b) = .error e) ∧
      ∀ text' as', IsTag name text' → IsAttributes as' text' → (as'.map Prod.fst).Nodup →
        (wanted name as).Perm (wanted name as') →
        ∀ b, parse (a ++ write name text ++ b) = parse (a ++ write name text' ++ b) := by
  obtain ⟨as, hfound, hnodup⟩ := htag.exists_recovers
  refine ⟨as, hfound, fun r hr hchild => ?_, fun text' as' htag' h' hnodup' hsame b => ?_⟩
  · rcases Place.enter_cases hchild htag.tag_name (htag.attributes_of_recovers hfound) with
      ⟨q, hq, hvalues⟩ | ⟨key, hkey, e, he, hrefused⟩
    · obtain ⟨next, hnext⟩ := exists_feedAll_append_tag between hwrite name
      refine .inl ⟨next q, ?_, hvalues⟩
      rw [hnext text htag, hr]
      show (r.place.enter _).map next = _
      rw [hq]
      rfl
    · exact .inr ⟨key, hkey, e, he, parse_of_enter_error between hwrite htag hr hrefused⟩
  · exact parse_eq_of_lookUp between hwrite htag htag' hfound (h'.recovers hnodup' (by simp))
      (lookUp_eq_of_perm hnodup hnodup' hsame) b

/-- A key without a value and a value without quotes: as if the name were all that is written. -/
theorem parse_recovered_ill_formed :
    let a := "<catalogue>"
    let text := " id name='A' x=1"
    parse (a ++ emptyTag "node" text ++ "</catalogue>") =
        parse (a ++ emptyTag "node" " name=\"A\"" ++ "</catalogue>") ∧
      parse (a ++ emptyTag "node" text ++ "</catalogue>") = .ok ⟨[⟨"A", []⟩]⟩ := by
  intro a text
  have hbetween : Lexer.Between (Utf8.encode a) := ⟨_, [Utf8.encode "catalogue"], by rfl⟩
  have hwrite : emptyTag ∈ [startTag, emptyTag] := by simp
  have htag : IsTag "node" " id name='A' x=1" := by
    refine ⟨by decide, by simp [blanks], by simp, by simp [blanks], ?_, by decide⟩
    iterate 9 refine .plain (by decide) ?_
    refine @Quoted.quoted '\'' ['A'] _ (by decide) (by decide) ?_
    iterate 4 refine .plain (by decide) ?_
    exact .nil
  have hname : IsAttributes [("name", "A")] " name=\"A\"" := isAttributes_marked (by decide)
  obtain ⟨as, hfound, -, hsame⟩ := parse_recovered hbetween hwrite htag
  have hlist : attributesIn (Utf8.encode text) = [("name", "A")].map encoded := by rfl
  rw [attributesIn_of_recovers hfound, List.map_inj_right fun _ _ h => encoded_injective h] at hlist
  subst hlist
  have hread :=
    hsame _ _ (hname.isTag (isTag_of_mem (by decide))) hname (by decide) (.refl _) "</catalogue>"
  refine ⟨hread, ?_⟩
  rw [hread]
  rfl

/-- A key that is there twice is not refused: the value it has first is taken. -/
theorem parse_of_repeated_key :
    let text := " name=\"A\" name=\"B\""
    IsAttributes [("name", "A"), ("name", "B")] text ∧
      ¬ ([("name", "A"), ("name", "B")].map Prod.fst).Nodup ∧
      parse ("<catalogue>" ++ emptyTag "node" text ++ "</catalogue>") = .ok ⟨[⟨"A", []⟩]⟩ := by
  intro text
  have htext : IsAttributes [("name", "A"), ("name", "B")] text := isAttributes_marked (by decide)
  exact ⟨htext, by decide, by rfl⟩

end Catalogue
end FactoryMethods
