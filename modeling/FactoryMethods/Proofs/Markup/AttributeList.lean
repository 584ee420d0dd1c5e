import FactoryMethods.Proofs.Markup.Tags

/-! Well-formed attributes. Each has a blank before it, a key, an equals sign and a value in quotes.
Behind the name of a tag they make a tag, and reading recovers every one of them, as long as no key
is used twice. -/
namespace FactoryMethods
namespace Markup

def IsGap (s : String) : Prop := ∀ c ∈ s.toList, c ∈ blanks

structure IsAttributeKey (key : String) : Prop where
  ne : key ≠ ""
  plain : ∀ c ∈ key.toList, c ∉ blanks ∧ c ∉ ['=', '"', '\'', '>']

instance (key : String) : Decidable (IsAttributeKey key) :=
  have : Decidable (∀ c ∈ key.toList, c ∉ blanks ∧ c ∉ ['=', '"', '\'', '>']) :=
    List.decidableBAll _ _
  decidable_of_iff (key ≠ "" ∧ ∀ c ∈ key.toList, c ∉ blanks ∧ c ∉ ['=', '"', '\'', '>'])
    ⟨fun h => ⟨h.1, h.2⟩, fun h => ⟨h.ne, h.plain⟩⟩

/-- A key with a blank before it and an equals sign behind it. -/
structure Introduces (key start : String) : Prop where
  isKey : IsAttributeKey key
  eq : ∃ lead before, lead ≠ "" ∧ IsGap lead ∧ IsGap before ∧ start = lead ++ key ++ before ++ "="

/-- The keys and values of attributes, and a text in which they are written. A key may be
there twice. -/
inductive IsAttributes : List (String × String) → String → Prop
  | nil {gap : String} : IsGap gap → IsAttributes [] gap
  | cons {key start gap value rest : String} {quote : Char} {as : List (String × String)} :
      Introduces key start → IsGap gap → quote ∈ ['"', '\''] → quote ∉ value.toList →
      IsAttributes as rest →
      IsAttributes ((key, value) :: as)
        (start ++ gap ++ String.singleton quote ++ value ++ String.singleton quote ++ rest)

/-- Attributes with a space before each of them and the values in quotation marks. -/
def marked (as : List (String × String)) : String :=
  String.join (as.map fun a => " " ++ a.1 ++ "=" ++ "\"" ++ a.2 ++ "\"")

def encoded (a : String × String) : Attribute := ⟨Utf8.encode a.1, Utf8.encode a.2⟩

theorem encoded_injective : Function.Injective encoded := by
  intro a a' h
  obtain ⟨hkey, hvalue⟩ := Attribute.mk.inj h
  exact Prod.ext (Utf8.encode_injective hkey) (Utf8.encode_injective hvalue)

theorem IsGap.allBlank {s : String} (h : IsGap s) : AllBlank (Utf8.encode s) := by
  intro b hb
  rw [Utf8.encode_eq_flatMap] at hb
  obtain ⟨c, hc, hb⟩ := List.mem_flatMap.mp hb
  obtain ⟨blank, hchar, hblank⟩ := exists_blank_of_mem (h c hc)
  rw [hchar, List.mem_singleton] at hb
  rwa [hb]

theorem Quoted.plain_append {xs cs : List Char} (hxs : ∀ c ∈ xs, c ∉ ['"', '\'', '>'])
    (h : Quoted cs) : Quoted (xs ++ cs) := by
  induction xs with
  | nil => exact h
  | cons c xs ih =>
    rw [List.forall_mem_cons] at hxs
    exact .plain hxs.1 (ih hxs.2)

theorem not_special_of_blank {c : Char} (hc : c ∈ blanks) : c ∉ ['"', '\'', '>'] ∧ c ≠ '/' := by
  simp only [blanks, List.mem_cons, List.not_mem_nil, or_false] at hc
  rcases hc with rfl | rfl | rfl | rfl <;> decide

theorem IsGap.quoted {s : String} (h : IsGap s) {cs : List Char} (hcs : Quoted cs) :
    Quoted (s.toList ++ cs) :=
  hcs.plain_append fun c hc => (not_special_of_blank (h c hc)).1

theorem exists_quote {quote : Char} (h : quote ∈ ['"', '\'']) : ∃ q : UInt8,
    Utf8.encode (String.singleton quote) = [q] ∧ isQuote q = true ∧
      ∀ value : String, quote ∉ value.toList → q ∉ Utf8.encode value := by
  simp only [List.mem_cons, List.not_mem_nil, or_false] at h
  rcases h with rfl | rfl
  · exact ⟨quotationMark, rfl, rfl,
      fun value hvalue => (Utf8.mem_encode_iff (by decide)).not.mpr hvalue⟩
  · exact ⟨apostrophe, rfl, rfl,
      fun value hvalue => (Utf8.mem_encode_iff (by decide)).not.mpr hvalue⟩

namespace Introduces

variable {key start : String}

theorem assigns (h : Introduces key start) : Assigns (Utf8.encode key) (Utf8.encode start) := by
  obtain ⟨lead, before, -, hlead, hbefore, rfl⟩ := h.eq
  have hequals : Utf8.encode "=" = [equals] := rfl
  have hbytes : ∀ b ∈ Utf8.encode key, IsKeyByte b := by
    intro b hb
    rw [Utf8.encode_eq_flatMap] at hb
    obtain ⟨c, hc, hb⟩ := List.mem_flatMap.mp hb
    obtain ⟨hblank, hplain⟩ := h.isKey.plain c hc
    exact ⟨not_blank_of_not_mem hblank b hb, ne_of_mem_encodeChar hplain hb (by decide) (by decide)⟩
  refine ⟨?_, Utf8.encode lead, Utf8.encode before, hlead.allBlank, hbefore.allBlank, ?_⟩
  · have hne : Utf8.encode key ≠ [] := fun hnil => h.isKey.ne (Utf8.encode_injective hnil)
    obtain ⟨b, rest, hkey⟩ := List.exists_cons_of_ne_nil hne
    rw [hkey, List.forall_mem_cons] at hbytes
    exact ⟨b, rest, hkey, hbytes.1.1, hbytes.2⟩
  · simp [hequals]

theorem quoted (h : Introduces key start) {cs : List Char} (hcs : Quoted cs) :
    Quoted (start.toList ++ cs) := by
  obtain ⟨lead, before, -, hlead, hbefore, rfl⟩ := h.eq
  have hkey : ∀ c ∈ key.toList, c ∉ ['"', '\'', '>'] :=
    fun c hc hmem => (h.isKey.plain c hc).2 (List.mem_cons_of_mem _ hmem)
  have hequals : Quoted ('=' :: cs) := .plain (by decide) hcs
  simpa using hlead.quoted ((hbefore.quoted hequals).plain_append hkey)

theorem exists_blank (h : Introduces key start) : ∃ c cs, start.toList = c :: cs ∧ c ∈ blanks := by
  obtain ⟨lead, before, hne, hlead, -, rfl⟩ := h.eq
  obtain ⟨c, cs, hcs⟩ := List.exists_cons_of_ne_nil (mt String.toList_eq_nil_iff.mp hne)
  exact ⟨c, cs ++ (key ++ before ++ "=").toList, by simp [hcs], hlead c (by simp [hcs])⟩

end Introduces

theorem exists_encoded {found : List Attribute}
    (h : ∀ a ∈ found, Utf8.Valid a.key ∧ Utf8.Valid a.value) :
    ∃ as : List (String × String), found = as.map encoded := by
  induction found with
  | nil => exact ⟨[], rfl⟩
  | cons a found ih =>
    obtain ⟨⟨⟨key, hkey⟩, ⟨value, hvalue⟩⟩, hfound⟩ := List.forall_mem_cons.mp h
    obtain ⟨as, rfl⟩ := ih hfound
    refine ⟨(key, value) :: as, ?_⟩
    rw [List.map_cons, encoded, hkey, hvalue]

namespace IsAttributes

variable {as : List (String × String)} {text : String}

theorem quoted (h : IsAttributes as text) : Quoted text.toList := by
  induction h with
  | @nil gap hgap => simpa using hgap.quoted .nil
  | cons hstart hgap hquote hvalue _ ih =>
    simpa using hstart.quoted (hgap.quoted (.quoted hquote hvalue ih))

theorem blank (h : IsAttributes as text) : ∀ c ∈ text.toList.head?, c ∈ blanks := by
  cases h with
  | nil hgap => exact fun c hc => hgap c (List.mem_of_mem_head? hc)
  | cons hstart =>
    obtain ⟨c, cs, hcs, hblank⟩ := hstart.exists_blank
    simpa [hcs] using hblank

theorem ends (h : IsAttributes as text) : text.toList.getLast? ≠ some '/' := by
  induction h with
  | @nil gap hgap =>
    intro hlast
    exact (not_special_of_blank (hgap '/' (List.mem_of_getLast? hlast))).2 rfl
  | @cons key start gap value rest quote as hstart hgap hquote hvalue _ ih =>
    have hne : quote ≠ '/' := by
      rintro rfl
      exact absurd hquote (by decide)
    rw [String.toList_append, List.getLast?_append]
    cases hrest : rest.toList.getLast? with
    | none =>
      rw [Option.none_or, String.toList_append, List.getLast?_append, String.toList_singleton]
      simpa using hne
    | some c => simpa [hrest] using ih

theorem isTag (h : IsAttributes as text) {name : String} (hname : IsTag name "") :
    IsTag name text where
  name_ne := hname.name_ne
  plain := hname.plain
  begins := hname.begins
  blank := h.blank
  quoted := h.quoted
  ends := by
    have hends := hname.ends
    have hlast := h.ends
    cases htext : text.toList.getLast? with
    | none => simpa [htext] using hends
    | some c => simpa [htext] using hlast

theorem recovers (h : IsAttributes as text) (hnodup : (as.map Prod.fst).Nodup) {keys : List Bytes}
    (hnew : ∀ a ∈ as, Utf8.encode a.1 ∉ keys) :
    Recovers keys (Utf8.encode text) (as.map encoded) := by
  induction h generalizing keys with
  | nil hgap => exact .blanks hgap.allBlank
  | @cons key start gap value rest quote as hstart hgap hquote hvalue _ ih =>
    rw [List.map_cons, List.nodup_cons] at hnodup
    rw [List.forall_mem_cons] at hnew
    have hlater : ∀ a ∈ as, Utf8.encode a.1 ∉ Utf8.encode key :: keys := by
      intro a ha hmem
      rcases List.mem_cons.mp hmem with heq | hkeys
      · exact hnodup.1 (List.mem_map.mpr ⟨a, ha, Utf8.encode_injective heq⟩)
      · exact hnew.2 a ha hkeys
    obtain ⟨q, hq, hisQuote, habsent⟩ := exists_quote hquote
    have hpiece :=
      Recovers.sound hstart.assigns hnew.1 hgap.allBlank hisQuote (habsent value hvalue)
      (ih hnodup.2 hlater)
    rw [List.map_cons, encoded]
    simpa only [Utf8.encode_append, hq, List.append_assoc, List.cons_append,
      List.nil_append] using hpiece

end IsAttributes

theorem IsTag.attributes_of_recovers {name text : String} (htag : IsTag name text)
    {as : List Attribute} (h : Recovers [] (Utf8.encode text) as) :
    Tag.attributes ⟨Utf8.encode (name ++ text)⟩ = as := by
  rw [htag.tag_attributes, attributesIn_of_recovers h]

theorem IsTag.exists_recovers {name text : String} (htag : IsTag name text) :
    ∃ as : List (String × String), Recovers [] (Utf8.encode text) (as.map encoded) ∧
      (as.map Prod.fst).Nodup := by
  obtain ⟨found, hfound⟩ := Markup.exists_recovers [] (Utf8.encode text)
  have hvalid := Tag.valid_attributes (t := ⟨Utf8.encode (name ++ text)⟩) (Utf8.valid_encode _)
  rw [htag.attributes_of_recovers hfound] at hvalid
  obtain ⟨as, rfl⟩ := exists_encoded hvalid
  have hkeys : (as.map Prod.fst).map Utf8.encode = (as.map encoded).map Attribute.key := by
    simp [encoded]
  have hnodup := hfound.nodup.1
  rw [← hkeys] at hnodup
  have htexts : (as.map Prod.fst).Nodup :=
    List.Pairwise.of_map Utf8.encode (fun _ _ hne heq => hne (congrArg _ heq)) hnodup
  exact ⟨as, hfound, htexts⟩

theorem IsTag.attributes_eq {name text : String} (htag : IsTag name text)
    {as : List (String × String)} (h : IsAttributes as text) (hnodup : (as.map Prod.fst).Nodup) :
    Tag.attributes ⟨Utf8.encode (name ++ text)⟩ = as.map encoded :=
  htag.attributes_of_recovers (h.recovers hnodup (by simp))

theorem isAttributes_marked {as : List (String × String)}
    (h : ∀ a ∈ as, IsAttributeKey a.1 ∧ '"' ∉ a.2.toList) : IsAttributes as (marked as) := by
  have hnone : IsGap "" := by simp [IsGap]
  have hspace : IsGap " " := by simp [IsGap, blanks]
  induction as with
  | nil => exact .nil hnone
  | cons a as ih =>
    obtain ⟨⟨hkey, hvalue⟩, has⟩ := List.forall_mem_cons.mp h
    have hstart : Introduces a.1 (" " ++ a.1 ++ "" ++ "=") :=
      ⟨hkey, " ", "", by decide, hspace, hnone, rfl⟩
    have hcons := IsAttributes.cons hstart hnone (by decide) hvalue (ih has)
    simpa [marked] using hcons

end Markup
end FactoryMethods
