import FactoryMethods.Proofs.Markup.Encoding
import FactoryMethods.Proofs.Markup.Lexing
import FactoryMethods.Proofs.Markup.Recovery

/-! Tags in a text. A tag is said by its characters: a name, and attributes behind it in which
quotes are closed. The lexer takes it for a start tag, or for a self-closing one with a slash at its
end, and takes the name behind a slash for the end tag that belongs to it. -/
namespace FactoryMethods
namespace Markup

/-- Characters of which each quote is closed, and no closing bracket stands outside of quotes. -/
inductive Quoted : List Char → Prop
  | nil : Quoted []
  | plain {c : Char} {cs : List Char} (hc : c ∉ ['"', '\'', '>']) : Quoted cs → Quoted (c :: cs)
  | quoted {q : Char} {value cs : List Char} (hq : q ∈ ['"', '\'']) (hvalue : q ∉ value) :
    Quoted cs → Quoted (q :: (value ++ q :: cs))

def blanks : List Char := [' ', '\t', '\r', '\n']

/-- What a start tag may hold: a name, and behind it attributes, if any, after a blank. What the
attributes look like is left open, but for their quotes. -/
structure IsTag (name attributes : String) : Prop where
  name_ne : name ≠ ""
  plain : ∀ c ∈ name.toList, c ∉ blanks ∧ c ∉ ['"', '\'', '>']
  begins : ∀ c ∈ name.toList.head?, c ∉ ['/', '!', '?']
  blank : ∀ c ∈ attributes.toList.head?, c ∈ blanks
  quoted : Quoted attributes.toList
  ends : (name ++ attributes).toList.getLast? ≠ some '/'

def startTag (name attributes : String) : String := "<" ++ (name ++ attributes) ++ ">"

def emptyTag (name attributes : String) : String := "<" ++ (name ++ attributes) ++ "/>"

def endTag (name : String) : String := "</" ++ name ++ ">"

theorem ne_of_mem_encodeChar {c : Char} {specials : List Char} (hc : c ∉ specials)
    {b special : UInt8} (hb : b ∈ String.utf8EncodeChar c) (hascii : special < 0x80)
    (hspecial : Char.ofNat special.toNat ∈ specials) : b ≠ special := by
  rintro rfl
  rw [(Utf8.mem_encodeChar_iff hascii).mp hb] at hc
  exact hc hspecial

theorem unquoted_of_plain {c : Char} (hc : c ∉ ['"', '\'', '>']) :
    ∀ b ∈ String.utf8EncodeChar c, isQuote b = false ∧ b ≠ greater := by
  intro b hb
  have hmark : b ≠ quotationMark := ne_of_mem_encodeChar hc hb (by decide) (by decide)
  have hstroke : b ≠ apostrophe := ne_of_mem_encodeChar hc hb (by decide) (by decide)
  exact ⟨by simp [isQuote, hmark, hstroke], ne_of_mem_encodeChar hc hb (by decide) (by decide)⟩

theorem not_blank_of_not_mem {c : Char} (hc : c ∉ blanks) :
    ∀ b ∈ String.utf8EncodeChar c, isBlank b = false := by
  intro b hb
  have hne {special : UInt8} (hascii : special < 0x80) (h : Char.ofNat special.toNat ∈ blanks) :
      b ≠ special := ne_of_mem_encodeChar hc hb hascii h
  have hspace : b ≠ 0x20 := hne (by decide) (by decide)
  have htab : b ≠ 0x09 := hne (by decide) (by decide)
  have hreturn : b ≠ 0x0D := hne (by decide) (by decide)
  have hline : b ≠ 0x0A := hne (by decide) (by decide)
  simp [isBlank, hspace, htab, hreturn, hline]

theorem exists_blank_of_mem {c : Char} (hc : c ∈ blanks) :
    ∃ b, String.utf8EncodeChar c = [b] ∧ isBlank b = true := by
  simp only [blanks, List.mem_cons, List.not_mem_nil, or_false] at hc
  rcases hc with rfl | rfl | rfl | rfl <;> exact ⟨_, rfl, rfl⟩

theorem Lexer.stays_of_quoted {cs : List Char} (h : Quoted cs) :
    Lexer.Stays none (cs.flatMap String.utf8EncodeChar) none := by
  induction h with
  | nil => exact .nil none
  | @plain c cs hc _ ih =>
    rw [List.flatMap_cons]
    exact (stays_unquoted (unquoted_of_plain hc)).append ih
  | @quoted q value cs hq hvalue _ ih =>
    have habsent {b : UInt8} (hb : b < 0x80) (hne : Char.ofNat b.toNat ∉ value) :
        b ∉ value.flatMap String.utf8EncodeChar := by
      simpa [Utf8.mem_encodeChar_iff hb] using hne
    rw [List.flatMap_cons, List.flatMap_append, List.flatMap_cons]
    simp only [List.mem_cons, List.not_mem_nil, or_false] at hq
    rcases hq with rfl | rfl
    · exact stays_enclosed (q := quotationMark) rfl (habsent (by decide) hvalue) ih
    · exact stays_enclosed (q := apostrophe) rfl (habsent (by decide) hvalue) ih

namespace IsTag

variable {name attributes : String}

theorem isNameByte (h : IsTag name attributes) : ∀ b ∈ Utf8.encode name, Lexer.IsNameByte b := by
  intro b hb
  rw [Utf8.encode_eq_flatMap] at hb
  obtain ⟨c, hc, hb⟩ := List.mem_flatMap.mp hb
  obtain ⟨hblank, hplain⟩ := h.plain c hc
  obtain ⟨hquote, hgreater⟩ := unquoted_of_plain hplain b hb
  exact ⟨not_blank_of_not_mem hblank b hb, hquote, hgreater⟩

theorem exists_first (h : IsTag name attributes) : ∃ b rest, Utf8.encode name = b :: rest ∧
    b ≠ question ∧ b ≠ bang ∧ b ≠ slash := by
  obtain ⟨c, cs, hname⟩ := List.exists_cons_of_ne_nil (mt String.toList_eq_nil_iff.mp h.name_ne)
  obtain ⟨b, rest, hc⟩ := List.exists_cons_of_ne_nil (String.utf8EncodeChar_ne_nil (c := c))
  have hencode : Utf8.encode name = b :: (rest ++ cs.flatMap String.utf8EncodeChar) := by
    rw [Utf8.encode_eq_flatMap, hname, List.flatMap_cons, hc, List.cons_append]
  have hbegins := h.begins c (by simp [hname])
  have hb : b ∈ String.utf8EncodeChar c := by simp [hc]
  exact ⟨b, _, hencode, ne_of_mem_encodeChar hbegins hb (by decide) (by decide),
    ne_of_mem_encodeChar hbegins hb (by decide) (by decide),
    ne_of_mem_encodeChar hbegins hb (by decide) (by decide)⟩

theorem getLast?_ne (h : IsTag name attributes) :
    (Utf8.encode (name ++ attributes)).getLast? ≠ some slash := by
  have hends := h.ends
  rw [Utf8.encode_eq_flatMap]
  rcases (name ++ attributes).toList.eq_nil_or_concat with hnil | ⟨cs, c, hcs⟩
  · simp [hnil]
  · rw [hcs, List.concat_eq_append] at hends ⊢
    rw [List.flatMap_append, List.flatMap_singleton, List.getLast?_append,
      List.getLast?_eq_some_getLast String.utf8EncodeChar_ne_nil, Option.some_or]
    intro hlast
    have hmem : slash ∈ String.utf8EncodeChar c := Option.some.inj hlast ▸ List.getLast_mem _
    rw [(Utf8.mem_encodeChar_iff (by decide)).mp hmem] at hends
    exact hends List.getLast?_concat

theorem isTagContent (h : IsTag name attributes) :
    Lexer.IsTagContent (Utf8.encode (name ++ attributes)) := by
  have hquoted := Lexer.stays_of_quoted h.quoted
  rw [← Utf8.encode_eq_flatMap] at hquoted
  obtain ⟨b, rest, hname, hquestion, hbang, hslash⟩ := h.exists_first
  refine ⟨⟨b, rest ++ Utf8.encode attributes, ?_, hquestion, hbang, hslash, ?_⟩, ?_, h.getLast?_ne⟩
  · rw [Utf8.encode_append, hname, List.cons_append]
  · exact (h.isNameByte b (by simp [hname])).ne_greater
  · rw [Utf8.encode_append]
    exact (Lexer.stays_name h.isNameByte).append hquoted

theorem noneBlank (h : IsTag name attributes) : NoneBlank (Utf8.encode name) :=
  fun b hb => (h.isNameByte b hb).not_blank

theorem isBreak (h : IsTag name attributes) : IsBreak (Utf8.encode attributes) := by
  have hblank := h.blank
  rw [Utf8.encode_eq_flatMap]
  cases hattributes : attributes.toList with
  | nil => simp [IsBreak]
  | cons c cs =>
    obtain ⟨b, hc, hb⟩ := exists_blank_of_mem (hblank c (by simp [hattributes]))
    simpa [IsBreak, hc] using hb

theorem tag_name (h : IsTag name attributes) :
    Tag.name ⟨Utf8.encode (name ++ attributes)⟩ = Utf8.encode name := by
  rw [Utf8.encode_append, Tag.name_append h.noneBlank h.isBreak]

theorem tag_attributes (h : IsTag name attributes) :
    Tag.attributes ⟨Utf8.encode (name ++ attributes)⟩ = attributesIn (Utf8.encode attributes) := by
  rw [Utf8.encode_append, Tag.attributes_append h.noneBlank h.isBreak]

theorem reads_startTag (h : IsTag name attributes) (path : List Bytes) :
    Lexer.Reads ⟨.text, path⟩ (Utf8.encode (startTag name attributes))
      [.opening ⟨Utf8.encode (name ++ attributes)⟩] ⟨.text, Utf8.encode name :: path⟩ := by
  have hopening := h.isTagContent.reads_opening path
  rw [h.tag_name] at hopening
  have hless : Utf8.encode "<" = [less] := rfl
  have hgreater : Utf8.encode ">" = [greater] := rfl
  simpa [startTag, hless, hgreater] using hopening

theorem reads_emptyTag (h : IsTag name attributes) (path : List Bytes) :
    Lexer.Reads ⟨.text, path⟩ (Utf8.encode (emptyTag name attributes))
      [.selfClosing ⟨Utf8.encode (name ++ attributes)⟩] ⟨.text, path⟩ := by
  have hless : Utf8.encode "<" = [less] := rfl
  have hend : Utf8.encode "/>" = [slash, greater] := rfl
  simpa [emptyTag, hless, hend] using h.isTagContent.reads_selfClosing path

theorem reads_endTag (h : IsTag name attributes) (path : List Bytes) :
    Lexer.Reads ⟨.text, Utf8.encode name :: path⟩ (Utf8.encode (endTag name))
      [.closing (Utf8.encode name)] ⟨.text, path⟩ := by
  have hstart : Utf8.encode "</" = [less, slash] := rfl
  have hgreater : Utf8.encode ">" = [greater] := rfl
  simpa [endTag, hstart, hgreater] using Lexer.reads_closing h.isNameByte path

theorem reads_element (h : IsTag name attributes) {content : String} {path : List Bytes}
    {f : Forest}
    (hcontent : Lexer.Reads ⟨.text, Utf8.encode name :: path⟩ (Utf8.encode content) f.events
      ⟨.text, Utf8.encode name :: path⟩) :
    Lexer.Reads ⟨.text, path⟩ (Utf8.encode (startTag name attributes ++ content ++ endTag name))
      (Forest.element ⟨Utf8.encode (name ++ attributes)⟩ f .nil).events ⟨.text, path⟩ := by
  rw [Forest.events, h.tag_name, String.append_assoc, Utf8.encode_append, Utf8.encode_append]
  exact (h.reads_startTag path).append (hcontent.append (h.reads_endTag path))

end IsTag

theorem isTag_of_mem {name : String} (h : name ∈ ["catalogue", "node", "field"]) :
    IsTag name "" := by
  simp only [List.mem_cons, List.not_mem_nil, or_false] at h
  rcases h with rfl | rfl | rfl <;>
    exact ⟨by decide, by simp [blanks], by simp, by simp, .nil, by decide⟩

end Markup
end FactoryMethods
