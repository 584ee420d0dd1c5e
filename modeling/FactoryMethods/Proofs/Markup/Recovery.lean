import Mathlib.Data.List.TakeWhile
import FactoryMethods.Markup.Attribute

/-! What is recovered from the text of attributes. That text is taken piece by piece: an
attribute is a new key with a value in quotes, and any other piece, a key alone, a value without
quotes or a key once more, ends at the next blank and gives nothing. Every text is such a
sequence of pieces, whether its attributes are well formed or not, and reading finds exactly the
attributes among them. -/
namespace FactoryMethods
namespace Markup

def AllBlank (bytes : Bytes) : Prop := ∀ b ∈ bytes, isBlank b = true

def NoneBlank (bytes : Bytes) : Prop := ∀ b ∈ bytes, isBlank b = false

/-- What may stand in a key behind its first byte, which may be an equals sign. -/
def IsKeyByte (b : UInt8) : Prop := isBlank b = false ∧ b ≠ equals

/-- A key runs from a byte that is not blank to the next blank or equals sign. -/
def IsKey (key : Bytes) : Prop :=
  ∃ b rest, key = b :: rest ∧ isBlank b = false ∧ ∀ c ∈ rest, IsKeyByte c

/-- The text is at its end, or a blank comes next. -/
def IsBreak (rest : Bytes) : Prop := ∀ b ∈ rest.head?, isBlank b = true

/-- A key and an equals sign behind it, with blanks before either. -/
structure Assigns (key start : Bytes) : Prop where
  isKey : IsKey key
  eq : ∃ lead before, AllBlank lead ∧ AllBlank before ∧
    start = lead ++ (key ++ (before ++ [equals]))

/-- The attributes recovered from a text, given the keys that had an equals sign before it. -/
inductive Recovers : List Bytes → Bytes → List Attribute → Prop
  | blanks {keys : List Bytes} {text : Bytes} : AllBlank text → Recovers keys text []
  | sound {keys : List Bytes} {key start blanks value rest : Bytes} {quote : UInt8}
      {found : List Attribute} : Assigns key start → key ∉ keys → AllBlank blanks →
      isQuote quote = true → quote ∉ value → Recovers (key :: keys) rest found →
      Recovers keys (start ++ (blanks ++ quote :: (value ++ quote :: rest))) (⟨key, value⟩ :: found)
  /-- A key with no equals sign behind it. -/
  | bare {keys : List Bytes} {lead key rest : Bytes} {found : List Attribute} : AllBlank lead →
      IsKey key → IsBreak rest → (rest.dropWhile isBlank).head? ≠ some equals →
      Recovers keys rest found → Recovers keys (lead ++ (key ++ rest)) found
  /-- A value without quotes; it may be missing at the end of the text. -/
  | unquoted {keys : List Bytes} {key start blanks value rest : Bytes} {found : List Attribute} :
      Assigns key start → key ∉ keys → AllBlank blanks → NoneBlank value →
      (∀ b ∈ value.head?, isQuote b = false) → (value = [] → rest = []) → IsBreak rest →
      Recovers (key :: keys) rest found → Recovers keys (start ++ (blanks ++ (value ++ rest))) found
  /-- A value with no quote to end it. -/
  | unclosed {keys : List Bytes} {key start blanks value : Bytes} {quote : UInt8} :
      Assigns key start → key ∉ keys → AllBlank blanks → isQuote quote = true → quote ∉ value →
      Recovers keys (start ++ (blanks ++ quote :: value)) []
  /-- A key seen before, with all that stands between its equals sign and the next blank. -/
  | repeated {keys : List Bytes} {key start passed rest : Bytes} {found : List Attribute} :
      Assigns key start → key ∈ keys → NoneBlank passed → IsBreak rest → Recovers keys rest found →
      Recovers keys (start ++ (passed ++ rest)) found

theorem not_blank_of_isQuote {b : UInt8} (h : isQuote b = true) : isBlank b = false := by
  simp only [isQuote, decide_eq_true_eq] at h
  rcases h with rfl | rfl <;> decide

theorem IsBreak.cases {rest : Bytes} (h : IsBreak rest) :
    rest = [] ∨ ∃ b tail, rest = b :: tail ∧ isBlank b = true := by
  cases rest with
  | nil => exact .inl rfl
  | cons b tail => exact .inr ⟨b, tail, rfl, h b rfl⟩

namespace AttributeScan

variable (keys : List Bytes) (found : List Attribute)

theorem foldl_stays {s : AttributeScan} {bytes : Bytes} (h : ∀ b ∈ bytes, s.feed b = s) :
    bytes.foldl feed s = s := by
  induction bytes with
  | nil => rfl
  | cons b bytes ih =>
    obtain ⟨hb, hbytes⟩ := List.forall_mem_cons.mp h
    rw [List.foldl_cons, hb, ih hbytes]

theorem foldl_gap {bytes : Bytes} (h : AllBlank bytes) :
    bytes.foldl feed ⟨.gap, keys, found⟩ = ⟨.gap, keys, found⟩ :=
  foldl_stays fun b hb => by simp [feed, h b hb]

theorem foldl_afterKey {bytes : Bytes} (h : AllBlank bytes) (key : Bytes) :
    bytes.foldl feed ⟨.afterKey key, keys, found⟩ = ⟨.afterKey key, keys, found⟩ :=
  foldl_stays fun b hb => by simp [feed, h b hb]

theorem foldl_beforeValue {bytes : Bytes} (h : AllBlank bytes) (key : Bytes) :
    bytes.foldl feed ⟨.beforeValue key, keys, found⟩ = ⟨.beforeValue key, keys, found⟩ :=
  foldl_stays fun b hb => by simp [feed, h b hb]

theorem foldl_skipping {bytes : Bytes} (h : NoneBlank bytes) :
    bytes.foldl feed ⟨.skipping, keys, found⟩ = ⟨.skipping, keys, found⟩ :=
  foldl_stays fun b hb => by simp [feed, h b hb]

theorem foldl_key {bytes : Bytes} (h : ∀ b ∈ bytes, IsKeyByte b) (read : Bytes) :
    bytes.foldl feed ⟨.key read, keys, found⟩ = ⟨.key (bytes.reverse ++ read), keys, found⟩ := by
  induction bytes generalizing read with
  | nil => rfl
  | cons b bytes ih =>
    obtain ⟨⟨hblank, hequals⟩, hbytes⟩ := List.forall_mem_cons.mp h
    simp [feed, hblank, hequals, ih hbytes]

theorem foldl_value {quote : UInt8} {value : Bytes} (h : quote ∉ value) (key read : Bytes) :
    value.foldl feed ⟨.value key quote read, keys, found⟩ =
      ⟨.value key quote (value.reverse ++ read), keys, found⟩ := by
  induction value generalizing read with
  | nil => rfl
  | cons b value ih =>
    rw [List.mem_cons, not_or] at h
    obtain ⟨hb, hvalue⟩ := h
    simp [feed, Ne.symm hb, ih hvalue]

theorem found_foldl_skipping {rest : Bytes} (h : IsBreak rest) :
    (rest.foldl feed ⟨.skipping, keys, found⟩).found =
      (rest.foldl feed ⟨.gap, keys, found⟩).found := by
  rcases h.cases with rfl | ⟨b, tail, rfl, hb⟩
  · rfl
  · simp [feed, hb]

theorem foldl_start {lead key : Bytes} (hlead : AllBlank lead) (hkey : IsKey key) :
    (lead ++ key).foldl feed ⟨.gap, keys, found⟩ = ⟨.key key.reverse, keys, found⟩ := by
  obtain ⟨b, rest, rfl, hb, hrest⟩ := hkey
  have hfirst : feed ⟨.gap, keys, found⟩ b = ⟨.key [b], keys, found⟩ := by simp [feed, hb]
  rw [List.foldl_append, foldl_gap keys found hlead, List.foldl_cons, hfirst,
    foldl_key keys found hrest, List.reverse_cons]

theorem found_foldl_key {rest : Bytes} (h : IsBreak rest)
    (hequals : (rest.dropWhile isBlank).head? ≠ some equals) (read : Bytes) :
    (rest.foldl feed ⟨.key read, keys, found⟩).found =
      (rest.foldl feed ⟨.gap, keys, found⟩).found := by
  rcases h.cases with rfl | ⟨b, tail, rfl, hb⟩
  · rfl
  · have hne : b ≠ equals := by
      rintro rfl
      cases hb
    have hkey : feed ⟨.key read, keys, found⟩ b = ⟨.afterKey read.reverse, keys, found⟩ := by
      simp [feed, hb, hne]
    have hgap : feed ⟨.gap, keys, found⟩ b = ⟨.gap, keys, found⟩ := by simp [feed, hb]
    rw [List.dropWhile_cons_of_pos hb] at hequals
    rw [List.foldl_cons, List.foldl_cons, hkey, hgap]
    have hsplit : tail.takeWhile isBlank ++ tail.dropWhile isBlank = tail :=
      List.takeWhile_append_dropWhile
    have hblank : AllBlank (tail.takeWhile isBlank) := fun b hb => List.mem_takeWhile_imp hb
    rw [← hsplit, List.foldl_append, List.foldl_append, foldl_afterKey keys found hblank,
      foldl_gap keys found hblank]
    cases hnext : tail.dropWhile isBlank with
    | nil => rfl
    | cons c after =>
      have hc := List.head_dropWhile_not isBlank (l := tail) (by simp [hnext])
      simp only [hnext, List.head_cons] at hc
      have hequals' : c ≠ equals := by simpa [hnext] using hequals
      simp [feed, hc, hequals']

theorem foldl_assigns {key start : Bytes} (h : Assigns key start) :
    start.foldl feed ⟨.gap, keys, found⟩ =
      if key ∈ keys then ⟨.skipping, keys, found⟩ else ⟨.beforeValue key, key :: keys, found⟩ := by
  obtain ⟨lead, before, hlead, hbefore, rfl⟩ := h.eq
  rw [← List.append_assoc, List.foldl_append, foldl_start keys found hlead h.isKey]
  cases before with
  | nil => simp [feed, assign]
  | cons b before =>
    obtain ⟨hb, hbefore⟩ := List.forall_mem_cons.mp hbefore
    have hne : b ≠ equals := by
      rintro rfl
      cases hb
    have hkey : feed ⟨.key key.reverse, keys, found⟩ b = ⟨.afterKey key, keys, found⟩ := by
      simp [feed, hb, hne]
    have hblank : isBlank equals = false := rfl
    rw [List.cons_append, List.foldl_cons, hkey, List.foldl_append,
      foldl_afterKey keys found hbefore]
    simp [feed, assign, hblank]

theorem foldl_assigns_of_not_mem {key start : Bytes} (h : Assigns key start) (hnew : key ∉ keys) :
    start.foldl feed ⟨.gap, keys, found⟩ = ⟨.beforeValue key, key :: keys, found⟩ := by
  rw [foldl_assigns keys found h, if_neg hnew]

theorem foldl_opens {key start blanks : Bytes} (hstart : Assigns key start) (hnew : key ∉ keys)
    (hblank : AllBlank blanks) {quote : UInt8} (hquote : isQuote quote = true) (rest : Bytes) :
    (start ++ (blanks ++ quote :: rest)).foldl feed ⟨.gap, keys, found⟩ =
      rest.foldl feed ⟨.value key quote [], key :: keys, found⟩ := by
  have hopens : feed ⟨.beforeValue key, key :: keys, found⟩ quote =
      ⟨.value key quote [], key :: keys, found⟩ := by
    simp [feed, hquote, not_blank_of_isQuote hquote]
  rw [List.foldl_append, foldl_assigns_of_not_mem keys found hstart hnew, List.foldl_append,
    foldl_beforeValue (key :: keys) found hblank, List.foldl_cons, hopens]

theorem foldl_of_recovers {text : Bytes} {as : List Attribute} (h : Recovers keys text as) :
    (text.foldl feed ⟨.gap, keys, found⟩).found = as.reverse ++ found := by
  induction h generalizing found with
  | @blanks keys text hblank =>
    rw [foldl_gap keys found hblank]
    rfl
  | @sound keys key start blanks value rest quote as hstart hnew hblank hquote hvalue _ ih =>
    rw [foldl_opens keys found hstart hnew hblank hquote, List.foldl_append,
      foldl_value (key :: keys) found hvalue, List.foldl_cons]
    simp [feed, ih]
  | @bare keys lead key rest as hlead hkey hbreak hequals _ ih =>
    rw [← List.append_assoc, List.foldl_append, foldl_start keys found hlead hkey,
      found_foldl_key keys found hbreak hequals, ih]
  | @unquoted keys key start blanks value rest as hstart hnew hblank hvalue hquote hend hbreak
      _ ih =>
    rw [List.foldl_append, foldl_assigns_of_not_mem keys found hstart hnew, List.foldl_append,
      foldl_beforeValue (key :: keys) found hblank]
    cases value with
    | nil =>
      cases hend rfl
      exact ih found
    | cons b value =>
      obtain ⟨hb, hvalue⟩ := List.forall_mem_cons.mp hvalue
      have hskips : feed ⟨.beforeValue key, key :: keys, found⟩ b =
          ⟨.skipping, key :: keys, found⟩ := by
        simp [feed, hb, hquote b rfl]
      rw [List.cons_append, List.foldl_cons, hskips, List.foldl_append,
        foldl_skipping (key :: keys) found hvalue,
        found_foldl_skipping (key :: keys) found hbreak, ih]
  | @unclosed keys key start blanks value quote hstart hnew hblank hquote hvalue =>
    rw [foldl_opens keys found hstart hnew hblank hquote, foldl_value (key :: keys) found hvalue]
    rfl
  | @repeated keys key start passed rest as hstart hold hpassed hbreak _ ih =>
    rw [List.foldl_append, foldl_assigns keys found hstart, if_pos hold, List.foldl_append,
      foldl_skipping keys found hpassed, found_foldl_skipping keys found hbreak, ih]

end AttributeScan

theorem attributesIn_of_recovers {text : Bytes} {as : List Attribute} (h : Recovers [] text as) :
    attributesIn text = as := by
  rw [attributesIn, AttributeScan.foldl_of_recovers [] [] h]
  simp

theorem exists_span (p : UInt8 → Bool) (bytes : Bytes) : ∃ before rest, bytes = before ++ rest ∧
    (∀ b ∈ before, p b = true) ∧ ∀ b ∈ rest.head?, p b = false := by
  refine ⟨bytes.takeWhile p, bytes.dropWhile p, List.takeWhile_append_dropWhile.symm,
    fun b hb => List.mem_takeWhile_imp hb, fun b hb => ?_⟩
  have hhead := List.head?_dropWhile_not p bytes
  rw [Option.mem_def.mp hb] at hhead
  exact hhead

theorem exists_break (bytes : Bytes) : ∃ word rest, bytes = word ++ rest ∧ NoneBlank word ∧
    IsBreak rest := by
  obtain ⟨word, rest, rfl, hword, hrest⟩ := exists_span (fun b => !isBlank b) bytes
  exact ⟨word, rest, rfl, fun b hb => by simpa using hword b hb,
    fun b hb => by simpa using hrest b hb⟩

theorem exists_key (bytes : Bytes) : ∃ word rest, bytes = word ++ rest ∧ (∀ b ∈ word, IsKeyByte b) ∧
    ∀ b ∈ rest.head?, isBlank b = true ∨ b = equals := by
  obtain ⟨word, rest, rfl, hword, hrest⟩ := exists_span (fun b => !isBlank b && b ≠ equals) bytes
  refine ⟨word, rest, rfl, fun b hb => by simpa [IsKeyByte] using hword b hb, fun b hb => ?_⟩
  have hb := hrest b hb
  by_cases hblank : isBlank b = true
  · exact .inl hblank
  · exact .inr (by simpa [hblank] using hb)

theorem IsKey.length_pos {key : Bytes} (h : IsKey key) : 0 < key.length := by
  obtain ⟨b, rest, rfl, -, -⟩ := h
  exact Nat.succ_pos _

theorem Assigns.length_pos {key start : Bytes} (h : Assigns key start) : 0 < start.length := by
  obtain ⟨lead, before, -, -, rfl⟩ := h.eq
  simp only [List.length_append, List.length_singleton]
  omega

theorem exists_first (text : Bytes) : AllBlank text ∨
    (∃ key start rest, Assigns key start ∧ text = start ++ rest) ∨
    ∃ lead key rest, AllBlank lead ∧ IsKey key ∧ IsBreak rest ∧
      (rest.dropWhile isBlank).head? ≠ some equals ∧ text = lead ++ (key ++ rest) := by
  obtain ⟨lead, next, rfl, hlead, hnext⟩ := exists_span isBlank text
  cases next with
  | nil =>
    rw [List.append_nil]
    exact .inl hlead
  | cons c next =>
    obtain ⟨word, behind, rfl, hword, hbehind⟩ := exists_key next
    have hkey : IsKey (c :: word) := ⟨c, word, rfl, hnext c rfl, hword⟩
    obtain ⟨before, last, rfl, hbefore, hlast⟩ := exists_span isBlank behind
    have hdropped : (before ++ last).dropWhile isBlank = last := by
      rw [List.dropWhile_append_of_pos hbefore, List.dropWhile_eq_self_iff]
      intro hlength
      simpa using hlast _ (List.head?_eq_getElem? ▸ List.getElem?_eq_getElem hlength)
    by_cases hequals : last.head? = some equals
    · obtain ⟨rest, rfl⟩ := List.head?_eq_some_iff.mp hequals
      have hstart : Assigns (c :: word) (lead ++ (c :: word ++ (before ++ [equals]))) :=
        ⟨hkey, lead, before, hlead, hbefore, rfl⟩
      exact .inr (.inl ⟨_, _, rest, hstart, by simp⟩)
    · have hbreak : IsBreak (before ++ last) := by
        intro b hb
        refine (hbehind b hb).resolve_right ?_
        rintro rfl
        cases before with
        | nil => exact hequals hb
        | cons e before =>
          obtain rfl : e = equals := by simpa using hb
          cases hbefore equals List.mem_cons_self
      refine .inr (.inr ⟨lead, c :: word, before ++ last, hlead, hkey, hbreak, ?_, by simp⟩)
      rwa [hdropped]

section Step

variable {n : Nat} (ih : ∀ rest : Bytes, rest.length < n → ∀ keys, ∃ as, Recovers keys rest as)
  {keys : List Bytes} {key start : Bytes}

include ih

theorem exists_recovers_of_new (hstart : Assigns key start) (hnew : key ∉ keys) {text : Bytes}
    (hlength : text.length < n) : ∃ as, Recovers keys (start ++ text) as := by
  obtain ⟨blanks, next, rfl, hblank, hnext⟩ := exists_span isBlank text
  rw [List.length_append] at hlength
  cases next with
  | nil =>
    have hend : Recovers (key :: keys) [] [] := .blanks (List.forall_mem_nil _)
    exact ⟨[], .unquoted hstart hnew hblank (List.forall_mem_nil _) (by simp) (fun _ => rfl)
      (by simp [IsBreak]) hend⟩
  | cons q next =>
    rw [List.length_cons] at hlength
    by_cases hquote : isQuote q = true
    · by_cases hclosed : q ∈ next
      · obtain ⟨value, rest, rfl, hvalue⟩ := List.eq_append_cons_of_mem hclosed
        rw [List.length_append, List.length_cons] at hlength
        obtain ⟨as, has⟩ := ih rest (by omega) (key :: keys)
        exact ⟨_, .sound hstart hnew hblank hquote hvalue has⟩
      · exact ⟨[], .unclosed hstart hnew hblank hquote hclosed⟩
    · obtain ⟨value, rest, hvalue, hword, hbreak⟩ := exists_break (q :: next)
      have hq : isBlank q = false := hnext q rfl
      cases value with
      | nil =>
        have hrest : isBlank q = true := hbreak q (by rw [← List.nil_append rest, ← hvalue]; rfl)
        rw [hq] at hrest
        cases hrest
      | cons b value =>
        rw [List.cons_append, List.cons.injEq] at hvalue
        obtain ⟨rfl, rfl⟩ := hvalue
        rw [List.length_append] at hlength
        obtain ⟨as, has⟩ := ih rest (by omega) (key :: keys)
        have hfirst : ∀ b ∈ (q :: value).head?, isQuote b = false := by
          rintro b ⟨⟩
          simpa using hquote
        exact ⟨as, .unquoted hstart hnew hblank hword hfirst (by simp) hbreak has⟩

theorem exists_recovers_of_old (hstart : Assigns key start) (hold : key ∈ keys) {text : Bytes}
    (hlength : text.length < n) : ∃ as, Recovers keys (start ++ text) as := by
  obtain ⟨passed, rest, rfl, hpassed, hbreak⟩ := exists_break text
  rw [List.length_append] at hlength
  obtain ⟨as, has⟩ := ih rest (by omega) keys
  exact ⟨as, .repeated hstart hold hpassed hbreak has⟩

end Step

/-- Every text is a sequence of pieces. Induction on its length: the first piece is taken
from its start. -/
theorem exists_recovers (keys : List Bytes) (text : Bytes) : ∃ as, Recovers keys text as := by
  induction hn : text.length using Nat.strong_induction_on generalizing keys text with
  | _ n ih =>
    have ih : ∀ rest : Bytes, rest.length < n → ∀ keys, ∃ as, Recovers keys rest as :=
      fun rest hrest keys => ih rest.length hrest keys rest rfl
    rcases exists_first text with hblank | ⟨key, start, rest, hstart, rfl⟩ |
      ⟨lead, key, rest, hlead, hkey, hbreak, hequals, rfl⟩
    · exact ⟨[], .blanks hblank⟩
    · have hpos := hstart.length_pos
      rw [List.length_append] at hn
      by_cases hold : key ∈ keys
      · exact exists_recovers_of_old ih hstart hold (by omega)
      · exact exists_recovers_of_new ih hstart hold (by omega)
    · have hpos := hkey.length_pos
      simp only [List.length_append] at hn
      obtain ⟨as, has⟩ := ih rest (by omega) keys
      exact ⟨as, .bare hlead hkey hbreak hequals has⟩

theorem Recovers.nodup {keys : List Bytes} {text : Bytes} {as : List Attribute}
    (h : Recovers keys text as) : (as.map Attribute.key).Nodup ∧ ∀ a ∈ as, a.key ∉ keys := by
  induction h with
  | blanks _ => exact ⟨List.nodup_nil, by simp⟩
  | sound _ hnew _ _ _ _ ih =>
    obtain ⟨hnodup, hkeys⟩ := ih
    rw [List.map_cons, List.nodup_cons, List.forall_mem_cons]
    refine ⟨⟨fun hmem => ?_, hnodup⟩, hnew,
      fun a ha hmem => hkeys a ha (List.mem_cons_of_mem _ hmem)⟩
    obtain ⟨a, ha, hkey⟩ := List.mem_map.mp hmem
    exact hkeys a ha (hkey ▸ List.mem_cons_self)
  | bare _ _ _ _ _ ih => exact ih
  | unquoted _ _ _ _ _ _ _ _ ih =>
    exact ⟨ih.1, fun a ha hmem => ih.2 a ha (List.mem_cons_of_mem _ hmem)⟩
  | unclosed _ _ _ _ _ => exact ⟨List.nodup_nil, by simp⟩
  | repeated _ _ _ _ _ ih => exact ih

namespace Tag

variable {name rest : Bytes}

theorem name_append (hname : NoneBlank name) (hrest : IsBreak rest) :
    Tag.name ⟨name ++ rest⟩ = name := by
  have hblank : ∀ b ∈ name, (!isBlank b) = true := fun b hb => by simp [hname b hb]
  rw [Tag.name, List.takeWhile_append_of_pos hblank]
  rcases hrest.cases with rfl | ⟨b, tail, rfl, hb⟩
  · simp
  · simp [hb]

theorem attributes_append (hname : NoneBlank name) (hrest : IsBreak rest) :
    Tag.attributes ⟨name ++ rest⟩ = attributesIn rest := by
  have hblank : ∀ b ∈ name, (!isBlank b) = true := fun b hb => by simp [hname b hb]
  rw [Tag.attributes, List.dropWhile_append_of_pos hblank]
  rcases hrest.cases with rfl | ⟨b, tail, rfl, hb⟩
  · rfl
  · simp [hb]

end Tag

end Markup
end FactoryMethods
