import FactoryMethods.Proofs.Markup.Move
import FactoryMethods.Proofs.Text.Slices

/-! Texts inside markup. Tags, keys and values are cut out of a document at ASCII bytes, so in a
document that is a text they are texts. -/
namespace FactoryMethods
namespace Markup

open Utf8 (Valid)

theorem ascii_of_isBlank {b : UInt8} (h : isBlank b = true) : b < 0x80 := by
  simp only [isBlank, decide_eq_true_eq] at h
  rcases h with rfl | rfl | rfl | rfl <;> decide

theorem ascii_of_isQuote {b : UInt8} (h : isQuote b = true) : b < 0x80 := by
  simp only [isQuote, decide_eq_true_eq] at h
  rcases h with rfl | rfl <;> decide

/-- The rest of a document goes on with the tag that is being read, or is just the end of a text. -/
def Mode.Encoded (m : Mode) (rest : Bytes) : Prop :=
  match m.tag? with
  | some (_, read) => Valid (read.reverse ++ rest)
  | none => ∃ before, Valid (before ++ rest)

def Event.Encoded : Event → Prop
  | .opening tag | .selfClosing tag => Valid tag.content
  | .closing _ | .ignorable => True

theorem Mode.Encoded.suffix {m : Mode} {rest : Bytes} (h : m.Encoded rest) :
    ∃ before, Valid (before ++ rest) := by
  unfold Mode.Encoded at h
  split at h
  · exact ⟨_, h⟩
  · exact h

namespace Lexer

theorem encoded_text {before rest : Bytes} {b : UInt8} (h : Valid (before ++ b :: rest)) :
    Mode.text.Encoded rest :=
  ⟨before ++ [b], by simpa using h⟩

theorem encoded_finishTag {l l' : Lexer} {read rest : Bytes} {e? : Option Event}
    (h : Valid (read.reverse ++ greater :: rest)) (hf : l.finishTag read = .ok (e?, l')) :
    l'.mode.Encoded rest ∧ ∀ e ∈ e?, e.Encoded := by
  have hread : Valid read.reverse := h.left (by decide)
  have htext := encoded_text h
  unfold finishTag at hf
  split at hf
  · unfold closeElement at hf
    split at hf
    · cases hf
    · split at hf
      · cases hf
        exact ⟨htext, by rintro e ⟨⟩; trivial⟩
      · cases hf
  · split at hf
    · rename_i hslash
      cases hf
      refine ⟨htext, ?_⟩
      rintro e ⟨⟩
      obtain ⟨tail, rfl⟩ := List.head?_eq_some_iff.mp hslash
      rw [List.reverse_cons] at hread
      exact hread.left (by decide)
    · cases hf
      refine ⟨htext, ?_⟩
      rintro e ⟨⟩
      exact hread

theorem encoded_feed {l l' : Lexer} {b : UInt8} {rest : Bytes} {e? : Option Event}
    (h : l.mode.Encoded (b :: rest)) (hf : l.feed b = .ok (e?, l')) :
    l'.mode.Encoded rest ∧ ∀ e ∈ e?, e.Encoded := by
  obtain ⟨before, hbefore⟩ := Mode.Encoded.suffix h
  have hmove := feed_move l b
  rw [hf] at hmove
  generalize hr : (Except.ok (e?, l') : Result) = r at hmove
  cases hmove with
  | @tag quote read inside =>
    simp only [Mode.Encoded, inside] at h
    unfold feedTag at hr
    split at hr
    · rename_i hend
      obtain ⟨rfl, -⟩ := hend
      exact encoded_finishTag h hr.symm
    · cases hr
      exact ⟨by simpa [Mode.Encoded, Mode.tag?] using h, by simp⟩
  | turn outside =>
    cases hr
    refine ⟨?_, by simp⟩
    rcases outside with hnone | ⟨rfl, rfl⟩
    · simp only [Mode.Encoded, hnone]
      exact ⟨before ++ [b], by simpa using hbefore⟩
    · exact hbefore.right (by decide)
  | ignorable =>
    cases hr
    exact ⟨encoded_text hbefore, by rintro e ⟨⟩; trivial⟩
  | fault _ => cases hr

theorem encoded_feedAll (l : Lexer) (bytes : Bytes) (h : l.mode.Encoded bytes) :
    ∀ e ∈ (l.feedAll bytes).1, e.Encoded := by
  induction bytes generalizing l with
  | nil => simp
  | cons b rest ih =>
    rw [feedAll]
    split
    · simp
    · rename_i hfeed
      exact ih _ (encoded_feed h hfeed).1
    · rename_i hfeed
      obtain ⟨hmode, he⟩ := encoded_feed h hfeed
      rw [List.forall_mem_cons]
      exact ⟨he _ rfl, ih _ hmode⟩

theorem events_encoded (document : String) :
    ∀ e ∈ (events (Utf8.encode document)).1, e.Encoded := by
  have h := encoded_feedAll {} (Utf8.encode document) ⟨[], Utf8.valid_encode document⟩
  rw [events]
  cases (feedAll {} (Utf8.encode document)).2 <;> exact h

end Lexer

namespace AttributeScan

/-- As for tags: what has been read and the rest fit together to texts. -/
def PhaseEncoded (rest : Bytes) : AttributePhase → Prop
  | .gap => Valid rest
  | .key read => Valid (read.reverse ++ rest)
  | .afterKey key | .beforeValue key => Valid key ∧ Valid rest
  | .value key quote read => Valid key ∧ isQuote quote = true ∧ Valid (read.reverse ++ rest)
  | .skipping => ∃ before, Valid (before ++ rest)

structure Encoded (s : AttributeScan) (rest : Bytes) : Prop where
  phase : PhaseEncoded rest s.phase
  found : ∀ a ∈ s.found, Valid a.key ∧ Valid a.value

theorem encoded_assign {s : AttributeScan} {key rest : Bytes} (hkey : Valid key)
    (hrest : Valid rest) (hfound : ∀ a ∈ s.found, Valid a.key ∧ Valid a.value) :
    (s.assign key).Encoded rest := by
  unfold assign
  split
  · exact ⟨⟨[], hrest⟩, hfound⟩
  · exact ⟨⟨hkey, hrest⟩, hfound⟩

theorem encoded_feed {s : AttributeScan} {b : UInt8} {rest : Bytes} (h : s.Encoded (b :: rest)) :
    (s.feed b).Encoded rest := by
  obtain ⟨phase, keys, found⟩ := s
  obtain ⟨hphase, hfound⟩ := h
  have tail {key : Bytes} (hb : b < 0x80) (hv : Valid (key ++ b :: rest)) : Valid rest :=
    hv.right hb
  have longer {read : Bytes} (hv : Valid (read.reverse ++ b :: rest)) :
      Valid ((b :: read).reverse ++ rest) := by simpa using hv
  cases phase with
  | gap =>
    simp only [feed]
    split
    · exact ⟨Valid.right (a := []) hphase (ascii_of_isBlank ‹_›), hfound⟩
    · exact ⟨hphase, hfound⟩
  | key read =>
    simp only [feed]
    split
    · rename_i hb
      have hascii : b < 0x80 := by subst hb; decide
      exact encoded_assign (Valid.left hphase hascii) (Valid.right hphase hascii) hfound
    · split
      · have hascii := ascii_of_isBlank ‹_›
        exact ⟨⟨Valid.left hphase hascii, Valid.right hphase hascii⟩, hfound⟩
      · exact ⟨longer hphase, hfound⟩
  | afterKey key =>
    obtain ⟨hkey, hrest⟩ := hphase
    simp only [feed]
    split
    · exact ⟨⟨hkey, Valid.right (a := []) hrest (ascii_of_isBlank ‹_›)⟩, hfound⟩
    · split
      · rename_i hb
        have hascii : b < 0x80 := by subst hb; decide
        exact encoded_assign hkey (Valid.right (a := []) hrest hascii) hfound
      · exact ⟨hrest, hfound⟩
  | beforeValue key =>
    obtain ⟨hkey, hrest⟩ := hphase
    simp only [feed]
    split
    · exact ⟨⟨hkey, Valid.right (a := []) hrest (ascii_of_isBlank ‹_›)⟩, hfound⟩
    · split
      · exact ⟨⟨hkey, ‹_›, Valid.right (a := []) hrest (ascii_of_isQuote ‹_›)⟩, hfound⟩
      · exact ⟨⟨[b], hrest⟩, hfound⟩
  | value key quote read =>
    obtain ⟨hkey, hquote, hread⟩ := hphase
    simp only [feed]
    split
    · rename_i hb
      subst hb
      have hascii := ascii_of_isQuote hquote
      refine ⟨Valid.right hread hascii, ?_⟩
      rw [List.forall_mem_cons]
      exact ⟨⟨hkey, Valid.left hread hascii⟩, hfound⟩
    · exact ⟨⟨hkey, hquote, longer hread⟩, hfound⟩
  | skipping =>
    obtain ⟨before, hbefore⟩ := hphase
    simp only [feed]
    split
    · exact ⟨Valid.right hbefore (ascii_of_isBlank ‹_›), hfound⟩
    · exact ⟨⟨before ++ [b], by simpa using hbefore⟩, hfound⟩

theorem encoded_foldl {s : AttributeScan} {bytes : Bytes} (h : s.Encoded bytes) :
    ∀ a ∈ (bytes.foldl feed s).found, Valid a.key ∧ Valid a.value := by
  induction bytes generalizing s with
  | nil => exact h.found
  | cons b rest ih => exact ih (encoded_feed h)

end AttributeScan

namespace Tag

theorem content_cases (t : Tag) :
    t.name = t.content ∧ (t.content.dropWhile fun b => !isBlank b) = [] ∨
    ∃ b rest, isBlank b = true ∧ (t.content.dropWhile fun b => !isBlank b) = b :: rest ∧
      t.content = t.name ++ b :: rest := by
  have hsplit : t.name ++ (t.content.dropWhile fun b => !isBlank b) = t.content :=
    List.takeWhile_append_dropWhile
  cases h : t.content.dropWhile fun b => !isBlank b with
  | nil => exact .inl ⟨by simpa [h] using hsplit, rfl⟩
  | cons b rest =>
    have hb :=
      List.head_dropWhile_not (fun b => !isBlank b) (by rw [h]; exact List.cons_ne_nil b rest)
    simp only [h, List.head_cons, Bool.not_eq_false'] at hb
    exact .inr ⟨b, rest, hb, rfl, by rw [← hsplit, h]⟩

theorem valid_name {t : Tag} (h : Valid t.content) : Valid t.name := by
  rcases t.content_cases with ⟨hname, -⟩ | ⟨b, rest, hb, -, hcontent⟩
  · rwa [hname]
  · rw [hcontent] at h
    exact h.left (ascii_of_isBlank hb)

theorem valid_attributes {t : Tag} (h : Valid t.content) :
    ∀ a ∈ t.attributes, Valid a.key ∧ Valid a.value := by
  have hrest : Valid (t.content.dropWhile fun b => !isBlank b) := by
    rcases t.content_cases with ⟨-, hrest⟩ | ⟨b, rest, hb, hrest, hcontent⟩
    · rw [hrest]
      exact Utf8.valid_nil
    · rw [hcontent] at h
      rw [hrest]
      exact Utf8.valid_cons (ascii_of_isBlank hb) (h.right (ascii_of_isBlank hb))
  have hstart : AttributeScan.Encoded {} (t.content.dropWhile fun b => !isBlank b) :=
    ⟨hrest, by simp⟩
  intro a ha
  rw [attributes, attributesIn, List.mem_reverse] at ha
  exact AttributeScan.encoded_foldl hstart a ha

end Tag
end Markup
end FactoryMethods
