import FactoryMethods.Proofs.Markup.Forest

/-! Lexing what is written. Bytes that lead the lexer from one state to another can be put one
behind the other, so a document is read piece by piece: names, attributes, tags, elements. -/
namespace FactoryMethods
namespace Markup
namespace Lexer

/-- The bytes bring these events and leave the lexer in this state. -/
def Reads (l : Lexer) (bytes : Bytes) (es : List Event) (l' : Lexer) : Prop :=
  l.feedAll bytes = (es, .ok l')

theorem Reads.nil (l : Lexer) : Reads l [] [] l := rfl

theorem Reads.append {l m n : Lexer} {a b : Bytes} {es fs : List Event} (ha : Reads l a es m)
    (hb : Reads m b fs n) : Reads l (a ++ b) (es ++ fs) n := by
  rw [Reads] at ha hb ⊢
  rw [feedAll_append, ha]
  simp only [hb]

theorem Reads.cons_iff {l n : Lexer} {b : UInt8} {rest : Bytes} {es : List Event} :
    Reads l (b :: rest) es n ↔ ∃ e? m fs, l.feed b = .ok (e?, m) ∧ Reads m rest fs n ∧
      es = e?.toList ++ fs := by
  rw [Reads, feedAll]
  constructor
  · intro h
    split at h
    · cases h
    · exact ⟨none, _, es, ‹_›, h, rfl⟩
    · rename_i e m hfeed
      obtain ⟨rfl, hrest⟩ := Prod.mk.inj h
      exact ⟨some e, m, _, hfeed, Prod.ext rfl hrest, rfl⟩
  · rintro ⟨e?, m, fs, hfeed, hrest, rfl⟩
    rw [Reads] at hrest
    rw [hfeed]
    cases e? <;> simp [hrest]

theorem Reads.split {l n : Lexer} {a b : Bytes} {es : List Event} (h : Reads l (a ++ b) es n) :
    ∃ m fs gs, Reads l a fs m ∧ Reads m b gs n ∧ es = fs ++ gs := by
  induction a generalizing l es with
  | nil => exact ⟨l, [], es, Reads.nil l, h, rfl⟩
  | cons x a ih =>
    obtain ⟨e?, m, fs, hfeed, hrest, rfl⟩ := Reads.cons_iff.mp h
    obtain ⟨k, gs, hs, ha, hb, rfl⟩ := ih hrest
    exact ⟨k, e?.toList ++ gs, hs, Reads.cons_iff.mpr ⟨e?, m, gs, hfeed, ha, rfl⟩, hb, by simp⟩

theorem reads_turn {l m : Lexer} {b : UInt8} (h : l.feed b = .ok (none, m)) : Reads l [b] [] m := by
  rw [Reads, feedAll, h]
  rfl

theorem reads_event {l m : Lexer} {b : UInt8} {e : Event} (h : l.feed b = .ok (some e, m)) :
    Reads l [b] [e] m := by
  rw [Reads, feedAll, h]
  rfl

/-- Inside a tag the bytes end nothing; they turn the open quote into another. -/
def Stays (quote : Option UInt8) (bytes : Bytes) (quote' : Option UInt8) : Prop :=
  ∀ path read, Reads ⟨.tag quote read, path⟩ bytes [] ⟨.tag quote' (bytes.reverse ++ read), path⟩

theorem Stays.nil (quote : Option UInt8) : Stays quote [] quote := fun _ _ => Reads.nil _

theorem Stays.append {q q' q'' : Option UInt8} {a b : Bytes} (ha : Stays q a q')
    (hb : Stays q' b q'') : Stays q (a ++ b) q'' := by
  intro path read
  simpa using (ha path read).append (hb path (a.reverse ++ read))

theorem stays_single (quote : Option UInt8) (b : UInt8) (h : ¬ (b = greater ∧ quote = none)) :
    Stays quote [b] (quoteAfter quote b) := by
  intro path read
  apply reads_turn
  simp only [feed, feedTag, if_neg h]
  rfl

/-- A byte that may stand in a name: no blank, no quote and no closing bracket. -/
structure IsNameByte (b : UInt8) : Prop where
  not_blank : isBlank b = false
  not_quote : isQuote b = false
  ne_greater : b ≠ greater

theorem stays_unquoted {bytes : Bytes} (h : ∀ b ∈ bytes, isQuote b = false ∧ b ≠ greater) :
    Stays none bytes none := by
  induction bytes with
  | nil => exact Stays.nil none
  | cons b bytes ih =>
    obtain ⟨⟨hquote, hgreater⟩, hbytes⟩ := List.forall_mem_cons.mp h
    have hsingle := stays_single none b (by simp [hgreater])
    rw [quoteAfter, hquote] at hsingle
    exact hsingle.append (ih hbytes)

theorem stays_name {name : Bytes} (h : ∀ b ∈ name, IsNameByte b) : Stays none name none :=
  stays_unquoted fun b hb => ⟨(h b hb).not_quote, (h b hb).ne_greater⟩

theorem stays_quoted {q : UInt8} {bytes : Bytes} (h : q ∉ bytes) :
    Stays (some q) bytes (some q) := by
  induction bytes with
  | nil => exact Stays.nil (some q)
  | cons b bytes ih =>
    rw [List.mem_cons, not_or] at h
    obtain ⟨hb, hbytes⟩ := h
    have hsingle := stays_single (some q) b (by simp)
    rw [quoteAfter, if_neg (Ne.symm hb)] at hsingle
    exact hsingle.append (ih hbytes)

theorem stays_enclosed {q : UInt8} (hq : isQuote q = true) {value bytes : Bytes}
    (hvalue : q ∉ value) (hbytes : Stays none bytes none) :
    Stays none (q :: (value ++ q :: bytes)) none := by
  have hgreater : q ≠ greater := by
    rintro rfl
    cases hq
  have hstart := stays_single none q (by simp [hgreater])
  have hstop := stays_single (some q) q (by simp)
  rw [quoteAfter, if_pos hq] at hstart
  rw [quoteAfter, if_pos rfl] at hstop
  exact hstart.append ((stays_quoted hvalue).append (hstop.append hbytes))

theorem reads_start {b : UInt8} {bytes : Bytes} (hbegins : b ≠ question ∧ b ≠ bang ∧ b ≠ greater)
    (h : Stays none (b :: bytes) none) (path : List Bytes) :
    Reads ⟨.text, path⟩ (less :: b :: bytes) [] ⟨.tag none (b :: bytes).reverse, path⟩ := by
  have hless : Reads ⟨.text, path⟩ [less] [] ⟨.markup, path⟩ := reads_turn rfl
  have htag : Reads ⟨.markup, path⟩ (b :: bytes) [] ⟨.tag none (b :: bytes).reverse, path⟩ := by
    have hfeed : feed ⟨.markup, path⟩ b = feed ⟨.tag none [], path⟩ b := by
      simp [feed, feedTag, turn, hbegins]
    have hstays := h path []
    rw [List.append_nil, Reads, feedAll] at hstays
    rw [Reads, feedAll, hfeed, hstays]
  exact hless.append htag

/-- What the lexer takes for the content of a start tag, or of a self-closing one with a slash
behind it: no slash begins or ends it, and a closing bracket stands in it only in quotes. -/
structure IsTagContent (content : Bytes) : Prop where
  begins : ∃ b rest, content = b :: rest ∧ b ≠ question ∧ b ≠ bang ∧ b ≠ slash ∧ b ≠ greater
  stays : Stays none content none
  ends : content.getLast? ≠ some slash

namespace IsTagContent

variable {content : Bytes}

theorem head?_ne (h : IsTagContent content) : content.head? ≠ some slash := by
  obtain ⟨b, rest, rfl, -, -, hslash, -⟩ := h.begins
  simpa using hslash

theorem reads (h : IsTagContent content) (path : List Bytes) :
    Reads ⟨.text, path⟩ (less :: content) [] ⟨.tag none content.reverse, path⟩ := by
  obtain ⟨⟨b, rest, rfl, hquestion, hbang, -, hgreater⟩, hstays, -⟩ := h
  exact reads_start ⟨hquestion, hbang, hgreater⟩ hstays path

theorem reads_opening (h : IsTagContent content) (path : List Bytes) :
    Reads ⟨.text, path⟩ (less :: content ++ [greater]) [.opening ⟨content⟩]
      ⟨.text, Tag.name ⟨content⟩ :: path⟩ := by
  refine (h.reads path).append (reads_event ?_)
  simp [feed, feedTag, finishTag, h.head?_ne, h.ends, openElement, emit]

theorem reads_selfClosing (h : IsTagContent content) (path : List Bytes) :
    Reads ⟨.text, path⟩ (less :: content ++ [slash, greater]) [.selfClosing ⟨content⟩]
      ⟨.text, path⟩ := by
  have hstays : Stays none [slash] none := stays_single _ _ (by decide)
  refine (h.reads path).append ((hstays path _).append (reads_event ?_))
  obtain ⟨b, rest, hcontent, -, -, hslash, -⟩ := h.begins
  have hfirst : (slash :: content.reverse).getLast? ≠ some slash := by
    simpa [hcontent, List.getLast?_cons] using hslash
  simp [feed, feedTag, finishTag, hfirst, emit]

end IsTagContent

theorem trimEnd_name {name : Bytes} (h : ∀ b ∈ name, IsNameByte b) : trimEnd name = name := by
  rw [trimEnd]
  rcases name.eq_nil_or_concat with rfl | ⟨init, b, rfl⟩
  · rfl
  · have hb := (h b (by simp)).not_blank
    simp [hb]

theorem reads_closing {name : Bytes} (h : ∀ b ∈ name, IsNameByte b) (path : List Bytes) :
    Reads ⟨.text, name :: path⟩ (less :: slash :: name ++ [greater]) [.closing name]
      ⟨.text, path⟩ := by
  have hslash : Stays none [slash] none := stays_single _ _ (by decide)
  have hstart := reads_start (by decide) (hslash.append (stays_name h)) (name :: path)
  refine hstart.append (reads_event ?_)
  simp [feed, feedTag, finishTag, trimEnd_name h, closeElement, emit]

end Lexer
end Markup
end FactoryMethods
