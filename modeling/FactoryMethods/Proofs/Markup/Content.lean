import FactoryMethods.Proofs.Markup.Lexing

/-! What an element holds. The lexer looks at the innermost open element only, so what it reads
on its own it reads alike inside of other elements: the same events come, and the elements
outside stay open. -/
namespace FactoryMethods
namespace Markup
namespace Lexer

def inside (l : Lexer) (outer : List Bytes) : Lexer := { l with path := l.path ++ outer }

/-- Where the first result is no fault, the second is the same inside of more open elements. -/
def Lifts (outer : List Bytes) (r r' : Result) : Prop :=
  ∀ e? l, r = .ok (e?, l) → r' = .ok (e?, l.inside outer)

section Lifts

variable (l : Lexer) (outer : List Bytes)

theorem lifts_turn (mode : Mode) : Lifts outer (l.turn mode) ((l.inside outer).turn mode) := by
  rintro _ _ ⟨⟩
  rfl

theorem lifts_emit (e : Event) : Lifts outer (l.emit e) ((l.inside outer).emit e) := by
  rintro _ _ ⟨⟩
  rfl

theorem lifts_error (f : Fault) (r : Result) : Lifts outer (.error f) r := by
  rintro _ _ ⟨⟩

theorem lifts_ite {c : Prop} [Decidable c] {a a' b b' : Result} (ha : Lifts outer a a')
    (hb : Lifts outer b b') : Lifts outer (if c then a else b) (if c then a' else b') := by
  split
  · exact ha
  · exact hb

theorem lifts_ignore (fault? : Option Fault) :
    Lifts outer (l.ignore fault?) ((l.inside outer).ignore fault?) := by
  cases fault? with
  | none => exact lifts_emit l outer _
  | some f => exact lifts_error outer f _

theorem lifts_closeElement (name : Bytes) :
    Lifts outer (l.closeElement name) ((l.inside outer).closeElement name) := by
  obtain ⟨mode, path⟩ := l
  cases path with
  | nil => exact lifts_error outer _ _
  | cons top rest => exact lifts_ite outer (lifts_emit ⟨mode, rest⟩ outer _) (lifts_error outer _ _)

theorem lifts_finishTag (read : Bytes) :
    Lifts outer (l.finishTag read) ((l.inside outer).finishTag read) :=
  lifts_ite outer (lifts_closeElement l outer _)
    (lifts_ite outer (lifts_emit l outer _) (lifts_emit { l with path := _ :: l.path } outer _))

theorem lifts_feedTag (quote : Option UInt8) (read : Bytes) (b : UInt8) :
    Lifts outer (l.feedTag quote read b) ((l.inside outer).feedTag quote read b) :=
  lifts_ite outer (lifts_finishTag l outer read) (lifts_turn l outer _)

theorem lifts_feedDeclaration (b : UInt8) :
    Lifts outer (l.feedDeclaration b) ((l.inside outer).feedDeclaration b) :=
  lifts_ite outer (lifts_turn l outer _) (lifts_ite outer (lifts_turn l outer _)
    (lifts_ite outer (lifts_turn l outer _) (lifts_error outer _ _)))

theorem lifts_feed (b : UInt8) : Lifts outer (l.feed b) ((l.inside outer).feed b) := by
  obtain ⟨mode, path⟩ := l
  have hturn := lifts_turn ⟨mode, path⟩ outer
  have hignore := lifts_ignore ⟨mode, path⟩ outer
  cases mode with
  | text => exact lifts_ite outer (hturn _) (lifts_ite outer (hturn _) (hturn _))
  | reference =>
    exact lifts_ite outer (hignore none) (lifts_ite outer (lifts_error outer _ _) (hturn _))
  | markup =>
    exact lifts_ite outer (hturn _) (lifts_ite outer (hturn _) (lifts_feedTag _ outer none [] b))
  | declaration => exact lifts_feedDeclaration _ outer b
  | instruction read => exact lifts_ite outer (hignore _) (hturn _)
  | comment read => exact lifts_ite outer (hignore _) (hturn _)
  | cdata read => exact lifts_ite outer (hignore _) (hturn _)
  | doctype phase read =>
    simp only [feed, inside]
    cases phase.feed b with
    | some phase => exact hturn _
    | none => exact hignore _
  | tag quote read => exact lifts_feedTag _ outer quote read b

end Lifts

theorem Reads.inside {l m : Lexer} {bytes : Bytes} {es : List Event} (h : Reads l bytes es m)
    (outer : List Bytes) : Reads (l.inside outer) bytes es (m.inside outer) := by
  induction bytes generalizing l es with
  | nil =>
    cases h
    exact Reads.nil _
  | cons b rest ih =>
    obtain ⟨e?, n, fs, hfeed, hrest, rfl⟩ := Reads.cons_iff.mp h
    exact Reads.cons_iff.mpr ⟨e?, n.inside outer, fs, lifts_feed l outer b _ _ hfeed, ih hrest, rfl⟩

end Lexer

/-- A text that an element may hold: read on its own, it is without fault, leaves no construct under
way and closes every element that it opens, and none besides. -/
def IsContent (x : String) : Prop := ∃ es, Lexer.Reads {} (Utf8.encode x) es {}

theorem IsContent.reads {x : String} (h : IsContent x) : ∃ es, es.foldlM Event.path? [] = some [] ∧
    ∀ path, Lexer.Reads ⟨.text, path⟩ (Utf8.encode x) es ⟨.text, path⟩ := by
  obtain ⟨es, hreads⟩ := h
  exact ⟨es, Lexer.path_feedAll hreads, fun path => hreads.inside path⟩

end Markup
end FactoryMethods
