import FactoryMethods.Proofs.Catalogue.Acceptance
import FactoryMethods.Proofs.Markup.Ignorable

/-! Markup put into a document. The outcome of reading is settled by the events about elements and
by what is wrong with the markup. What is ignorable has no part in either, so between two events it
may be put in or left out. -/
namespace FactoryMethods

open Markup

namespace Markup.Lexer

/-- Whether behind the bytes no construct is under way: all that they begin has ended. -/
def Between (bytes : Bytes) : Prop := ∃ es path, Reads {} bytes es ⟨.text, path⟩

/-- What is wrong with the bytes, or with the input if it ends behind them. -/
def fault? (l : Lexer) (bytes : Bytes) : Option Fault :=
  match (l.feedAll bytes).2 with
  | .error f => some f
  | .ok l => l.endFault?

theorem events_append_of_reads {a : Bytes} {es : List Event} {l : Lexer} (h : Reads {} a es l)
    (b : Bytes) : events (a ++ b) = (es ++ (l.feedAll b).1, l.fault? b) := by
  rw [events, feedAll_append, h, fault?]
  cases (l.feedAll b).2 <;> rfl

end Markup.Lexer

namespace Catalogue

/-- Two documents with the same events about elements and the same fault are read alike. -/
theorem parseBytes_congr {d d' : Bytes}
    (hevents : Event.significant (Lexer.events d).1 = Event.significant (Lexer.events d').1)
    (hfault : (Lexer.events d).2 = (Lexer.events d').2) : parseBytes d = parseBytes d' := by
  rw [parseBytes_eq, parseBytes_eq, ← Place.stepAll_significant, hevents, hfault,
    Place.stepAll_significant]

/-- Ignorable markup between two events changes no outcome, a catalogue as little as an error, at
whatever depth it stands and whatever follows. -/
theorem parse_insert {a x b : String} (between : Lexer.Between (Utf8.encode a)) (hx : Ignorable x) :
    parse (a ++ x ++ b) = parse (a ++ b) := by
  obtain ⟨es, path, ha⟩ := between
  obtain ⟨fs, hfs, hreads⟩ := hx.reads path
  have hwith := Lexer.events_append_of_reads (ha.append hreads) (Utf8.encode b)
  have hwithout := Lexer.events_append_of_reads ha (Utf8.encode b)
  simp only [parse, Utf8.encode_append]
  apply parseBytes_congr
  · rw [hwith, hwithout]
    simp [hfs]
  · rw [hwith, hwithout]

/-- A comment that holds tags, in an element that is passed over: before its end tag and before the
end tag of another. -/
theorem parse_insert_in_field :
    let a := "<catalogue><node name=\"A\"><field name=\"b\" type=\"C\"><x>"
    let x := "<!--> </x></field> & -->"
    Lexer.Between (Utf8.encode a) ∧ Ignorable x ∧
      parse (a ++ x ++ "</x></field></node></catalogue>") = .ok ⟨[⟨"A", [⟨"b", "C"⟩]⟩]⟩ ∧
      parse (a ++ x ++ "</field>") = .error (.markup (.wrongEnd "x" "field")) := by
  intro a x
  have hlexer : (Lexer.feedAll {} (Utf8.encode a)).2 = .ok ⟨.text,
    [Utf8.encode "x", Utf8.encode "field", Utf8.encode "node", Utf8.encode "catalogue"]⟩ := by rfl
  have hbetween : Lexer.Between (Utf8.encode a) := ⟨_, _, Prod.ext rfl hlexer⟩
  have hbody : ¬ "-->".toList <:+: "> </x></field> & ".toList := by decide +kernel
  have hx : Ignorable x := .comment hbody
  refine ⟨hbetween, hx, ?_, ?_⟩
  · rw [parse_insert hbetween hx]
    rfl
  · rw [parse_insert hbetween hx]
    rfl

end Catalogue
end FactoryMethods
