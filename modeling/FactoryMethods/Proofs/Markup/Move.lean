import FactoryMethods.Markup.Lexer

/-! The moves of the lexer. A byte continues a tag, turns the lexer to another construct, completes
something ignorable or is at fault; a tag begins behind an opening bracket and nowhere else. -/
namespace FactoryMethods
namespace Markup

/-- The quote that is open in a tag and the bytes of the tag so far, latest first. -/
def Mode.tag? : Mode → Option (Option UInt8 × Bytes)
  | .markup => some (none, [])
  | .tag quote read => some (quote, read)
  | _ => none

namespace Lexer

inductive Move (l : Lexer) (b : UInt8) : Result → Prop
  | tag {quote : Option UInt8} {read : Bytes} (inside : l.mode.tag? = some (quote, read)) :
    Move l b (l.feedTag quote read b)
  | turn {mode : Mode} (outside : mode.tag? = none ∨ mode = .markup ∧ b = less) :
    Move l b (l.turn mode)
  | ignorable : Move l b (l.emit .ignorable)
  /-- Values of attributes are not looked into, so no reference in one is at fault. -/
  | fault {f : Fault} (plain : f.kind ≠ .escape) : Move l b (.error f)

theorem move_declaration (l : Lexer) (b : UInt8) : Move l b (l.feedDeclaration b) := by
  unfold feedDeclaration
  split
  · exact .turn (.inl rfl)
  · split
    · exact .turn (.inl rfl)
    · split
      · exact .turn (.inl rfl)
      · exact .fault (by decide)

theorem feed_move (l : Lexer) (b : UInt8) : Move l b (l.feed b) := by
  obtain ⟨mode, path⟩ := l
  cases mode with
  | text =>
    simp only [feed]
    split
    · exact .turn (.inr ⟨rfl, ‹_›⟩)
    · split <;> exact .turn (.inl rfl)
  | reference =>
    simp only [feed]
    split
    · exact .ignorable
    · split
      · exact .fault (by decide)
      · exact .turn (.inl rfl)
  | markup =>
    simp only [feed]
    split
    · exact .turn (.inl rfl)
    · split
      · exact .turn (.inl rfl)
      · exact .tag rfl
  | declaration => exact move_declaration _ b
  | instruction read =>
    simp only [feed]
    split
    · split
      · exact .fault (by decide)
      · exact .ignorable
    · exact .turn (.inl rfl)
  | comment read =>
    simp only [feed]
    split
    · split
      · exact .ignorable
      · exact .fault (by decide)
    · exact .turn (.inl rfl)
  | cdata read =>
    simp only [feed]
    split
    · split
      · exact .ignorable
      · exact .fault (by decide)
    · exact .turn (.inl rfl)
  | doctype phase read =>
    simp only [feed]
    split
    · exact .turn (.inl rfl)
    · unfold doctypeFault?
      split
      · split
        · exact .fault (by decide)
        · exact .ignorable
      · exact .fault (by decide)
  | tag quote read => exact .tag rfl

end Lexer
end Markup
end FactoryMethods
