import FactoryMethods.Markup.Lexer

/-! Events on demand. A lexer that stands before its input is asked for one event at a time. Every
event takes some of the input, so what is left gets shorter; where the input has ended it has
ended for good. -/
namespace FactoryMethods
namespace Markup

/-- A lexer and the input that it has not read. -/
structure Cursor where
  lexer : Lexer := {}
  rest : Bytes
  deriving DecidableEq, Repr

/-- Reads on to the next event; there is none where the input ends. -/
def Lexer.pull (l : Lexer) : Bytes → Except Fault (Option Event × Cursor)
  | [] =>
    match l.endFault? with
    | some f => .error f
    | none => .ok (none, ⟨l, []⟩)
  | b :: rest =>
    match l.feed b with
    | .error f => .error f
    | .ok (none, l) => l.pull rest
    | .ok (some e, l) => .ok (some e, ⟨l, rest⟩)

namespace Cursor

def next (c : Cursor) : Except Fault (Option Event × Cursor) := c.lexer.pull c.rest

end Cursor

namespace Lexer

variable {l : Lexer} {bytes : Bytes} {c : Cursor} {e : Event}

theorem exists_read_of_pull (h : l.pull bytes = .ok (some e, c)) :
    ∃ read, read ≠ [] ∧ bytes = read ++ c.rest := by
  induction bytes generalizing l with
  | nil =>
    rw [pull] at h
    split at h <;> cases h
  | cons b rest ih =>
    rw [pull] at h
    split at h
    · cases h
    · obtain ⟨read, -, rfl⟩ := ih h
      exact ⟨b :: read, List.cons_ne_nil b read, rfl⟩
    · cases h
      exact ⟨[b], List.cons_ne_nil b [], rfl⟩

theorem end_of_pull (h : l.pull bytes = .ok (none, c)) :
    c.rest = [] ∧ c.lexer.endFault? = none := by
  induction bytes generalizing l with
  | nil =>
    rw [pull] at h
    split at h
    · cases h
    · rename_i hend
      cases h
      exact ⟨rfl, hend⟩
  | cons b rest ih =>
    rw [pull] at h
    split at h
    · cases h
    · exact ih h
    · cases h

end Lexer

namespace Cursor

variable {c c' : Cursor} {e : Event}

theorem exists_read_of_next (h : c.next = .ok (some e, c')) :
    ∃ read, read ≠ [] ∧ c.rest = read ++ c'.rest :=
  Lexer.exists_read_of_pull h

theorem length_lt_of_next (h : c.next = .ok (some e, c')) : c'.rest.length < c.rest.length := by
  obtain ⟨read, hread, hrest⟩ := exists_read_of_next h
  rw [hrest, List.length_append]
  exact Nat.lt_add_of_pos_left (List.length_pos_iff.mpr hread)

theorem next_of_next_none (h : c.next = .ok (none, c')) :
    c'.rest = [] ∧ c'.next = .ok (none, c') := by
  obtain ⟨lexer, rest⟩ := c'
  obtain ⟨rfl, hend⟩ := Lexer.end_of_pull h
  refine ⟨rfl, ?_⟩
  rw [next, Lexer.pull, hend]

end Cursor
end Markup
end FactoryMethods
