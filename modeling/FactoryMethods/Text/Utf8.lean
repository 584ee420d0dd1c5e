/-! Text as bytes in UTF-8. Decoding accepts exactly the encodings of texts; on any other input the
fault says how many bytes were valid and how long the offending sequence is. -/
namespace FactoryMethods

abbrev Bytes := List UInt8

namespace Utf8

def encode (s : String) : Bytes := s.toByteArray.data.toList

/-- `length` is that of the longest piece which no valid text continues with, and is absent where
the input ends inside a sequence that was valid so far. -/
structure Fault where
  validUpTo : Nat
  length : Option Nat
  deriving DecidableEq, Repr

def Fault.message (f : Fault) : String :=
  match f.length with
  | some n => s!"invalid utf-8 sequence of {n} bytes from index {f.validUpTo}"
  | none => s!"incomplete utf-8 byte sequence from index {f.validUpTo}"

/-- The ranges of the bytes that follow a leading byte; none for a byte that leads no character. -/
def continuation? (lead : UInt8) : Option (List (UInt8 × UInt8)) :=
  if lead ≤ 0x7F then some []
  else if 0xC2 ≤ lead ∧ lead ≤ 0xDF then some [(0x80, 0xBF)]
  else if lead = 0xE0 then some [(0xA0, 0xBF), (0x80, 0xBF)]
  else if lead = 0xED then some [(0x80, 0x9F), (0x80, 0xBF)]
  else if 0xE1 ≤ lead ∧ lead ≤ 0xEF then some [(0x80, 0xBF), (0x80, 0xBF)]
  else if lead = 0xF0 then some [(0x90, 0xBF), (0x80, 0xBF), (0x80, 0xBF)]
  else if 0xF1 ≤ lead ∧ lead ≤ 0xF3 then some [(0x80, 0xBF), (0x80, 0xBF), (0x80, 0xBF)]
  else if lead = 0xF4 then some [(0x80, 0x8F), (0x80, 0xBF), (0x80, 0xBF)]
  else none

/-- Looks for the fault after `valid` good bytes and `seen` bytes of an open character that still
needs a byte of each range in `expected`. -/
def faultFrom (valid seen : Nat) (expected : List (UInt8 × UInt8)) : Bytes → Fault
  | [] => ⟨valid, none⟩
  | b :: rest =>
    match expected with
    | [] =>
      match continuation? b with
      | none => ⟨valid + seen, some 1⟩
      | some ranges => faultFrom (valid + seen) 1 ranges rest
    | (low, high) :: more =>
      if low ≤ b ∧ b ≤ high then faultFrom valid (seen + 1) more rest
      else ⟨valid, some seen⟩

/-- Where bytes that encode no text go wrong. -/
def fault (bytes : Bytes) : Fault := faultFrom 0 0 [] bytes

def decode (bytes : Bytes) : Except Fault String :=
  match String.fromUTF8? ⟨⟨bytes⟩⟩ with
  | some s => .ok s
  | none => .error (fault bytes)

theorem encode_injective {s t : String} (h : encode s = encode t) : s = t := by
  rw [← String.toByteArray_inj]
  exact ByteArray.ext (Array.toList_inj.mp h)

@[simp] theorem encode_append (s t : String) : encode (s ++ t) = encode s ++ encode t := by
  simp [encode, String.toByteArray_append]

theorem decode_eq_ok {bytes : Bytes} {s : String} : decode bytes = .ok s ↔ encode s = bytes := by
  unfold decode String.fromUTF8?
  constructor
  · intro h
    split at h
    · rename_i t ht
      split at ht
      · cases ht; cases h; rfl
      · cases ht
    · cases h
  · rintro rfl
    rw [dif_pos (show ByteArray.IsValidUTF8 ⟨⟨encode s⟩⟩ from s.isValidUTF8)]
    rfl

@[simp] theorem decode_encode (s : String) : decode (encode s) = .ok s := decode_eq_ok.mpr rfl

end Utf8

end FactoryMethods
