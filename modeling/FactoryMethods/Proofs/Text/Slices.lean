import FactoryMethods.Text.Utf8

/-! Slices of texts. In the bytes of a text, an ASCII byte is a whole character, so what stands
before it and what stands after it are texts again. -/
namespace FactoryMethods
namespace Utf8

/-- Whether bytes encode a text. -/
def Valid (bytes : Bytes) : Prop := ∃ s, encode s = bytes

theorem encode_eq_flatMap (s : String) : encode s = s.toList.flatMap String.utf8EncodeChar := by
  unfold encode
  rw [← String.utf8Encode_toList, List.utf8Encode, List.toList_data_toByteArray]

theorem valid_flatMap (cs : List Char) : Valid (cs.flatMap String.utf8EncodeChar) :=
  ⟨String.ofList cs, by simp [encode_eq_flatMap]⟩

theorem valid_encode (s : String) : Valid (encode s) := ⟨s, rfl⟩

theorem valid_nil : Valid [] := valid_flatMap []

theorem Valid.append {a b : Bytes} (ha : Valid a) (hb : Valid b) : Valid (a ++ b) := by
  obtain ⟨s, rfl⟩ := ha
  obtain ⟨t, rfl⟩ := hb
  exact ⟨s ++ t, encode_append s t⟩

theorem encodeChar_ofNat {b : UInt8} (hb : b < 0x80) :
    String.utf8EncodeChar (Char.ofNat b.toNat) = [b] := by
  have hlt : b.toNat < 128 := hb
  have hval : (Char.ofNat b.toNat).val.toNat = b.toNat := by
    have hchar : b.toNat.isValidChar := .inl (by omega)
    rw [Char.ofNat, dif_pos hchar]
    rfl
  simp [String.utf8EncodeChar, hval]
  omega

theorem valid_cons {b : UInt8} {bytes : Bytes} (hb : b < 0x80) (h : Valid bytes) :
    Valid (b :: bytes) := by
  have hsingle : Valid [b] := by
    simpa [encodeChar_ofNat hb] using valid_flatMap [Char.ofNat b.toNat]
  exact hsingle.append h

theorem encodeChar_eq_of_ascii {c : Char} {b : UInt8} (hmem : b ∈ String.utf8EncodeChar c)
    (hb : b < 0x80) : String.utf8EncodeChar c = [b] := by
  have hlt : b.toNat < 128 := hb
  revert hmem
  fun_cases String.utf8EncodeChar c with
  | case1 =>
    intro hmem
    rw [List.mem_singleton.mp hmem]
  | case2 | case3 | case4 =>
    intro hmem
    exfalso
    simp only [List.mem_cons, List.not_mem_nil, or_false, ← UInt8.toNat_inj,
      UInt8.toNat_ofNat'] at hmem
    omega

theorem mem_encodeChar_iff {c : Char} {b : UInt8} (hb : b < 0x80) :
    b ∈ String.utf8EncodeChar c ↔ c = Char.ofNat b.toNat := by
  constructor
  · intro hmem
    have hc := encodeChar_eq_of_ascii hmem hb
    rw [← encodeChar_ofNat hb] at hc
    have hsame : encode (String.ofList [c]) = encode (String.ofList [Char.ofNat b.toNat]) := by
      simpa [encode_eq_flatMap] using hc
    simpa using encode_injective hsame
  · rintro rfl
    simp [encodeChar_ofNat hb]

theorem mem_encode_iff {s : String} {b : UInt8} (hb : b < 0x80) :
    b ∈ encode s ↔ Char.ofNat b.toNat ∈ s.toList := by
  simp [encode_eq_flatMap, mem_encodeChar_iff hb]

theorem Valid.split {a c : Bytes} {b : UInt8} (h : Valid (a ++ b :: c)) (hb : b < 0x80) :
    Valid a ∧ Valid c := by
  obtain ⟨s, hs⟩ := h
  rw [encode_eq_flatMap] at hs
  generalize s.toList = cs at hs
  induction cs generalizing a with
  | nil => simp at hs
  | cons x cs ih =>
    rw [List.flatMap_cons, List.append_eq_append_iff] at hs
    rcases hs with ⟨a', ha, hrest⟩ | ⟨x', hx, hrest⟩
    · obtain ⟨ha', hc⟩ := ih hrest
      rw [ha]
      exact ⟨Valid.append (by simpa using valid_flatMap [x]) ha', hc⟩
    · cases x' with
      | nil =>
        obtain ⟨_, hc⟩ := ih (a := []) hrest.symm
        rw [List.append_nil] at hx
        exact ⟨by simpa [hx] using valid_flatMap [x], hc⟩
      | cons y x' =>
        obtain ⟨rfl, hc⟩ := List.cons.inj hrest
        have hx' := encodeChar_eq_of_ascii (c := x) (by simp [hx]) hb
        rw [hx', eq_comm, List.append_eq_singleton_iff] at hx
        rcases hx with ⟨rfl, hx⟩ | ⟨_, hx⟩
        · obtain ⟨-, rfl⟩ := List.cons.inj hx
          exact ⟨valid_nil, by simpa [hc] using valid_flatMap cs⟩
        · cases hx

theorem Valid.left {a c : Bytes} {b : UInt8} (h : Valid (a ++ b :: c)) (hb : b < 0x80) : Valid a :=
  (h.split hb).1

theorem Valid.right {a c : Bytes} {b : UInt8} (h : Valid (a ++ b :: c)) (hb : b < 0x80) : Valid c :=
  (h.split hb).2

theorem Valid.of_ascii_append {a c : Bytes} (ha : ∀ b ∈ a, b < 0x80) (h : Valid (a ++ c)) :
    Valid c := by
  induction a with
  | nil => exact h
  | cons b a ih =>
    rw [List.forall_mem_cons] at ha
    exact ih ha.2 (Valid.right (a := []) h ha.1)

theorem prefix_of_encode {s t : String} {c : Bytes} (ht : ∀ b ∈ encode t, b < 0x80)
    (h : encode s = encode t ++ c) : t.toList <+: s.toList := by
  obtain ⟨v, rfl⟩ : Valid c := Valid.of_ascii_append ht (h ▸ valid_encode s)
  rw [← encode_append] at h
  rw [encode_injective h, String.toList_append]
  exact List.prefix_append t.toList v.toList

theorem infix_of_encode {s t : String} {a c : Bytes} (hne : encode t ≠ [])
    (ht : ∀ b ∈ encode t, b < 0x80) (h : encode s = a ++ encode t ++ c) :
    t.toList <:+: s.toList := by
  have hvalid : Valid (a ++ (encode t ++ c)) := by
    rw [← List.append_assoc, ← h]
    exact valid_encode s
  obtain ⟨b, bytes, hbytes⟩ := List.exists_cons_of_ne_nil hne
  have hfirst : b < 0x80 := ht b (by simp [hbytes])
  rw [hbytes] at hvalid
  obtain ⟨u, rfl⟩ := hvalid.left hfirst
  obtain ⟨v, hv⟩ : Valid (encode t ++ c) := hbytes ▸ valid_cons hfirst (hvalid.right hfirst)
  have hrest : encode s = encode (u ++ v) := by rw [h, encode_append, hv, List.append_assoc]
  rw [encode_injective hrest, String.toList_append]
  exact (prefix_of_encode ht hv).isInfix.trans (List.suffix_append u.toList v.toList).isInfix

end Utf8
end FactoryMethods
