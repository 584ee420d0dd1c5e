import Mathlib.Data.Nat.Digits.Defs
import FactoryMethods.Markup.Reference
import FactoryMethods.Proofs.Outcome

/-! What values stand for. A value is made of characters that stand for themselves and of
references, and it is unescaped exactly if every reference in it stands for a character. A number
stands for the character that has it as its code; surrogates and numbers beyond the last code are
the codes of no character. An escaped text is a value that stands for that text, whatever its
characters are, and no quotation mark is written in it. -/
namespace FactoryMethods
namespace Markup

/-- The number that digits are written for, the highest digit first. -/
def Denotes (base : Nat) (digits : List Char) (n : Nat) : Prop :=
  digits ≠ [] ∧ ∃ ds : List Nat, digits.map (digit? base) = ds.map some ∧
    n = Nat.ofDigits base ds.reverse

/-- What stands between `&` and `;` in a reference to a character by its code. -/
inductive IsCodeReference : List Char → Nat → Prop
  | decimal {digits : List Char} {code : Nat} : Denotes 10 digits code →
      IsCodeReference ('#' :: digits) code
  | hexadecimal {digits : List Char} {code : Nat} :
      Denotes 16 digits code → IsCodeReference ('#' :: 'x' :: digits) code

/-- What stands between `&` and `;`, and the character that it stands for. -/
inductive StandsFor : List Char → Char → Prop
  | predefined {name : List Char} {c : Char} : predefined? name = some c → StandsFor name c
  | code {name : List Char} {c : Char} : IsCodeReference name c.toNat → c.toNat ≠ 0 →
      StandsFor name c

/-- A value as it is written, and the characters that it stands for. -/
inductive Resolves : List Char → List Char → Prop
  | nil : Resolves [] []
  | plain {c : Char} {raw cs : List Char} : c ≠ '&' → Resolves raw cs →
      Resolves (c :: raw) (c :: cs)
  | reference {name raw cs : List Char} {c : Char} :
      StandsFor name c → Resolves raw cs → Resolves ('&' :: (name ++ ';' :: raw)) (c :: cs)

/-- A reference to a character by its code is written in the value. -/
def Mentions (raw : List Char) (code : Nat) : Prop :=
  ∃ before name after, IsCodeReference name code ∧ raw = before ++ '&' :: (name ++ ';' :: after)

def NoSigns (name : List Char) : Prop := '&' ∉ name ∧ ';' ∉ name

section Digits

variable {base : Nat} {digits : List Char} {n : Nat}

theorem number_cons_eq_ok_iff {value : Nat} {c : Char} :
    number base value (c :: digits) = .ok n ↔ ∃ d, digit? base c = some d ∧
      value * base + d < 2 ^ 32 ∧ number base (value * base + d) digits = .ok n := by
  conv => lhs; lhs; whnf
  cases hc : digit? base c with
  | none => simp only [reduceCtorEq, false_and, exists_false]
  | some d =>
    simp only [Option.some.injEq, exists_eq_left']
    by_cases hless : value * base + d < 2 ^ 32
    · rw [if_pos hless, and_iff_right hless]
    · rw [if_neg hless]
      simp only [hless, false_and, reduceCtorEq]

theorem number_eq_ok_iff (hbase : 0 < base) {value : Nat} (hvalue : value < 2 ^ 32) :
    number base value digits = .ok n ↔ ∃ ds : List Nat, digits.map (digit? base) = ds.map some ∧
      n = value * base ^ ds.length + Nat.ofDigits base ds.reverse ∧ n < 2 ^ 32 := by
  induction digits generalizing value with
  | nil =>
    constructor
    · rintro ⟨⟩
      exact ⟨[], rfl, by simp, hvalue⟩
    · rintro ⟨ds, hds, rfl, -⟩
      obtain rfl := List.map_eq_nil_iff.mp hds.symm
      change Except.ok value = _
      simp
  | cons c digits ih =>
    have hshift (d : Nat) (ds : List Nat) :
        value * base ^ (d :: ds).length + Nat.ofDigits base (d :: ds).reverse =
          (value * base + d) * base ^ ds.length + Nat.ofDigits base ds.reverse := by
      rw [List.reverse_cons, Nat.ofDigits_append, Nat.ofDigits_singleton, List.length_reverse,
        List.length_cons]
      ring
    rw [number_cons_eq_ok_iff]
    constructor
    · rintro ⟨d, hc, hless, h⟩
      obtain ⟨ds, hds, hn, hsmall⟩ := (ih hless).mp h
      exact ⟨d :: ds, by rw [List.map_cons, List.map_cons, hc, hds], by rw [hshift, hn], hsmall⟩
    · rintro ⟨_ | ⟨d, ds⟩, hds, hn, hsmall⟩
      · cases hds
      · rw [List.map_cons, List.map_cons, List.cons.injEq] at hds
        obtain ⟨hc, hds⟩ := hds
        rw [hshift] at hn
        have hgrows : value * base + d ≤ (value * base + d) * base ^ ds.length :=
          Nat.le_mul_of_pos_right _ (Nat.pow_pos hbase)
        have hless : value * base + d < 2 ^ 32 := by omega
        exact ⟨d, hc, hless, (ih hless).mpr ⟨ds, hds, hn, hsmall⟩⟩

theorem Denotes.notMem (h : Denotes base digits n) {c : Char} (hc : digit? base c = none) :
    c ∉ digits := by
  obtain ⟨-, ds, hds, -⟩ := h
  intro hmem
  have hnone : none ∈ ds.map some := hc ▸ hds ▸ List.mem_map_of_mem hmem
  simp at hnone

theorem Denotes.unique {m : Nat} (hn : Denotes base digits n) (hm : Denotes base digits m) :
    n = m := by
  obtain ⟨-, ds, hds, rfl⟩ := hn
  obtain ⟨-, es, hes, rfl⟩ := hm
  have hsame : ds.map some = es.map some := hds.symm.trans hes
  rw [(List.map_inj_right fun _ _ => Option.some.inj).mp hsame]

theorem number_eq_ok_iff_denotes (hbase : 0 < base) (hne : digits ≠ []) :
    number base 0 digits = .ok n ↔ Denotes base digits n ∧ n < 2 ^ 32 := by
  rw [number_eq_ok_iff hbase (by decide)]
  constructor
  · rintro ⟨ds, hds, hn, hsmall⟩
    exact ⟨⟨hne, ds, hds, by simpa using hn⟩, hsmall⟩
  · rintro ⟨⟨-, ds, hds, hn⟩, hsmall⟩
    exact ⟨ds, hds, by simpa using hn, hsmall⟩

theorem numbered_eq_ok_iff (hbase : 0 < base) {c : Char} :
    numbered base digits = .ok c ↔ Denotes base digits c.toNat ∧ c.toNat ≠ 0 := by
  unfold numbered
  split
  · simp [Denotes]
  · rename_i first rest
    split
    · rename_i hsign
      have hnone : digit? base first = none := by
        rcases hsign with rfl | rfl <;> rfl
      simp only [reduceCtorEq, false_iff]
      rintro ⟨h, -⟩
      exact h.notMem hnone List.mem_cons_self
    · have hnumber (n : Nat) :=
        number_eq_ok_iff_denotes (n := n) hbase (List.cons_ne_nil first rest)
      have hchar : c.toNat < 2 ^ 32 := c.val.toNat_lt
      have hvalid : c.toNat.isValidChar := c.valid
      cases hread : number base 0 (first :: rest) with
      | error f =>
        simp only [reduceCtorEq, false_iff]
        rintro ⟨h, -⟩
        rw [(hnumber _).mpr ⟨h, hchar⟩] at hread
        cases hread
      | ok code =>
        obtain ⟨hcode, -⟩ := (hnumber code).mp hread
        dsimp only
        constructor
        · intro h
          split at h
          · cases h
          · split at h
            · rename_i hzero hscalar
              have htoNat : (Char.ofNat code).toNat = code := by
                rw [Char.ofNat, dif_pos hscalar]
                rfl
              obtain rfl := Except.ok.inj h
              rw [htoNat]
              exact ⟨hcode, hzero⟩
            · cases h
        · rintro ⟨h, hzero⟩
          obtain rfl := hcode.unique h
          rw [if_neg hzero, if_pos hvalid, Char.ofNat_toNat]

end Digits

theorem not_denotes_x {digits : List Char} {n : Nat} : ¬ Denotes 10 ('x' :: digits) n :=
  fun h => h.notMem rfl List.mem_cons_self

theorem IsCodeReference.unique {name : List Char} {n m : Nat} (hn : IsCodeReference name n)
    (hm : IsCodeReference name m) : n = m := by
  cases hn with
  | decimal hn =>
    cases hm with
    | decimal hm => exact hn.unique hm
    | hexadecimal _ => exact absurd hn not_denotes_x
  | hexadecimal hn =>
    cases hm with
    | decimal hm => exact absurd hm not_denotes_x
    | hexadecimal hm => exact hn.unique hm

theorem referenced_eq_ok_iff {start stop : Nat} {name : List Char} {c : Char} :
    referenced start stop name = .ok c ↔ StandsFor name c := by
  fun_cases referenced start stop name with
  | case1 digits =>
    rw [numbered_eq_ok_iff (by decide)]
    constructor
    · rintro ⟨h, hzero⟩
      exact .code (.hexadecimal h) hzero
    · rintro (hname | ⟨⟨h⟩ | ⟨h⟩, hzero⟩)
      · cases hname
      · exact absurd h not_denotes_x
      · exact ⟨h, hzero⟩
  | case2 digits hhex =>
    rw [numbered_eq_ok_iff (by decide)]
    constructor
    · rintro ⟨h, hzero⟩
      exact .code (.decimal h) hzero
    · rintro (hname | ⟨⟨h⟩ | ⟨h⟩, hzero⟩)
      · cases hname
      · exact ⟨h, hzero⟩
      · exact absurd rfl (hhex _)
  | case3 name hhex hdecimal c' hname =>
    constructor
    · rintro ⟨⟩
      exact .predefined hname
    · rintro (hname' | ⟨⟨h⟩ | ⟨h⟩, hzero⟩)
      · rw [hname, Option.some.injEq] at hname'
        rw [hname']
      · exact absurd rfl (hdecimal _)
      · exact absurd rfl (hhex _)
  | case4 name hhex hdecimal hname =>
    simp only [reduceCtorEq, false_iff]
    rintro (hname' | ⟨⟨h⟩ | ⟨h⟩, hzero⟩)
    · rw [hname] at hname'
      cases hname'
    · exact absurd rfl (hdecimal _)
    · exact absurd rfl (hhex _)

theorem StandsFor.toNat_eq {name : List Char} {c : Char} {code : Nat} (h : StandsFor name c)
    (hcode : IsCodeReference name code) : c.toNat = code := by
  cases h with
  | predefined h => cases hcode <;> cases h
  | code h _ => exact h.unique hcode

theorem Denotes.noSigns {base : Nat} {digits : List Char} {n : Nat} (h : Denotes base digits n) :
    NoSigns digits :=
  ⟨h.notMem rfl, h.notMem rfl⟩

theorem IsCodeReference.noSigns {name : List Char} {code : Nat} (h : IsCodeReference name code) :
    NoSigns name := by
  cases h with
  | decimal h => simpa [NoSigns] using h.noSigns
  | hexadecimal h => simpa [NoSigns] using h.noSigns

theorem StandsFor.noSigns {name : List Char} {c : Char} (h : StandsFor name c) : NoSigns name := by
  cases h with
  | predefined h =>
    revert h
    fun_cases predefined? name with
    | case6 => rintro ⟨⟩
    | _ => simp [NoSigns]
  | code h _ => exact h.noSigns

theorem unescapeFrom_name {name : List Char} (h : NoSigns name) (length position start : Nat)
    (read : List Char) : ∃ stop after, ∀ rest,
      unescapeFrom length position (some (start, read)) (name ++ ';' :: rest) =
        match referenced (start + 1) stop (read.reverse ++ name) with
        | .error f => .error f
        | .ok c => (unescapeFrom length after none rest).map (c :: ·) := by
  induction name generalizing position read with
  | nil =>
    refine ⟨position, position + ';'.utf8Size, fun rest => ?_⟩
    rw [List.append_nil]
    rfl
  | cons c name ih =>
    simp only [NoSigns, List.mem_cons, not_or] at h
    obtain ⟨⟨hamp, hname⟩, hsemi, hname'⟩ := h
    obtain ⟨stop, after, hrest⟩ := ih ⟨hname, hname'⟩ (position + c.utf8Size) (c :: read)
    refine ⟨stop, after, fun rest => ?_⟩
    rw [List.cons_append, unescapeFrom]
    simp only [if_neg (Ne.symm hamp), if_neg (Ne.symm hsemi)]
    rw [hrest, List.reverse_cons, List.append_assoc, List.singleton_append]

theorem unescapeFrom_of_resolves {raw cs : List Char} (h : Resolves raw cs)
    (length position : Nat) : unescapeFrom length position none raw = .ok cs := by
  induction h generalizing position with
  | nil => rfl
  | plain hc _ ih =>
    rw [unescapeFrom]
    simp only [if_neg hc, ih]
    rfl
  | @reference name raw cs c hname _ ih =>
    obtain ⟨stop, after, hrest⟩ :=
      unescapeFrom_name hname.noSigns length (position + '&'.utf8Size) position []
    have hread : referenced (position + 1) stop name = .ok c := referenced_eq_ok_iff.mpr hname
    rw [unescapeFrom]
    simp only [↓reduceIte]
    rw [hrest, List.reverse_nil, List.nil_append, hread]
    simp only [ih]
    rfl

/-- What a value stands for that is read on, with a reference under way or without. -/
def ResolvesFrom (raw cs : List Char) : Option (Nat × List Char) → Prop
  | none => Resolves raw cs
  | some (_, read) => ∃ name c rest cs', raw = name ++ ';' :: rest ∧
    StandsFor (read.reverse ++ name) c ∧ Resolves rest cs' ∧ cs = c :: cs'

theorem resolvesFrom_of_unescapeFrom (length position : Nat) (pending : Option (Nat × List Char))
    (raw : List Char) : ∀ cs, unescapeFrom length position pending raw = .ok cs →
    ResolvesFrom raw cs pending := by
  fun_induction unescapeFrom length position pending raw with
  | case1 =>
    rintro cs ⟨⟩
    exact .nil
  | case2 | case5 | case6 => rintro cs ⟨⟩
  | case3 position rest after ih =>
    intro cs h
    obtain ⟨name, c, rest, cs, rfl, hname, hrest, rfl⟩ := ih cs h
    exact .reference hname hrest
  | case4 position c rest after hamp ih =>
    intro cs h
    obtain ⟨cs, hcs, rfl⟩ := map_eq_ok_iff.mp h
    exact .plain hamp (ih cs hcs)
  | case7 position rest start read c hread after _ ih =>
    intro cs h
    obtain ⟨cs, hcs, rfl⟩ := map_eq_ok_iff.mp h
    exact ⟨[], c, rest, cs, rfl, by simpa using referenced_eq_ok_iff.mp hread, ih cs hcs, rfl⟩
  | case8 position c rest after start read _ _ ih =>
    intro cs h
    obtain ⟨name, c', rest, cs, rfl, hname, hrest, rfl⟩ := ih cs h
    exact ⟨c :: name, c', rest, cs, rfl, by simpa using hname, hrest, rfl⟩

/-- A value is unescaped exactly to what it stands for. -/
theorem unescape_eq_ok_iff {raw s : String} :
    unescape raw = .ok s ↔ Resolves raw.toList s.toList := by
  rw [unescape, map_eq_ok_iff]
  constructor
  · rintro ⟨cs, hcs, rfl⟩
    rw [String.toList_ofList]
    exact resolvesFrom_of_unescapeFrom _ _ none raw.toList cs hcs
  · intro h
    exact ⟨s.toList, unescapeFrom_of_resolves h _ _, String.ofList_toList⟩

theorem Mentions.of_plain {c : Char} {raw : List Char} {code : Nat} (hc : c ≠ '&')
    (h : Mentions (c :: raw) code) : Mentions raw code := by
  obtain ⟨before, name, after, hname, hraw⟩ := h
  rcases before with _ | ⟨b, before⟩
  · exact absurd (List.cons.inj hraw).1 hc
  · exact ⟨before, name, after, hname, (List.cons.inj hraw).2⟩

theorem Mentions.of_reference {name raw : List Char} {code : Nat} (hname : NoSigns name)
    (h : Mentions ('&' :: (name ++ ';' :: raw)) code) :
    IsCodeReference name code ∨ Mentions raw code := by
  obtain ⟨before, name', after, hname', hraw⟩ := h
  rcases before with _ | ⟨b, before⟩
  · left
    have hspan {name rest : List Char} (h : NoSigns name) :
        (name ++ ';' :: rest).takeWhile (· ≠ ';') = name := by
      rw [List.takeWhile_append_of_pos fun c hc => by simpa using ne_of_mem_of_not_mem hc h.2]
      simp
    have hsame := congrArg (List.takeWhile (· ≠ ';')) (List.cons.inj hraw).2
    rw [hspan hname, hspan hname'.noSigns] at hsame
    rwa [hsame]
  · right
    rcases List.append_eq_append_iff.mp (List.cons.inj hraw).2 with
      ⟨rest, -, hrest⟩ | ⟨rest, rfl, hrest⟩
    · rcases rest with _ | ⟨b', rest⟩
      · cases hrest
      · exact ⟨rest, name', after, hname', (List.cons.inj hrest).2⟩
    · rcases rest with _ | ⟨b', rest⟩
      · cases hrest
      · obtain rfl := (List.cons.inj hrest).1
        exact absurd (by simp) hname.1

/-- Every code that is mentioned in a value which stands for something is that of a character. -/
theorem Resolves.exists_char {raw cs : List Char} (h : Resolves raw cs) {code : Nat}
    (hcode : Mentions raw code) : ∃ c ∈ cs, c.toNat = code := by
  induction h with
  | nil =>
    obtain ⟨before, name, after, -, hraw⟩ := hcode
    simp at hraw
  | plain hc _ ih =>
    obtain ⟨c', hmem, hc'⟩ := ih (hcode.of_plain hc)
    exact ⟨c', List.mem_cons_of_mem _ hmem, hc'⟩
  | @reference name raw cs c hname _ ih =>
    rcases hcode.of_reference hname.noSigns with hcode | hcode
    · exact ⟨c, List.mem_cons_self, hname.toNat_eq hcode⟩
    · obtain ⟨c', hmem, hc'⟩ := ih hcode
      exact ⟨c', List.mem_cons_of_mem _ hmem, hc'⟩

theorem escapeChar_cases (c : Char) : escapeChar c = [c] ∧ c ≠ '&' ∨
    ∃ name, escapeChar c = '&' :: (name ++ [';']) ∧ StandsFor name c := by
  fun_cases escapeChar c with
  | case1 => exact .inr ⟨['a', 'm', 'p'], rfl, .predefined rfl⟩
  | case2 => exact .inr ⟨['l', 't'], rfl, .predefined rfl⟩
  | case3 => exact .inr ⟨['g', 't'], rfl, .predefined rfl⟩
  | case4 => exact .inr ⟨['q', 'u', 'o', 't'], rfl, .predefined rfl⟩
  | case5 => exact .inr ⟨['a', 'p', 'o', 's'], rfl, .predefined rfl⟩
  | case6 => exact .inr ⟨['#', '9'], rfl, .code (.decimal ⟨by decide, [9], rfl, rfl⟩) (by decide)⟩
  | case7 =>
    exact .inr ⟨['#', '1', '0'], rfl, .code (.decimal ⟨by decide, [1, 0], rfl, rfl⟩) (by decide)⟩
  | case8 =>
    exact .inr ⟨['#', '1', '3'], rfl, .code (.decimal ⟨by decide, [1, 3], rfl, rfl⟩) (by decide)⟩
  | case9 c hamp => exact .inl ⟨rfl, hamp⟩

theorem resolves_escaped (cs : List Char) : Resolves (cs.flatMap escapeChar) cs := by
  induction cs with
  | nil => exact .nil
  | cons c cs ih =>
    rw [List.flatMap_cons]
    rcases escapeChar_cases c with ⟨hc, hamp⟩ | ⟨name, hc, hname⟩
    · rw [hc]
      exact .plain hamp ih
    · rw [hc, List.cons_append, List.append_assoc]
      exact .reference hname ih

theorem unescape_escape (s : String) : unescape (escape s) = .ok s := by
  rw [unescape_eq_ok_iff, escape, String.toList_ofList]
  exact resolves_escaped s.toList

theorem quotationMark_not_mem_escapeChar (c : Char) : '"' ∉ escapeChar c := by
  fun_cases escapeChar c with
  | case9 c _ _ _ hquote => simpa using fun h => hquote h.symm
  | _ => decide

theorem quotationMark_not_mem_escape (s : String) : '"' ∉ (escape s).toList := by
  rw [escape, String.toList_ofList, List.mem_flatMap]
  rintro ⟨c, -, hmem⟩
  exact quotationMark_not_mem_escapeChar c hmem

end Markup
end FactoryMethods
