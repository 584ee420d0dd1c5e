import FactoryMethods.Proofs.Markup.Lexing
import FactoryMethods.Proofs.Text.Slices

/-! Ignorable markup: comments, instructions, character data, plain text and references. Read
between two events, each of them brings at most one event that says nothing, and leaves the lexer
where it was. -/
namespace FactoryMethods
namespace Markup

/-- A piece of markup that stands on its own and says nothing about elements. -/
inductive Ignorable : String → Prop
  | comment {s : String} (h : ¬ "-->".toList <:+: s.toList) : Ignorable ("<!--" ++ s ++ "-->")
  | instruction {s : String} (hstart : ¬ ">".toList <+: s.toList)
    (h : ¬ "?>".toList <:+: s.toList) : Ignorable ("<?" ++ s ++ "?>")
  | cdata {s : String} (h : ¬ "]]>".toList <:+: s.toList) : Ignorable ("<![CDATA[" ++ s ++ "]]>")
  | text {s : String} (hless : '<' ∉ s.toList) (hampersand : '&' ∉ s.toList) : Ignorable s
  | reference {s : String} (hampersand : '&' ∉ s.toList) (hless : '<' ∉ s.toList)
    (hsemicolon : ';' ∉ s.toList) : Ignorable ("&" ++ s ++ ";")

theorem encode_greater : Utf8.encode ">" = [greater] := rfl

/-- A text that may stand in front of a closing bracket to end a construct. -/
def IsStop (stop : String) : Prop :=
  Utf8.encode stop ≠ [] ∧ (Utf8.encode stop).all (fun b => b < 0x80 && b ≠ greater) = true

instance (stop : String) : Decidable (IsStop stop) := inferInstanceAs (Decidable (_ ∧ _))

theorem IsStop.greater_not_mem {stop : String} (h : IsStop stop) : greater ∉ Utf8.encode stop := by
  intro hmem
  simpa using List.all_eq_true.mp h.2 greater hmem

theorem IsStop.not_suffix {stop s : String} (hstop : IsStop stop)
    (h : ¬ (stop ++ ">").toList <:+: s.toList) {x y : Bytes}
    (hs : Utf8.encode s = x ++ greater :: y) : ¬ Utf8.encode stop <:+ x := by
  rintro ⟨before, rfl⟩
  have hend : Utf8.encode s = before ++ Utf8.encode (stop ++ ">") ++ y := by
    simp [hs, encode_greater]
  have hascii : ∀ b ∈ Utf8.encode (stop ++ ">"), b < 0x80 := by
    rw [Utf8.encode_append, encode_greater, List.forall_mem_append, List.forall_mem_singleton]
    refine ⟨fun b hb => ?_, by decide⟩
    have hboth := List.all_eq_true.mp hstop.2 b hb
    simp only [Bool.and_eq_true, decide_eq_true_eq] at hboth
    exact hboth.1
  exact h (Utf8.infix_of_encode (by simp [encode_greater]) hascii hend)

theorem IsStop.split {stop : String} (hstop : IsStop stop) {bytes x y : Bytes}
    (h : bytes ++ Utf8.encode stop = x ++ greater :: y) : ∃ y', bytes = x ++ greater :: y' := by
  rcases List.append_eq_append_iff.mp h with ⟨a, rfl, hrest⟩ | ⟨c, rfl, hrest⟩
  · exact absurd (by simp [hrest]) hstop.greater_not_mem
  · cases c with
    | nil =>
      rw [List.nil_append] at hrest
      exact absurd (by simp [← hrest]) hstop.greater_not_mem
    | cons b c =>
      obtain ⟨rfl, -⟩ := List.cons.inj hrest
      exact ⟨c, rfl⟩

theorem suffix_of_take_two {x rest : Bytes} {c : UInt8} (h : (x.reverse ++ rest).take 2 = [c, c])
    (hlength : 2 ≤ x.length) : [c, c] <:+ x := by
  rw [List.take_append_of_le_length (by simpa using hlength)] at h
  have hreverse : [c, c].reverse = [c, c] := rfl
  rw [← List.reverse_prefix, hreverse, ← h]
  exact List.take_prefix 2 x.reverse

namespace Lexer

theorem reads_collected {mode : Bytes → Mode} {path : List Bytes} {read bytes : Bytes}
    (h : ∀ x b y, bytes = x ++ b :: y → feed ⟨mode (x.reverse ++ read), path⟩ b =
      .ok (none, ⟨mode (b :: (x.reverse ++ read)), path⟩)) :
    Reads ⟨mode read, path⟩ bytes [] ⟨mode (bytes.reverse ++ read), path⟩ := by
  induction bytes generalizing read with
  | nil => exact Reads.nil _
  | cons b rest ih =>
    have hfirst : Reads ⟨mode read, path⟩ [b] [] ⟨mode (b :: read), path⟩ :=
      reads_turn (h [] b rest rfl)
    have hrest : Reads ⟨mode (b :: read), path⟩ rest [] ⟨mode (rest.reverse ++ b :: read), path⟩ :=
      ih fun x b' y hxy => by simpa using h (b :: x) b' y (by simp [hxy])
    simpa using hfirst.append hrest

theorem reads_passed {mode : Mode} {path : List Bytes} {bytes : Bytes}
    (h : ∀ b ∈ bytes, feed ⟨mode, path⟩ b = .ok (none, ⟨mode, path⟩)) :
    Reads ⟨mode, path⟩ bytes [] ⟨mode, path⟩ := by
  induction bytes with
  | nil => exact Reads.nil _
  | cons b rest ih =>
    rw [List.forall_mem_cons] at h
    exact (reads_turn h.1).append (ih h.2)

/-- A construct is read as it is opened, its body collected up to the stop, and closed by the
bracket behind the stop. No bracket in the body ends it, since none there comes after the stop. -/
theorem reads_construct {mode : Bytes → Mode} {path : List Bytes} {read : Bytes}
    {opening s stop : String}
    (hopen : Reads ⟨.text, path⟩ (Utf8.encode opening) [] ⟨mode read, path⟩) (hstop : IsStop stop)
    (h : ¬ (stop ++ ">").toList <:+: s.toList) (hstay : ∀ x b, (b = greater →
        (∃ y, Utf8.encode s = x ++ greater :: y) ∧ ¬ Utf8.encode stop <:+ x) →
      feed ⟨mode (x.reverse ++ read), path⟩ b = .ok (none, ⟨mode (b :: (x.reverse ++ read)), path⟩))
    (hclose : feed ⟨mode ((Utf8.encode s ++ Utf8.encode stop).reverse ++ read), path⟩ greater =
      .ok (some .ignorable, ⟨.text, path⟩)) :
    Reads ⟨.text, path⟩ (Utf8.encode (opening ++ s ++ (stop ++ ">")))
      [.ignorable] ⟨.text, path⟩ := by
  have hbody : Reads ⟨mode read, path⟩ (Utf8.encode s ++ Utf8.encode stop) []
      ⟨mode ((Utf8.encode s ++ Utf8.encode stop).reverse ++ read), path⟩ := by
    apply reads_collected
    intro x b y hxy
    refine hstay x b fun hb => ?_
    subst hb
    obtain ⟨y', hs⟩ := hstop.split hxy
    exact ⟨⟨y', hs⟩, hstop.not_suffix h hs⟩
  have hbytes : Utf8.encode (opening ++ s ++ (stop ++ ">")) =
      Utf8.encode opening ++ (Utf8.encode s ++ Utf8.encode stop ++ [greater]) := by
    simp [encode_greater]
  rw [hbytes]
  exact hopen.append (hbody.append (reads_event hclose))

theorem startsWith_collected (t : String) (bytes : Bytes) :
    startsWith (bytes.reverse ++ (Utf8.encode t).reverse).reverse t = true := by
  simp [startsWith]

theorem feed_instruction {read : Bytes} {b : UInt8} {path : List Bytes}
    (h : ¬ (b = greater ∧ read.head? = some question)) :
    feed ⟨.instruction read, path⟩ b = .ok (none, ⟨.instruction (b :: read), path⟩) := by
  simp only [feed]
  rw [if_neg h]
  rfl

theorem feed_comment {read : Bytes} {b : UInt8} {path : List Bytes}
    (h : ¬ (b = greater ∧ read.take 2 = [hyphen, hyphen] ∧ 6 ≤ read.length)) :
    feed ⟨.comment read, path⟩ b = .ok (none, ⟨.comment (b :: read), path⟩) := by
  simp only [feed]
  rw [if_neg h]
  rfl

theorem feed_cdata {read : Bytes} {b : UInt8} {path : List Bytes}
    (h : ¬ (b = greater ∧ read.take 2 = [rightBracket, rightBracket])) :
    feed ⟨.cdata read, path⟩ b = .ok (none, ⟨.cdata (b :: read), path⟩) := by
  simp only [feed]
  rw [if_neg h]
  rfl

theorem reads_instruction {s : String} (hstart : ¬ ">".toList <+: s.toList)
    (h : ¬ "?>".toList <:+: s.toList) (path : List Bytes) :
    Reads ⟨.text, path⟩ (Utf8.encode ("<?" ++ s ++ "?>")) [.ignorable] ⟨.text, path⟩ := by
  have hstop : IsStop "?" := by decide
  have hmark : Utf8.encode "?" = [question] := rfl
  have hopen : Reads ⟨.text, path⟩ (Utf8.encode "<?") [] ⟨.instruction [question, less], path⟩ :=
    rfl
  refine reads_construct hopen hstop h (fun x b hb => feed_instruction ?_) ?_
  · rintro ⟨rfl, hlast⟩
    obtain ⟨⟨y, hs⟩, hsuffix⟩ := hb rfl
    rcases x.eq_nil_or_concat with rfl | ⟨x, c, rfl⟩
    · have hascii : ∀ b ∈ Utf8.encode ">", b < 0x80 := by
        rw [encode_greater, List.forall_mem_singleton]
        decide
      exact hstart (Utf8.prefix_of_encode hascii hs)
    · obtain rfl : c = question := by simpa using hlast
      exact hsuffix ⟨x, by rw [hmark, List.concat_eq_append]⟩
  · simp [feed, hmark, ignore, emit]

theorem reads_comment {s : String} (h : ¬ "-->".toList <:+: s.toList) (path : List Bytes) :
    Reads ⟨.text, path⟩ (Utf8.encode ("<!--" ++ s ++ "-->")) [.ignorable] ⟨.text, path⟩ := by
  have hstop : IsStop "--" := by decide
  have hhyphens : Utf8.encode "--" = [hyphen, hyphen] := rfl
  have hread : (Utf8.encode "<!--").reverse = [hyphen, hyphen, bang, less] := rfl
  have hopen : Reads ⟨.text, path⟩ (Utf8.encode "<!--") []
    ⟨.comment (Utf8.encode "<!--").reverse, path⟩ := rfl
  refine reads_construct hopen hstop h (fun x b hb => feed_comment ?_) ?_
  · rintro ⟨rfl, hlast, hlength⟩
    have hx : 2 ≤ x.length := by simpa [hread] using hlength
    exact (hb rfl).2 (suffix_of_take_two hlast hx)
  · have hstart := startsWith_collected "<!--" (Utf8.encode s ++ Utf8.encode "--")
    simp only [feed, hstart]
    rw [if_pos (by simp [hhyphens, hread])]
    rfl

theorem reads_cdata {s : String} (h : ¬ "]]>".toList <:+: s.toList) (path : List Bytes) :
    Reads ⟨.text, path⟩ (Utf8.encode ("<![CDATA[" ++ s ++ "]]>")) [.ignorable] ⟨.text, path⟩ := by
  have hstop : IsStop "]]" := by decide
  have hbrackets : Utf8.encode "]]" = [rightBracket, rightBracket] := rfl
  have hread :
    (Utf8.encode "<![CDATA[").reverse = leftBracket :: (Utf8.encode "<![CDATA").reverse := rfl
  have hopen : Reads ⟨.text, path⟩ (Utf8.encode "<![CDATA[") []
    ⟨.cdata (Utf8.encode "<![CDATA[").reverse, path⟩ := rfl
  refine reads_construct hopen hstop h (fun x b hb => feed_cdata ?_) ?_
  · rintro ⟨rfl, hlast⟩
    have hne : leftBracket ≠ rightBracket := by decide
    have hx : 2 ≤ x.length := by
      rw [← List.length_reverse]
      rcases hreverse : x.reverse with _ | ⟨c, _ | ⟨d, rest⟩⟩
      · simp [hreverse, hread, hne] at hlast
      · simp [hreverse, hread, hne] at hlast
      · simp
    exact (hb rfl).2 (suffix_of_take_two hlast hx)
  · have hstart := startsWith_collected "<![CDATA[" (Utf8.encode s ++ Utf8.encode "]]")
    simp only [feed, hstart]
    rw [if_pos (by simp [hbrackets])]
    rfl

theorem reads_text {s : String} (hless : '<' ∉ s.toList) (hampersand : '&' ∉ s.toList)
    (path : List Bytes) : Reads ⟨.text, path⟩ (Utf8.encode s) [] ⟨.text, path⟩ := by
  replace hless : less ∉ Utf8.encode s := mt (Utf8.mem_encode_iff (by decide)).mp hless
  replace hampersand : ampersand ∉ Utf8.encode s :=
    mt (Utf8.mem_encode_iff (by decide)).mp hampersand
  refine reads_passed fun b hb => ?_
  simp only [feed]
  rw [if_neg (ne_of_mem_of_not_mem hb hless), if_neg (ne_of_mem_of_not_mem hb hampersand)]
  rfl

theorem reads_reference {s : String} (hampersand : '&' ∉ s.toList) (hless : '<' ∉ s.toList)
    (hsemicolon : ';' ∉ s.toList) (path : List Bytes) :
    Reads ⟨.text, path⟩ (Utf8.encode ("&" ++ s ++ ";")) [.ignorable] ⟨.text, path⟩ := by
  replace hampersand : ampersand ∉ Utf8.encode s :=
    mt (Utf8.mem_encode_iff (by decide)).mp hampersand
  replace hless : less ∉ Utf8.encode s := mt (Utf8.mem_encode_iff (by decide)).mp hless
  replace hsemicolon : semicolon ∉ Utf8.encode s :=
    mt (Utf8.mem_encode_iff (by decide)).mp hsemicolon
  have hopen : Reads ⟨.text, path⟩ (Utf8.encode "&") [] ⟨.reference, path⟩ := rfl
  have hbody : Reads ⟨.reference, path⟩ (Utf8.encode s) [] ⟨.reference, path⟩ := by
    refine reads_passed fun b hb => ?_
    have hneither : ¬ (b = ampersand ∨ b = less) := not_or.mpr
      ⟨ne_of_mem_of_not_mem hb hampersand, ne_of_mem_of_not_mem hb hless⟩
    simp only [feed]
    rw [if_neg (ne_of_mem_of_not_mem hb hsemicolon), if_neg hneither]
    rfl
  have hclose : Reads ⟨.reference, path⟩ (Utf8.encode ";") [.ignorable] ⟨.text, path⟩ := rfl
  rw [Utf8.encode_append, Utf8.encode_append]
  exact (hopen.append hbody).append hclose

end Lexer

/-- What is ignorable brings no event about elements, and the lexer is where it was. -/
theorem Ignorable.reads {x : String} (h : Ignorable x) (path : List Bytes) :
    ∃ es, Event.significant es = [] ∧
      Lexer.Reads ⟨.text, path⟩ (Utf8.encode x) es ⟨.text, path⟩ := by
  cases h with
  | comment h => exact ⟨_, rfl, Lexer.reads_comment h path⟩
  | instruction hstart h => exact ⟨_, rfl, Lexer.reads_instruction hstart h path⟩
  | cdata h => exact ⟨_, rfl, Lexer.reads_cdata h path⟩
  | text hless hampersand => exact ⟨_, rfl, Lexer.reads_text hless hampersand path⟩
  | reference hampersand hless hsemicolon =>
    exact ⟨_, rfl, Lexer.reads_reference hampersand hless hsemicolon path⟩

end Markup
end FactoryMethods
