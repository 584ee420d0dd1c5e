import FactoryMethods.Proofs.Catalogue.Reading
import FactoryMethods.Proofs.Markup.Pulling

/-! Reading by loops. A catalogue can be read by four loops, one for the document, one for a
catalogue, one for a node and one for what a field holds, each of which runs inside a turn of the
one before it. They ask one reader for events and hand it on to each other, with nothing to bound
them but its input. -/
namespace FactoryMethods

open Markup

/-- A reading that may run out of turns, and then has no outcome. -/
abbrev Attempt := ExceptT ReadError Option

/-- The end of a turn: the loop goes on in a new state, or it returns. -/
inductive Turn (σ ρ : Type)
  | again (state : σ) (c : Cursor)
  | back (result : ρ) (c : Cursor)

/-- Asks for one event after another. The number of turns is bounded, also for the
loops in `turn`. -/
def loop {σ ρ : Type} (turn : Nat → σ → Option Event → Cursor → Attempt (Turn σ ρ)) :
    Nat → σ → Cursor → Attempt (ρ × Cursor)
  | 0, _, _ => none
  | turns + 1, state, c =>
    match c.next with
    | .error f => throw (.markup f)
    | .ok (e, c) => do
      match ← turn turns state e c with
      | .again state c => loop turn turns state c
      | .back result c => return (result, c)

/-- What a field holds, with `nested` elements open in it. -/
def contentTurn (_ : Nat) (nested : Nat) (e : Option Event) (c : Cursor) :
    Attempt (Turn Nat Unit) :=
  match e, nested with
  | some (.opening _), nested => return .again (nested + 1) c
  | some (.closing _), nested + 1 => return .again nested c
  | some (.closing _), 0 => return .back () c
  | some (.selfClosing _), nested => return .again nested c
  | some .ignorable, nested => return .again nested c
  | none, _ => return .back () c

def readContent : Nat → Nat → Cursor → Attempt (Unit × Cursor) := loop contentTurn

def fieldOf (tag : Tag) : Except ReadError Field := do
  expectName tag "field" "node"
  let name ← required tag "field" "name"
  let type ← required tag "field" "type"
  return ⟨name, type⟩

def fieldsTurn (turns : Nat) (node : Descriptor) (e : Option Event) (c : Cursor) :
    Attempt (Turn Descriptor Descriptor) :=
  match e with
  | some (.opening tag) => do
    let f ← fieldOf tag
    let (_, c) ← readContent turns 0 c
    return .again (node.addField f) c
  | some (.selfClosing tag) => do
    let f ← fieldOf tag
    return .again (node.addField f) c
  | some (.closing _) => return .back node c
  | some .ignorable => return .again node c
  | none => throw (.structural (.openNode node.name))

def readFields : Nat → Descriptor → Cursor → Attempt (Descriptor × Cursor) := loop fieldsTurn

def nodeOf (tag : Tag) : Except ReadError Descriptor := do
  expectName tag "node" "catalogue"
  let name ← required tag "node" "name"
  return ⟨name, []⟩

def nodesTurn (turns : Nat) (found : Catalogue) (e : Option Event) (c : Cursor) :
    Attempt (Turn Catalogue Catalogue) :=
  match e with
  | some (.opening tag) => do
    let (node, c) ← readFields turns (← nodeOf tag) c
    return .again (found.add node) c
  | some (.selfClosing tag) => return .again (found.add (← nodeOf tag)) c
  | some (.closing _) => return .back found c
  | some .ignorable => return .again found c
  | none => throw (.structural .openCatalogue)

def readNodes : Nat → Catalogue → Cursor → Attempt (Catalogue × Cursor) := loop nodesTurn

def newCatalogue (found : Option Catalogue) (tag : Tag) : Except ReadError Catalogue := do
  expectName tag "catalogue" "document"
  if found.isSome then .error (.structural .manyCatalogues) else return {}

def documentTurn (turns : Nat) (found : Option Catalogue) (e : Option Event) (c : Cursor) :
    Attempt (Turn (Option Catalogue) Catalogue) :=
  match e with
  | some (.opening tag) => do
    let (read, c) ← readNodes turns (← newCatalogue found tag) c
    return .again (some read) c
  | some (.selfClosing tag) => return .again (some (← newCatalogue found tag)) c
  | some (.closing _) | some .ignorable => return .again found c
  | none =>
    match found with
    | some read => return .back read c
    | none => throw (.structural .noCatalogue)

def readDocument : Nat → Option Catalogue → Cursor → Attempt (Catalogue × Cursor) :=
  loop documentTurn

/-- Reads a whole document in no more than so many turns. -/
def Catalogue.parseWithin (turns : Nat) (bytes : Bytes) : Attempt Catalogue := do
  let (read, _) ← readDocument turns none ⟨{}, bytes⟩
  return read

namespace Attempt

/-- The attempt has an outcome: a value of which `P` holds or an error of which `E` does. -/
inductive Ends {α : Type} (P : α → Prop) (E : ReadError → Prop) : Attempt α → Prop
  | value {a : α} (h : P a) : Ends P E (some (.ok a))
  | error {e : ReadError} (h : E e) : Ends P E (some (.error e))

variable {α β : Type} {P P' : α → Prop} {Q : β → Prop} {E E' : ReadError → Prop}

theorem Ends.imp {x : Attempt α} (h : Ends P E x) (hP : ∀ a, P a → P' a) (hE : ∀ e, E e → E' e) :
    Ends P' E' x := by
  cases h with
  | value h => exact .value (hP _ h)
  | error h => exact .error (hE _ h)

theorem Ends.bind {x : Attempt α} {f : α → Attempt β} (h : Ends P E x)
    (hf : ∀ a, P a → Ends Q E (f a)) : Ends Q E (x >>= f) := by
  cases h with
  | value h => exact hf _ h
  | error h => exact .error h

end Attempt

open Attempt

namespace Place

/-- What reading comes to from a place in the document. -/
def outcome (p : Place) (c : Cursor) : Except ReadError Catalogue :=
  Reader.feedAll ⟨c.lexer, p⟩ c.rest >>= Reader.finish

/-- Reading byte by byte is reading event by event. -/
theorem outcome_eq (p : Place) (c : Cursor) : p.outcome c =
    match c.next with
    | .error f => .error (.markup f)
    | .ok (none, _) => p.finish
    | .ok (some e, c) => p.step e >>= fun q => q.outcome c := by
  obtain ⟨l, bytes⟩ := c
  rw [Cursor.next]
  induction bytes generalizing l with
  | nil =>
    show Reader.finish ⟨l, p⟩ = _
    rw [Reader.finish, Lexer.pull]
    cases l.endFault? <;> rfl
  | cons b rest ih =>
    rw [outcome, Reader.feedAll_cons, Reader.feed, Lexer.pull]
    cases l.feed b with
    | error f => rfl
    | ok read =>
      obtain ⟨_ | e, l⟩ := read
      · exact ih l
      · show (((p.step e).map _ >>= _) >>= _) = p.step e >>= fun q => q.outcome ⟨l, rest⟩
        cases p.step e <;> rfl

theorem outcome_of_end {p : Place} {c : Cursor} (h : c.next = .ok (none, c)) :
    p.outcome c = p.finish := by
  rw [outcome_eq, h]

end Place

/-- The turns of a loop do what reading does: its states are places in the document, and the loop
around it reads on from its result as `following` says. -/
structure Sound {σ ρ : Type} (turn : Nat → σ → Option Event → Cursor → Attempt (Turn σ ρ))
    (place : σ → Place) (following : ρ → Cursor → Except ReadError Catalogue) : Prop where
  event : ∀ turns s e c, c.rest.length < turns →
    let whole := (place s).step e >>= fun p => p.outcome c
    Ends (fun
      | .again s' c' => c'.rest <:+ c.rest ∧ whole = (place s').outcome c'
      | .back r c' => c'.rest <:+ c.rest ∧ whole = following r c')
      (fun e => whole = .error e) (turn turns s (some e) c)
  ending : ∀ turns s c, c.next = .ok (none, c) →
    Ends (fun
      | .again _ _ => False
      | .back r c' => c' = c ∧ (place s).finish = following r c')
      (fun e => (place s).finish = .error e) (turn turns s none c)

section Loop

variable {σ ρ : Type} {turn : Nat → σ → Option Event → Cursor → Attempt (Turn σ ρ)}
    {place : σ → Place}
  {following : ρ → Cursor → Except ReadError Catalogue}

/-- Induction on the turns, of which more are left than bytes: an event takes a byte at least, and
without an event the loop returns. -/
theorem ends_loop (h : Sound turn place following) {turns : Nat} (s : σ) {c : Cursor}
    (hturns : c.rest.length < turns) :
    Ends (fun r => r.2.rest <:+ c.rest ∧ (place s).outcome c = following r.1 r.2)
      (fun e => (place s).outcome c = .error e) (loop turn turns s c) := by
  induction turns generalizing s c with
  | zero => exact absurd hturns (Nat.not_lt_zero _)
  | succ turns ih =>
    rw [loop, Place.outcome_eq]
    cases hnext : c.next with
    | error f => exact .error rfl
    | ok read =>
      obtain ⟨_ | e, c'⟩ := read
      · obtain ⟨hrest, hend⟩ := Cursor.next_of_next_none hnext
        refine (h.ending turns s c' hend).bind fun t ht => ?_
        cases t with
        | again s' c'' => exact ht.elim
        | back r c'' =>
          obtain ⟨rfl, hr⟩ := ht
          exact .value ⟨hrest ▸ List.nil_suffix, hr⟩
      · have hshorter := Cursor.length_lt_of_next hnext
        obtain ⟨read, -, hread⟩ := Cursor.exists_read_of_next hnext
        have hsuffix : c'.rest <:+ c.rest := ⟨read, hread.symm⟩
        refine (h.event turns s e c' (by omega)).bind fun t ht => ?_
        cases t with
        | again s' c'' =>
          obtain ⟨hless, hwhole⟩ := ht
          have hleft := hless.length_le
          simp only [hwhole]
          exact (ih s' (by omega)).imp (fun r hr => ⟨hr.1.trans (hless.trans hsuffix), hr.2⟩)
            fun _ he => he
        | back r c'' => exact .value ⟨ht.1.trans hsuffix, ht.2⟩

end Loop

section Places

variable (found : Catalogue) (current : Descriptor) (tag : Tag)

theorem enter_node_eq_fieldOf : (Place.node found current).enter tag =
    (fieldOf tag).map fun f => .field found (current.addField f) 0 := by
  rw [Place.enter, fieldOf]
  cases expectName tag "field" "node" with
  | error e => rfl
  | ok _ =>
    cases required tag "field" "name" with
    | error e => rfl
    | ok name => cases required tag "field" "type" <;> rfl

theorem enter_catalogue_eq_nodeOf :
    (Place.catalogue found).enter tag = (nodeOf tag).map fun node => .node found node := by
  rw [Place.enter, nodeOf]
  cases expectName tag "node" "catalogue" with
  | error e => rfl
  | ok _ => cases required tag "node" "name" <;> rfl

theorem enter_document_eq_newCatalogue (read : Option Catalogue) :
    (Place.document read).enter tag = (newCatalogue read tag).map .catalogue := by
  unfold Place.enter newCatalogue
  cases expectName tag "catalogue" "document" with
  | error e => rfl
  | ok _ => cases read <;> rfl

end Places

theorem sound_content (found : Catalogue) (current : Descriptor) :
    Sound contentTurn (fun nested => .field found current nested)
      fun _ c => (Place.node found current).outcome c where
  event turns nested e c _ := by
    cases e with
    | opening tag => exact .value ⟨List.suffix_refl _, rfl⟩
    | selfClosing tag => exact .value ⟨List.suffix_refl _, rfl⟩
    | closing name => cases nested <;> exact .value ⟨List.suffix_refl _, rfl⟩
    | ignorable => exact .value ⟨List.suffix_refl _, rfl⟩
  ending turns nested c hend := by
    have hrejected : (Place.node found current).outcome c =
        (Place.field found current nested).finish := Place.outcome_of_end hend
    exact .value ⟨rfl, hrejected.symm⟩

theorem sound_fields (found : Catalogue) :
    Sound fieldsTurn (fun node => .node found node)
      fun node c => (Place.catalogue (found.add node)).outcome c where
  event turns node e c hturns := by
    cases e with
    | opening tag =>
      simp only [Place.step, enter_node_eq_fieldOf, fieldsTurn]
      cases fieldOf tag with
      | error e => exact .error rfl
      | ok f =>
        have hcontent := ends_loop (sound_content found (node.addField f)) 0 hturns
        refine hcontent.bind fun r hr => ?_
        exact .value hr
    | selfClosing tag =>
      simp only [Place.step, enter_node_eq_fieldOf, fieldsTurn]
      cases fieldOf tag with
      | error e => exact .error rfl
      | ok f => exact .value ⟨List.suffix_refl _, rfl⟩
    | closing name => exact .value ⟨List.suffix_refl _, rfl⟩
    | ignorable => exact .value ⟨List.suffix_refl _, rfl⟩
  ending turns node c _ := .error rfl

theorem sound_nodes :
    Sound nodesTurn Place.catalogue fun read c => (Place.document (some read)).outcome c where
  event turns found e c hturns := by
    cases e with
    | opening tag =>
      simp only [Place.step, enter_catalogue_eq_nodeOf, nodesTurn]
      cases nodeOf tag with
      | error e => exact .error rfl
      | ok node => exact (ends_loop (sound_fields found) node hturns).bind fun r hr => .value hr
    | selfClosing tag =>
      simp only [Place.step, enter_catalogue_eq_nodeOf, nodesTurn]
      cases nodeOf tag with
      | error e => exact .error rfl
      | ok node => exact .value ⟨List.suffix_refl _, rfl⟩
    | closing name => exact .value ⟨List.suffix_refl _, rfl⟩
    | ignorable => exact .value ⟨List.suffix_refl _, rfl⟩
  ending turns found c _ := .error rfl

theorem sound_document : Sound documentTurn Place.document fun read _ => .ok read where
  event turns found e c hturns := by
    cases e with
    | opening tag =>
      simp only [Place.step, enter_document_eq_newCatalogue, documentTurn]
      cases newCatalogue found tag with
      | error e => exact .error rfl
      | ok new => exact (ends_loop sound_nodes new hturns).bind fun r hr => .value hr
    | selfClosing tag =>
      simp only [Place.step, enter_document_eq_newCatalogue, documentTurn]
      cases newCatalogue found tag with
      | error e => exact .error rfl
      | ok new => exact .value ⟨List.suffix_refl _, rfl⟩
    | closing name => exact .value ⟨List.suffix_refl _, rfl⟩
    | ignorable => exact .value ⟨List.suffix_refl _, rfl⟩
  ending turns found c _ := by
    cases found with
    | some read => exact .value ⟨rfl, rfl⟩
    | none => exact .error rfl

/-- The loop ends within one turn for every byte and one for the end of the input, and it returns at
once where the markup is at fault. -/
structure Ending {σ ρ : Type} (read : Nat → σ → Cursor → Attempt (ρ × Cursor)) : Prop where
  ends : ∀ turns s c, c.rest.length < turns →
    Ends (fun r => r.2.rest <:+ c.rest) (fun _ => True) (read turns s c)
  fault : ∀ turns s c f, c.next = .error f → read (turns + 1) s c = throw (.markup f)

theorem Sound.ending_loop {σ ρ : Type} {turn : Nat → σ → Option Event → Cursor → Attempt (Turn σ ρ)}
    {place : σ → Place} {following : ρ → Cursor → Except ReadError Catalogue}
    (h : Sound turn place following) : Ending (loop turn) where
  ends _ s _ hturns := (ends_loop h s hturns).imp (fun _ hr => hr.1) fun _ _ => trivial
  fault turns s c f hf := by rw [loop, hf]

theorem loop_of_end {σ ρ : Type} (turn : Nat → σ → Option Event → Cursor → Attempt (Turn σ ρ))
    (turns : Nat) (s : σ) {c c' : Cursor} (h : c.next = .ok (none, c')) :
    loop turn (turns + 1) s c = do
      match ← turn turns s none c' with
      | .again s c => loop turn turns s c
      | .back r c => return (r, c) := by
  rw [loop, h]

namespace Catalogue

theorem parseWithin_eq {turns : Nat} {bytes : Bytes} (h : bytes.length < turns) :
    parseWithin turns bytes = some (parseBytes bytes) := by
  have hstart : (Place.document none).outcome ⟨{}, bytes⟩ = parseBytes bytes := rfl
  have hends := ends_loop sound_document none (c := ⟨{}, bytes⟩) h
  rw [hstart] at hends
  unfold parseWithin readDocument
  generalize loop documentTurn turns none ⟨{}, bytes⟩ = attempt at hends
  cases hends with
  | value h =>
    rw [h.2]
    rfl
  | error h =>
    rw [h]
    rfl

/-- The loops that read a catalogue end on all bytes, however these are cut: every event takes some
of the input, and each loop returns where the input has ended. What they come back with is the
outcome of reading. -/
theorem loops_end :
    (∀ (c c' : Cursor) (e : Event), c.next = .ok (some e, c') →
      c'.rest.length < c.rest.length ∧ ∃ read, c.rest = read ++ c'.rest) ∧
    (∀ c c' : Cursor, c.next = .ok (none, c') → c'.rest = [] ∧ c'.next = .ok (none, c')) ∧
    Ending readContent ∧ Ending readFields ∧ Ending readNodes ∧ Ending readDocument ∧
    (∀ (turns : Nat) (c c' : Cursor), c.next = .ok (none, c') →
      (∀ nested, readContent (turns + 1) nested c = pure ((), c')) ∧
      (∀ node, let refused := throw (.structural (.openNode node.name))
        readFields (turns + 1) node c = refused ∧ readFields (turns + 1) node c' = refused) ∧
      (∀ found, readNodes (turns + 1) found c = throw (.structural .openCatalogue)) ∧
      (∀ read, readDocument (turns + 1) (some read) c = pure (read, c')) ∧
      readDocument (turns + 1) none c = throw (.structural .noCatalogue)) ∧
    (∀ (turns : Nat) (bytes : Bytes), bytes.length < turns →
      parseWithin turns bytes = some (parseBytes bytes)) ∧
    ∀ text, parseWithin ((Utf8.encode text).length + 1) (Utf8.encode text) = some (parse text) := by
  refine ⟨fun c c' e h => ?_, fun c c' => Cursor.next_of_next_none,
    (sound_content {} ⟨"", []⟩).ending_loop, (sound_fields {}).ending_loop, sound_nodes.ending_loop,
    sound_document.ending_loop, fun turns c c' h => ?_, fun turns bytes => parseWithin_eq,
    fun text => parseWithin_eq (Nat.lt_succ_self _)⟩
  · obtain ⟨read, -, hread⟩ := Cursor.exists_read_of_next h
    exact ⟨Cursor.length_lt_of_next h, read, hread⟩
  · obtain ⟨-, hend⟩ := Cursor.next_of_next_none h
    refine ⟨fun nested => ?_, fun node => ⟨?_, ?_⟩, fun found => ?_, fun read => ?_, ?_⟩
    · rw [readContent, loop_of_end _ _ _ h]
      rfl
    · rw [readFields, loop_of_end _ _ _ h]
      rfl
    · rw [readFields, loop_of_end _ _ _ hend]
      rfl
    · rw [readNodes, loop_of_end _ _ _ h]
      rfl
    · rw [readDocument, loop_of_end _ _ _ h]
      rfl
    · rw [readDocument, loop_of_end _ _ _ h]
      rfl

/-- What a field holds is broken off, at its very end or in a tag. -/
theorem loops_end_broken_off :
    let c : Cursor := ⟨{}, Utf8.encode "<d/> "⟩
    let c' : Cursor := ⟨{}, Utf8.encode " "⟩
    let final : Cursor := ⟨{}, []⟩
    let inTag : Cursor := ⟨{}, Utf8.encode "<d"⟩
    let text := "<catalogue><node name='A'><field name='b' type='C'><d/> "
    c.next = .ok (some (.selfClosing ⟨Utf8.encode "d"⟩), c') ∧ c'.rest.length < c.rest.length ∧
      c'.next = .ok (none, final) ∧ readContent 1 0 c' = pure ((), final) ∧
      readFields 1 ⟨"A", []⟩ final = throw (.structural (.openNode "A")) ∧
      inTag.next = .error .openTag ∧ readContent 1 0 inTag = throw (.markup .openTag) ∧
      inTag.rest.length < 3 ∧
        Ends (fun r => r.2.rest <:+ inTag.rest) (fun _ => True) (readContent 3 0 inTag) ∧
      (Utf8.encode text).length < 60 ∧
      parseWithin 60 (Utf8.encode text) = some (.error (.structural (.openNode "A"))) := by
  intro c c' final inTag text
  have hevent : c.next = .ok (some (.selfClosing ⟨Utf8.encode "d"⟩), c') := by rfl
  have hend : c'.next = .ok (none, final) := by rfl
  have hfault : inTag.next = .error .openTag := by rfl
  have hshort : inTag.rest.length < 3 := by decide
  have hturns : (Utf8.encode text).length < 60 := by decide
  obtain ⟨hless, -, hcontent, -, -, -, hreturns, hparse, -⟩ := loops_end
  obtain ⟨hback, hrefused, -⟩ := hreturns 0 c' final hend
  have houtcome : parseBytes (Utf8.encode text) = .error (.structural (.openNode "A")) := by rfl
  refine ⟨hevent, (hless c c' _ hevent).1, hend, hback 0, (hrefused ⟨"A", []⟩).2, hfault,
    hcontent.fault 0 0 inTag _ hfault, hshort, hcontent.ends 3 0 inTag hshort, hturns, ?_⟩
  rw [hparse 60 _ hturns, houtcome]

end Catalogue
end FactoryMethods
