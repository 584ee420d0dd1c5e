import FactoryMethods.Proofs.Generation.FrontDoors

/-! Decoding. What the factory writes next to a name or a type is a mark of punctuation. So where
names and types hold none, the text of a method tells its node and where it ends itself, and the
source of a catalogue tells the catalogue. -/
namespace FactoryMethods

def punctuation : List Char := [' ', ',', ':', '(', ')']

def IsBare (s : String) : Prop := ∀ c ∈ s.toList, c ∉ punctuation

instance (s : String) : Decidable (IsBare s) := List.decidableBAll (· ∉ punctuation) s.toList

def Marked (s : String) : Prop := ∃ c ∈ s.toList.head?, c ∈ punctuation

theorem Marked.append {a : String} (ha : Marked a) (b : String) : Marked (a ++ b) := by
  obtain ⟨c, hc, hmark⟩ := ha
  exact ⟨c, by simp [Option.mem_def.mp hc], hmark⟩

theorem IsBare.takeWhile_append {a x : String} (ha : IsBare a) (hx : Marked x) :
    (a ++ x).toList.takeWhile (· ∉ punctuation) = a.toList := by
  obtain ⟨c, hc, hmark⟩ := hx
  obtain ⟨rest, hrest⟩ := List.head?_eq_some_iff.mp hc
  rw [String.toList_append, List.takeWhile_append_of_pos (by simpa [IsBare] using ha), hrest,
    List.takeWhile_cons_of_neg (by simpa using hmark), List.append_nil]

theorem IsBare.append_inj {a b x y : String} (ha : IsBare a) (hb : IsBare b) (hx : Marked x)
    (hy : Marked y) (h : a ++ x = b ++ y) : a = b ∧ x = y := by
  have hsame : a = b := by
    rw [← String.toList_inj, ← ha.takeWhile_append hx, h, hb.takeWhile_append hy]
  subst hsame
  exact ⟨rfl, (String.append_right_inj _).mp h⟩

structure Field.Plain (f : Field) : Prop where
  name : IsBare f.name
  type : IsBare f.type

instance (f : Field) : Decidable f.Plain :=
  decidable_of_iff (IsBare f.name ∧ IsBare f.type) ⟨fun h => ⟨h.1, h.2⟩, fun h => ⟨h.name, h.type⟩⟩

/-- The name of the node and the names and types of its fields hold no punctuation. -/
structure Descriptor.Plain (d : Descriptor) : Prop where
  name : IsBare d.name
  fields : ∀ f ∈ d.fields, f.Plain

instance (d : Descriptor) : Decidable d.Plain :=
  decidable_of_iff (IsBare d.name ∧ ∀ f ∈ d.fields, f.Plain)
    ⟨fun h => ⟨h.1, h.2⟩, fun h => ⟨h.name, h.fields⟩⟩

namespace Dialect

variable {l : Dialect} {x y : String}

theorem parameter_append_inj {f g : Field} (hf : f.Plain) (hg : g.Plain) (hx : Marked x)
    (hy : Marked y) (h : l.parameter f ++ x = l.parameter g ++ y) : f = g ∧ x = y := by
  obtain ⟨name, type⟩ := f
  obtain ⟨name', type'⟩ := g
  have hspace : Marked " " := ⟨' ', by decide, by decide⟩
  have hcolon : Marked ": " := ⟨':', by decide, by decide⟩
  cases horder : l.parameters with
  | typeFirst =>
    simp only [parameter, horder, String.append_assoc] at h
    obtain ⟨rfl, hrest⟩ := hf.type.append_inj hg.type (hspace.append _) (hspace.append _) h
    rw [String.append_right_inj] at hrest
    obtain ⟨rfl, rfl⟩ := hf.name.append_inj hg.name hx hy hrest
    exact ⟨rfl, rfl⟩
  | nameFirst =>
    simp only [parameter, horder, String.append_assoc] at h
    obtain ⟨rfl, hrest⟩ := hf.name.append_inj hg.name (hcolon.append _) (hcolon.append _) h
    rw [String.append_right_inj] at hrest
    obtain ⟨rfl, rfl⟩ := hf.type.append_inj hg.type hx hy hrest
    exact ⟨rfl, rfl⟩

def moreItems (items : List String) : String := String.join (items.map (", " ++ ·))

theorem commaSeparated_cons (item : String) (rest : List String) :
    commaSeparated (item :: rest) = item ++ moreItems rest := by
  induction rest generalizing item with
  | nil => simp [commaSeparated, moreItems]
  | cons next rest ih => simp [commaSeparated, ih, moreItems, String.append_assoc]

theorem marked_moreItems_append (items : List String) (x : String) :
    Marked (moreItems items ++ (")" ++ x)) := by
  cases items with
  | nil => exact ⟨')', by simp [moreItems], by decide⟩
  | cons item rest => exact ⟨',', by simp [moreItems], by decide⟩

theorem moreItems_append_inj {fs gs : List Field} (hfs : ∀ f ∈ fs, f.Plain)
    (hgs : ∀ g ∈ gs, g.Plain) (h : moreItems (fs.map l.parameter) ++ (")" ++ x) =
      moreItems (gs.map l.parameter) ++ (")" ++ y)) : fs = gs ∧ x = y := by
  induction fs generalizing gs with
  | nil =>
    cases gs with
    | nil => exact ⟨rfl, by simpa [moreItems] using h⟩
    | cons g gs => simpa [moreItems] using congrArg (·.toList.head?) h
  | cons f fs ih =>
    cases gs with
    | nil => simpa [moreItems] using congrArg (·.toList.head?) h
    | cons g gs =>
      rw [List.forall_mem_cons] at hfs hgs
      have hparameter : l.parameter f ++ (moreItems (fs.map l.parameter) ++ (")" ++ x)) =
          l.parameter g ++ (moreItems (gs.map l.parameter) ++ (")" ++ y)) := by
        simpa [moreItems, String.append_assoc] using h
      obtain ⟨rfl, hrest⟩ := parameter_append_inj hfs.1 hgs.1 (marked_moreItems_append _ _)
        (marked_moreItems_append _ _) hparameter
      obtain ⟨rfl, rfl⟩ := ih hfs.2 hgs.2 hrest
      exact ⟨rfl, rfl⟩

theorem eq_of_signature_append {p : Parameter} {n m : Descriptor} (hn : n.Plain) (hm : m.Plain)
    (h : l.render (.signature [p] n) ++ x = l.render (.signature [p] m) ++ y) : n = m := by
  obtain ⟨name, fields⟩ := n
  obtain ⟨name', fields'⟩ := m
  have hspace : Marked " " := ⟨' ', by decide, by decide⟩
  have hparenthesis : Marked "(" := ⟨'(', by decide, by decide⟩
  simp only [render, signature, factoryName, parametersOf, List.map_cons, List.map_nil,
    List.singleton_append, commaSeparated_cons, String.append_assoc, String.append_right_inj] at h
  cases hreturns : l.returns with
  | leading =>
    simp only [hreturns, String.append_assoc] at h
    obtain ⟨rfl, hrest⟩ := hn.name.append_inj hm.name (hspace.append _) (hspace.append _) h
    simp only [String.append_right_inj] at hrest
    obtain ⟨rfl, -⟩ := moreItems_append_inj hn.fields hm.fields hrest
    rfl
  | trailing =>
    simp only [hreturns, String.empty_append, String.append_right_inj] at h
    obtain ⟨rfl, hrest⟩ :=
      hn.name.append_inj hm.name (hparenthesis.append _) (hparenthesis.append _) h
    simp only [String.append_right_inj] at hrest
    obtain ⟨rfl, -⟩ := moreItems_append_inj hn.fields hm.fields hrest
    rfl

end Dialect

namespace Factory

variable {l : Dialect}

def text (l : Dialect) (node : Descriptor) : String :=
  String.join ((lines l node).map (· ++ "\n"))

theorem text_eq_append (l : Dialect) (node : Descriptor) :
    ∃ rest, text l node = l.render (.signature [.position position] node) ++ rest := by
  simp only [text, lines, List.map_cons, String.join_cons, String.append_assoc]
  exact ⟨_, rfl⟩

theorem text_ne_empty (l : Dialect) (node : Descriptor) : text l node ≠ "" := by
  obtain ⟨rest, hrest⟩ := text_eq_append l node
  simp [hrest, String.append_eq_empty_iff, l.render_signature_ne_empty]

theorem text_append_inj {n m : Descriptor} {x y : String} (hn : n.Plain) (hm : m.Plain)
    (h : text l n ++ x = text l m ++ y) : n = m ∧ x = y := by
  obtain ⟨restn, hrestn⟩ := text_eq_append l n
  obtain ⟨restm, hrestm⟩ := text_eq_append l m
  have hsignature := h
  rw [hrestn, hrestm, String.append_assoc, String.append_assoc] at hsignature
  obtain rfl := Dialect.eq_of_signature_append hn hm hsignature
  exact ⟨rfl, (String.append_right_inj _).mp h⟩

/-- What follows a method: an empty line and the next methods, if there are any. -/
def following (l : Dialect) : List Descriptor → String
  | [] => ""
  | next :: rest => "\n" ++ source l (next :: rest)

theorem source_cons (l : Dialect) (node : Descriptor) (rest : List Descriptor) :
    source l (node :: rest) = text l node ++ following l rest := by
  cases rest with
  | nil => simp [source, Listing.source, text, following]
  | cons next rest => simp [source, Listing.source, text, following]

@[simp] theorem following_eq_empty_iff {nodes : List Descriptor} :
    following l nodes = "" ↔ nodes = [] := by
  cases nodes <;> simp [following, String.append_eq_empty_iff]

@[simp] theorem source_eq_empty_iff {nodes : List Descriptor} :
    source l nodes = "" ↔ nodes = [] := by
  cases nodes with
  | nil => simp [source, Listing.source]
  | cons node rest => simp [source_cons, String.append_eq_empty_iff, text_ne_empty]

theorem source_eq_of_following_eq {ns ms : List Descriptor}
    (h : following l ns = following l ms) : source l ns = source l ms := by
  cases ns with
  | nil => rw [following_eq_empty_iff.mp h.symm]
  | cons n ns =>
    cases ms with
    | nil => exact absurd (following_eq_empty_iff.mp h) (List.cons_ne_nil n ns)
    | cons m ms => exact (String.append_right_inj _).mp h

theorem source_injective {ns ms : List Descriptor} (hns : ∀ n ∈ ns, n.Plain)
    (hms : ∀ m ∈ ms, m.Plain) (h : source l ns = source l ms) : ns = ms := by
  induction ns generalizing ms with
  | nil => exact (source_eq_empty_iff.mp h.symm).symm
  | cons n ns ih =>
    cases ms with
    | nil => exact source_eq_empty_iff.mp h
    | cons m ms =>
      rw [List.forall_mem_cons] at hns hms
      rw [source_cons, source_cons] at h
      obtain ⟨rfl, hfollowing⟩ := text_append_inj hns.1 hms.1 h
      rw [ih hns.2 hms.2 (source_eq_of_following_eq hfollowing)]

end Factory

/-- Generated source determines the catalogue, in every dialect: where no name and no type holds
punctuation, it tells the nodes, their fields with the types of these, and the order of both. -/
theorem generate_injective {l : Dialect} {ns ms : List Descriptor} (hns : ∀ n ∈ ns, n.Plain)
    (hms : ∀ m ∈ ms, m.Plain) {source : String} (hsource : (generate l ns).result = .ok source)
    (hsource' : (generate l ms).result = .ok source) : ns = ms := by
  obtain ⟨-, rfl⟩ := generate_eq_ok_iff.mp hsource
  obtain ⟨-, hsame⟩ := generate_eq_ok_iff.mp hsource'
  exact Factory.source_injective hns hms hsame

theorem generate_injective_ident :
    let built : Catalogue := (Catalogue.add ⟨[]⟩ ⟨"Ident", []⟩).addField 0 ⟨"sym", "Symbol"⟩
    let written : Catalogue := ⟨[⟨"Ident", [⟨"sym", "Symbol"⟩]⟩]⟩
    ∃ source, (generate .java built.descriptors).result = .ok source ∧
      (generate .java written.descriptors).result = .ok source ∧
      built.descriptors = written.descriptors := by
  intro built written
  have hvalid : Catalogue.defect? ["pos", "t"] written.descriptors = none := by decide
  have hbuilt : (generate .java built.descriptors).result =
      .ok (Factory.source .java written.descriptors) :=
    generate_of_valid .java hvalid
  have hwritten := generate_of_valid .java hvalid
  exact ⟨_, hbuilt, hwritten, generate_injective (by decide) (by decide) hbuilt hwritten⟩

end FactoryMethods
