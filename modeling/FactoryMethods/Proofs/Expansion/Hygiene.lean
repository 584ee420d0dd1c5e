import FactoryMethods.Proofs.Expansion.FactoryListing

/-! Hygiene. What a method binds is read off the phrases that its program writes. In a valid
catalogue the names bound in a factory method are distinct, and so are the methods' own names; what
is passed to a new node is what the header declares behind the position. -/
namespace FactoryMethods

def Parameter.name : Parameter → String
  | .position name => name
  | .field f => f.name

/-- The identifiers that a phrase declares; mere text declares none. -/
def Phrase.declared : Phrase → List String
  | .text _ | .construction _ => []
  | .parameter p => [p.name]
  | .signature extras node => extras.map Parameter.name ++ node.fieldNames
  | .bindingHead _ name => [name]

def Edit.phrase? : Edit → Option Phrase
  | .write p | .writeLine p | .statement p => some p
  | .newline | .endLine | .endStatement | .openBlock | .closeBlock => none

/-- The identifiers that a method binds, in the order in which they are declared. -/
def Program.bound (p : Program) : List String :=
  (p.edits.filterMap Edit.phrase?).flatMap Phrase.declared

theorem Dialect.factoryName_injective (l : Dialect) : Function.Injective l.factoryName := by
  intro a b h
  exact String.append_right_inj _ |>.mp h

namespace Descriptor.WellFormed

variable {reserved : List String} {d : Descriptor}

theorem field_name_ne (h : d.WellFormed reserved) {name : String} (hname : name ∈ d.fieldNames) :
    name ≠ "" := by
  obtain ⟨f, hf, rfl⟩ := List.mem_map.mp hname
  exact (h.fields f hf).1

theorem nodup_append (h : d.WellFormed reserved) (hreserved : reserved.Nodup) :
    (reserved ++ d.fieldNames).Nodup := by
  refine hreserved.append h.nodup fun name hname hfield => ?_
  obtain ⟨f, hf, rfl⟩ := List.mem_map.mp hfield
  exact (h.fields f hf).2.2 hname

end Descriptor.WellFormed

namespace Factory

theorem bound_method (node : Descriptor) :
    (factory.method node).bound = "pos" :: node.fieldNames ++ ["t"] := by
  have hmethod : factory.method node = method node := rfl
  rw [hmethod, Program.bound, edits_method]
  rfl

theorem nodup_bound {node : Descriptor} (h : node.WellFormed ["pos", "t"]) :
    (factory.method node).bound.Nodup := by
  have hperm : (["pos", "t"] ++ node.fieldNames).Perm (factory.method node).bound := by
    rw [bound_method]
    exact List.Perm.cons "pos" (List.perm_append_singleton "t" node.fieldNames).symm
  exact hperm.nodup_iff.mp (h.nodup_append (by decide))

theorem bound_ne_empty {node : Descriptor} (h : node.WellFormed ["pos", "t"]) :
    ∀ name ∈ (factory.method node).bound, name ≠ "" := by
  rw [bound_method, List.forall_mem_append, List.forall_mem_cons, List.forall_mem_singleton]
  exact ⟨⟨by decide, fun name hname => h.field_name_ne hname⟩, by decide⟩

end Factory

/-- No two methods have one name, and each binds the position, the fields and the local under
names that are not empty and all differ; the header declares the parameters that the new node
is made from. -/
theorem hygienic_of_expand {l : Dialect} {nodes : List Descriptor} {s : Listing}
    (h : (expand l factory nodes).result = .ok s) :
    (nodes.map fun node => l.factoryName node.name).Nodup ∧
    ∀ i node, nodes[i]? = some node →
      let formals : List Field := ⟨"pos", l.positionType⟩ :: node.fields
      let bound := (factory.method node).bound
      bound = formals.map Field.name ++ ["t"] ∧ (∀ name ∈ bound, name ≠ "") ∧ bound.Nodup ∧
      formals.length = node.fields.length + 1 ∧
      s.lines[6 * i]? =
        some (l.signature (l.factoryName node.name) (formals.map l.parameter) node.name ++
        " " ++ l.blockOpen) ∧
      s.lines[6 * i + 1]? = some (l.indent ++ l.bindingHead node.name "t" ++
        l.constructed node.name (formals.tail.map Field.name) ++ l.terminator) := by
  have hvalid := (Catalogue.defect?_eq_none _ _).mp (Factory.expand_eq_ok_iff_valid.mp h).1
  refine ⟨?_, ?_⟩
  · have hnames := hvalid.nodup.map l.factoryName_injective
    rwa [List.map_map] at hnames
  · intro i node hnode formals bound
    have hwell := hvalid.descriptors node (List.mem_of_getElem? hnode)
    refine ⟨Factory.bound_method node, Factory.bound_ne_empty hwell, Factory.nodup_bound hwell,
      rfl, ?_, ?_⟩
    · exact Factory.getElem?_line h hnode (j := 0) (by decide)
    · exact Factory.getElem?_line h hnode (j := 1) (by decide)

theorem hygienic_of_expand_select :
    let ident : Descriptor := ⟨"Ident", [⟨"sym", "Symbol"⟩]⟩
    let select : Descriptor := ⟨"Select", [⟨"qualifier", "Tree"⟩, ⟨"selector", "Name"⟩]⟩
    ∃ s, (expand .rust factory [ident, select]).result = .ok s ∧
      (factory.method select).bound.Nodup ∧
      s.lines[6]? = some
        "pub fn create_Select(pos: i32, qualifier: Tree, selector: Name) -> Select \x7b" ∧
      s.lines[7]? = some "    let mut t = Select::new(qualifier, selector);" := by
  intro ident select
  let s : Listing := ⟨([""].intercalate ([ident, select].map (Factory.lines .rust))).toArray⟩
  have hs : (expand .rust factory [ident, select]).result = .ok s :=
    Factory.expand_eq_ok_iff_valid.mpr ⟨by decide, rfl⟩
  obtain ⟨-, -, hbound, -, hheader, hnew⟩ := (hygienic_of_expand hs).2 1 select rfl
  exact ⟨s, hs, hbound, hheader.trans (by decide), hnew.trans (by decide)⟩

end FactoryMethods
