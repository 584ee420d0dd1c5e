import FactoryMethods.Catalogue.Basic
import FactoryMethods.Markup.Reference

/-! Catalogues written as XML documents, with no space between the tags. -/
namespace FactoryMethods

def Markup.written (key value : String) : String := " " ++ key ++ "=\"" ++ escape value ++ "\""

open Markup

def Field.toXml (f : Field) : String :=
  "<field" ++ written "name" f.name ++ written "type" f.type ++ "/>"

def Descriptor.toXml (d : Descriptor) : String :=
  "<node" ++ written "name" d.name ++ ">" ++ String.join (d.fields.map Field.toXml) ++ "</node>"

def Catalogue.toXml (c : Catalogue) : String :=
  "<catalogue>" ++ String.join (c.descriptors.map Descriptor.toXml) ++ "</catalogue>"

end FactoryMethods
