import FactoryMethods.Catalogue.Basic

/-! What differs between the languages that source is written in: the tokens, and the order in which
types and names are put. -/
namespace FactoryMethods

inductive ParameterOrder
  | typeFirst | nameFirst
  deriving DecidableEq, Repr

inductive ReturnPlace
  | leading | trailing
  deriving DecidableEq, Repr

inductive BindingForm
  | typed | inferred
  deriving DecidableEq, Repr

inductive ConstructionForm
  | keyword | associated
  deriving DecidableEq, Repr

structure Dialect where
  indent : String
  blockOpen : String
  blockClose : String
  terminator : String
  /-- What stands before every method, with a space after it unless it is empty. -/
  modifiers : String
  /-- What a node's name is put after to name its factory method. -/
  factoryStem : String
  positionType : String
  parameters : ParameterOrder
  returns : ReturnPlace
  binding : BindingForm
  construction : ConstructionForm
  deriving DecidableEq, Repr

namespace Dialect

def java : Dialect where
  indent := "    "
  blockOpen := "\x7b"
  blockClose := "\x7d"
  terminator := ";"
  modifiers := "public"
  factoryStem := "create_"
  positionType := "int"
  parameters := .typeFirst
  returns := .leading
  binding := .typed
  construction := .keyword

def rust : Dialect where
  indent := "    "
  blockOpen := "\x7b"
  blockClose := "\x7d"
  terminator := ";"
  modifiers := "pub fn"
  factoryStem := "create_"
  positionType := "i32"
  parameters := .nameFirst
  returns := .trailing
  binding := .inferred
  construction := .associated

instance : Inhabited Dialect := ⟨java⟩

def commaSeparated : List String → String
  | [] => ""
  | [item] => item
  | item :: rest => item ++ ", " ++ commaSeparated rest

/-- The space at the start of a line inside `depth` blocks. -/
def margin (l : Dialect) : Nat → String
  | 0 => ""
  | depth + 1 => l.margin depth ++ l.indent

def parameter (l : Dialect) (f : Field) : String :=
  match l.parameters with
  | .typeFirst => f.type ++ " " ++ f.name
  | .nameFirst => f.name ++ ": " ++ f.type

theorem parameter_ne_empty (l : Dialect) (f : Field) : l.parameter f ≠ "" := by
  cases h : l.parameters <;> simp [parameter, h, String.append_eq_empty_iff]

def factoryName (l : Dialect) (node : String) : String := l.factoryStem ++ node

def signature (l : Dialect) (name : String) (parameters : List String) (returnType : String) :
    String :=
  (if l.modifiers = "" then "" else l.modifiers ++ " ") ++
  (match l.returns with
    | .leading => returnType ++ " "
    | .trailing => "") ++
  name ++ "(" ++ commaSeparated parameters ++ ")" ++
  (match l.returns with
    | .leading => ""
    | .trailing => " -> " ++ returnType)

theorem signature_ne_empty (l : Dialect) (name : String) (parameters : List String)
    (type : String) : l.signature name parameters type ≠ "" := by
  simp [signature, String.append_eq_empty_iff]

/-- A binding of a local up to the value that it is given. -/
def bindingHead (l : Dialect) (type name : String) : String :=
  match l.binding with
  | .typed => type ++ " " ++ name ++ " = "
  | .inferred => "let mut " ++ name ++ " = "

theorem bindingHead_ne_empty (l : Dialect) (type name : String) : l.bindingHead type name ≠ "" := by
  cases h : l.binding <;> simp [bindingHead, h, String.append_eq_empty_iff]

def constructed (l : Dialect) (type : String) (arguments : List String) : String :=
  match l.construction with
  | .keyword => "new " ++ type ++ "(" ++ commaSeparated arguments ++ ")"
  | .associated => type ++ "::new(" ++ commaSeparated arguments ++ ")"

theorem constructed_ne_empty (l : Dialect) (type : String) (arguments : List String) :
    l.constructed type arguments ≠ "" := by
  cases h : l.construction <;> simp [constructed, h, String.append_eq_empty_iff]

end Dialect

end FactoryMethods
