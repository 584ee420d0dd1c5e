import FactoryMethods.Method.Program

/-! The factory method of a node: it takes a position and the fields, makes the node, stamps the
position on it and returns it. -/
namespace FactoryMethods
namespace Factory

def position : String := "pos"

def result : String := "t"

def body (node : Descriptor) : List Edit :=
  [.write (.bindingHead node.name result),
   .write (.construction node),
   .endStatement,
   .statement (.text (result ++ "." ++ position ++ " = " ++ position)),
   .statement (.text ("return " ++ result))]

def method (node : Descriptor) : Program :=
  .edit (.write (.signature [.position position] node))
    (.block (Program.ofEdits (body node)) .done)

end Factory

def factory : Strategy where
  reserved := [Factory.position, Factory.result]
  method := Factory.method

end FactoryMethods
