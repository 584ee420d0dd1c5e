import FactoryMethods.Generation

/-! The command line: `[catalogue.xml] [java|rust]`. Without a path a small catalogue is built in;
the dialect is `rust` only if the second argument says exactly that. Further arguments are not
looked at. What is logged is shown too, as far as it is let through, and before the listing. -/
namespace FactoryMethods
namespace CommandLine

def builtIn : String :=
"<?xml version=\"1.0\" encoding=\"UTF-8\"?>
<catalogue>
    <node name=\"Ident\">
        <field name=\"sym\" type=\"Symbol\"/>
    </node>
    <node name=\"Select\">
        <field name=\"qualifier\" type=\"Tree\"/>
        <field name=\"selector\" type=\"Name\"/>
    </node>
    <node name=\"Apply\">
        <field name=\"fun\" type=\"Tree\"/>
        <field name=\"args\" type=\"Tree[]\"/>
    </node>
    <node name=\"Empty\"/>
</catalogue>"

def dialectOf (arguments : List String) : Dialect :=
  if arguments[1]? = some "rust" then .rust else .java

/-- The document to read; `content` is what the file at the first argument holds. -/
def documentOf (arguments : List String) (content : Except FileFault Bytes) :
    Except FileFault String :=
  if arguments = [] then .ok builtIn else textOf content

def listing (arguments : List String) (content : Except FileFault Bytes) : Outcome Listing :=
  match documentOf arguments content with
  | .error f => .silent (.file f)
  | .ok document =>
    match Catalogue.parse document with
    | .error e => .silent (.unreadable e)
    | .ok c => expand (dialectOf arguments) factory c.descriptors

structure Exit where
  code : UInt32
  stdout : String
  deriving DecidableEq, Repr

/-- Shows the log and then the listing; after a failure there is no listing to show. -/
def run (arguments : List String) (content : Except FileFault Bytes)
    (writer : LogWriter := .quiet) : Exit :=
  let o := listing arguments content
  match o.result with
  | .ok s => ⟨0, writer.shown o.log ++ toString s⟩
  | .error _ => ⟨1, writer.shown o.log⟩

end CommandLine
end FactoryMethods
