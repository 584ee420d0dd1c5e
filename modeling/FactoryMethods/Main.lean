import FactoryMethods.CommandLine

open FactoryMethods

def contentOf (path : String) : IO (Except FileFault Bytes) := do
  try
    let bytes ← IO.FS.readBinFile path
    return .ok bytes.data.toList
  catch e =>
    match e with
    | .noFileOrDirectory .. => return .error .notFound
    | _ => return .error (.other (toString e))

/-- The levels that a filter of one word lets through; any other filter lets nothing through. -/
def admitted (filter : Option String) (level : LogLevel) : Bool :=
  match filter with
  | some "trace" | some "debug" => true
  | some "info" => level != .debug
  | some "warn" => level == .warn
  | _ => false

def main (arguments : List String) : IO UInt32 := do
  let content ← match arguments with
    | path :: _ => contentOf path
    | [] => pure (.error .notFound)
  let filter ← IO.getEnv "RUST_LOG"
  let writer : LogWriter := ⟨admitted filter, fun _ e => s!"{e.level.name} {e.message}\n"⟩
  let exit := CommandLine.run arguments content writer
  IO.print exit.stdout
  return exit.code
