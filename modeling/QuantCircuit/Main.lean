import QuantCircuit.CommandLine.Run

namespace QuantCircuit.CommandLine

def faultOf (e : IO.Error) : IoFault :=
  match e with
  | .noFileOrDirectory .. => .notFound
  | other => .system other.toString

def systemFiles : Files IO where
  read
    | some path => attempt (IO.FS.readBinFile path)
    | none => attempt do (← IO.getStdin).readBinToEnd
  write path text := attempt (IO.FS.writeFile path text)
where
  attempt {α : Type} (action : IO α) : IO (Except IoFault α) :=
    tryCatch (.ok <$> action) fun e => pure (.error (faultOf e))

/-- Success is 0, a failure 1, and a malformed command line 2. -/
def execute (arguments : List String) : IO UInt32 := do
  match Settings.ofArguments arguments with
  | .error .help =>
    IO.print helpText
    return 0
  | .error _ =>
    IO.eprintln "Usage: qubi [OPTIONS] [INPUT]"
    return 2
  | .ok settings =>
    match ← run systemFiles settings with
    | .ok text =>
      IO.print text
      return 0
    | .error e =>
      IO.eprintln e.message
      return 1

end QuantCircuit.CommandLine

def main (arguments : List String) : IO UInt32 :=
  QuantCircuit.CommandLine.execute arguments
