import RecordLayout.Cli

/-!
# The program

The command line with the files and the standard streams of the machine.
-/

namespace RecordLayout.Cli

/-- The bytes of a file of the machine. -/
def readMachineFile (path : String) : IO FileContents := do
  try
    let bytes ← IO.FS.readBinFile path
    pure (.ok bytes.toList)
  catch
    | .noFileOrDirectory _ code _ => pure (.error s!"No such file or directory (os error {code})")
    | e => pure (.error (toString e))

/-- The bytes of the standard input. -/
def readMachineInput : IO (List UInt8) := do
  let input ← IO.getStdin
  let bytes ← input.readBinToEnd
  pure bytes.toList

end RecordLayout.Cli

/-- The program. -/
def main (args : List String) : IO UInt32 := do
  let report ← RecordLayout.Cli.run RecordLayout.Cli.readMachineFile
    RecordLayout.Cli.readMachineInput args
  IO.print report.stdout
  IO.eprint report.stderr
  pure (.ofNat report.code)
