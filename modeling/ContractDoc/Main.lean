import ContractDoc.Conversion

/-! # Command line

Prints the contract in the file named by the first argument. What is wrong goes to the error
stream.
-/

open ContractDoc

/-- Opens a file and reads it to its end. -/
def openFile (path : String) : IO (Except String Source) := do
  try
    let bytes ← IO.FS.readBinFile path
    return .ok ⟨[bytes], none⟩
  catch error =>
    return .error (toString error)

def convertFile (argument : Option String) : IO (Except ConversionError String) := do
  match Conversion.inputFile argument with
  | .error error => return .error error
  | .ok path =>
      let source ← openFile path
      return Conversion.run argument fun _ => source

def main (arguments : List String) : IO UInt32 := do
  let report := Conversion.report (← convertFile arguments.head?)
  IO.print report.printed
  match report.error? with
  | some error => IO.eprintln ("Error: " ++ error.message)
  | none => pure ()
  return report.exitCode
