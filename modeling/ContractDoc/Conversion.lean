import ContractDoc.Contract.OfXml
import ContractDoc.Contract.ToJson
import ContractDoc.FileName
import ContractDoc.Source

/-! # Converting documents

The whole way from a file argument to the printed contract. The name of the file is checked before
the file is opened, and nothing is printed unless the whole document can be read.
-/

namespace ContractDoc

inductive ConversionError
  | noInputFile
  | unsupportedExtension
  | unreadable (reason : String)
  | refused (error : DocumentError)
  deriving DecidableEq, Repr

namespace ConversionError

def message : ConversionError → String
  | noInputFile => "No input file provided. Exiting..."
  | unsupportedExtension =>
      "Unsupported file extension. Supported file extensions are: .dascontract, .xml"
  | unreadable reason => "Error opening file: " ++ reason
  | refused error => "Error parsing contract: " ++ error.message

/-- The line of the document that an error points at, if it is known. -/
def line? : ConversionError → Option UInt32
  | refused error => error.line?
  | _ => none

end ConversionError

def Contract.read (source : Source) : Except ConversionError Contract := do
  let text ← source.text.mapError .unreadable
  (Contract.parse text).mapError .refused

namespace Conversion

/-- The extensions of files that hold contract documents. -/
def extensions : List String := ["dascontract", "xml"]

def isSupported (path : String) : Bool :=
  match (FileName.ofPath? path.toList).bind FileName.extension? with
  | some extension => extensions.contains (String.ofList extension)
  | none => false

def inputFile (argument : Option String) : Except ConversionError String :=
  match argument with
  | none => .error .noInputFile
  | some path => if isSupported path then .ok path else .error .unsupportedExtension

/-- What is printed for an opened file: the contract and a line feed. -/
def output (source : Source) : Except ConversionError String := do
  let contract ← Contract.read source
  return contract.toJson.pretty ++ "\n"

/-- What is printed for a file argument, where `access` opens a file or says why it cannot. -/
def run (argument : Option String) (access : String → Except String Source) :
    Except ConversionError String := do
  let path ← inputFile argument
  let source ← (access path).mapError .unreadable
  output source

def exitCode : Except ConversionError String → UInt32
  | .ok _ => 0
  | .error _ => 1

/-- What can be seen of a conversion from outside. -/
structure Report where
  exitCode : UInt32
  printed : String
  error? : Option ConversionError
  deriving DecidableEq, Repr

/-- Reports a conversion. Of one that fails nothing is printed but the error. -/
def report (result : Except ConversionError String) : Report :=
  match result with
  | .ok text => ⟨exitCode result, text, none⟩
  | .error error => ⟨exitCode result, "", some error⟩

end Conversion
end ContractDoc
