import ContractDoc.Proofs.Contract.Reading
import ContractDoc.Proofs.Contract.ToJson
import ContractDoc.Proofs.PrettyJson
import Mathlib.Data.List.TakeWhile

/-! # What a conversion comes to

The file argument, the file and its text are checked in this order, and the first thing that is
wrong is the error. A contract is printed as a whole, and only if nothing is wrong.
-/

namespace ContractDoc

namespace FileName

theorem partsFrom_of_not_mem {current cs : List Char} (h : '/' ∉ cs) :
    partsFrom current cs = [current.reverse ++ cs] := by
  induction cs generalizing current with
  | nil => rw [partsFrom, List.append_nil]
  | cons c cs ih =>
      rw [List.mem_cons, not_or] at h
      rw [partsFrom, if_neg (Ne.symm h.1), ih h.2, List.reverse_cons, List.append_assoc,
        List.singleton_append]

/-- A path without slashes is the name of a file, unless it is made of at most two dots. -/
theorem ofPath?_of_not_mem {name : List Char} (h : '/' ∉ name) :
    ofPath? name = if name ∈ [[], ['.'], ['.', '.']] then none else some name := by
  rw [ofPath?, parts, partsFrom_of_not_mem h, List.reverse_nil, List.nil_append]
  split
  · next hDots =>
      clear h
      revert name
      decide
  · next hDots =>
      simp only [List.mem_cons, List.not_mem_nil, or_false, not_or] at hDots
      rw [List.filter_cons_of_pos (by simp [hDots]), List.filter_nil, List.getLast?_singleton,
        Option.bind_some, if_neg hDots.2.2]

/-- The extension follows the last dot, and something has to stand before that dot. -/
theorem extension?_eq_some_iff {name extension : List Char} :
    extension? name = some extension ↔
      ∃ stem, name = stem ++ '.' :: extension ∧ stem ≠ [] ∧ '.' ∉ extension := by
  constructor
  · intro h
    -- the name from its end: the extension, and then the last dot, if there is one
    have hName := List.takeWhile_append_dropWhile (p := (· != '.')) (l := name.reverse)
    have hDot := List.head?_dropWhile_not (· != '.') name.reverse
    have hTail : ∀ c ∈ name.reverse.takeWhile (· != '.'), (c != '.') = true :=
      fun c hc => List.mem_takeWhile_imp (p := (· != '.')) hc
    unfold extension? at h
    generalize name.reverse.takeWhile (· != '.') = tail at hName hTail h
    split at h
    · next dot last front hFront =>
        rw [hFront] at hName hDot
        obtain rfl : dot = '.' := by simpa using hDot
        obtain rfl := Option.some.inj h
        refine ⟨(last :: front).reverse, ?_, by simp, ?_⟩
        · rw [← List.reverse_reverse name, ← hName]
          simp
        · intro hMem
          simpa using hTail '.' (List.mem_reverse.1 hMem)
    · cases h
  · rintro ⟨stem, rfl, hStem, hExtension⟩
    have hReverse : ∀ c ∈ extension.reverse, (c != '.') = true := by
      intro c hc
      rw [bne_iff_ne]
      rintro rfl
      exact hExtension (List.mem_reverse.1 hc)
    have hName : (stem ++ '.' :: extension).reverse = extension.reverse ++ '.' :: stem.reverse := by
      simp
    obtain ⟨last, rest, hLast⟩ := List.exists_cons_of_ne_nil (List.reverse_ne_nil_iff.2 hStem)
    rw [extension?, hName, List.dropWhile_append_of_pos hReverse,
      List.takeWhile_append_of_pos hReverse, hLast]
    simp

end FileName

namespace Conversion

/-- A name that has something before its last dot and one of the two extensions after it. -/
def IsContractFile (name : String) : Prop :=
  ∃ stem extension, name = stem ++ "." ++ extension ∧ stem ≠ "" ∧
    (extension = "dascontract" ∨ extension = "xml")

theorem isContractFile_iff {name : String} : IsContractFile name ↔
    ∃ extension ∈ extensions, FileName.extension? name.toList = some extension.toList := by
  simp only [FileName.extension?_eq_some_iff]
  constructor
  · rintro ⟨stem, extension, rfl, hStem, hKnown⟩
    have hMem : extension ∈ extensions := by simpa [extensions] using hKnown
    have hNoDot : ∀ extension ∈ extensions, '.' ∉ extension.toList := by decide
    exact ⟨extension, hMem, stem.toList, by simp, by simpa using hStem, hNoDot extension hMem⟩
  · rintro ⟨extension, hMem, stem, hName, hStem, -⟩
    refine ⟨String.ofList stem, extension, ?_, by simpa using hStem,
      by simpa [extensions] using hMem⟩
    rw [← String.toList_inj, hName]
    simp

theorem isSupported_iff {name : String} (h : '/' ∉ name.toList) :
    isSupported name = true ↔ IsContractFile name := by
  rw [isContractFile_iff, isSupported, FileName.ofPath?_of_not_mem h]
  by_cases hDots : name.toList ∈ [[], ['.'], ['.', '.']]
  · have hNone : ∀ dots ∈ [[], ['.'], ['.', '.']], ∀ extension ∈ extensions,
        FileName.extension? dots ≠ some extension.toList := by decide
    rw [if_pos hDots]
    simpa using hNone name.toList hDots
  · rw [if_neg hDots, Option.bind_some]
    cases FileName.extension? name.toList with
    | none => simp
    | some found =>
        simp only [List.contains_iff_mem, Option.some.injEq]
        constructor
        · exact fun hMem => ⟨_, hMem, by simp⟩
        · rintro ⟨extension, hMem, rfl⟩
          simpa using hMem

/-- The file of that name can be opened and holds the text, or cannot be opened for the reason. -/
def Opens (access : String → Except String Source) (name : String) : Except String String → Prop
  | .ok text => ∃ source, access name = .ok source ∧ source.failure = none ∧ source.Encodes text
  | .error reason => access name = .error reason

/-- The text is that of the contract, in the layout of JSON over several lines, and a line feed. -/
def Shows (contract : Contract) (printed : String) : Prop :=
  ∃ text : String, Json.LaidOut 0 contract.toJson text.toList ∧ printed = text ++ "\n"

/-- What a conversion comes to by the first thing that is wrong. -/
inductive ComesTo (content : Except String String) : Option String → Report → Prop
  | noInputFile : ComesTo content none ⟨1, "", some .noInputFile⟩
  | unsupported {name : String} (hName : ¬ IsContractFile name) :
      ComesTo content (some name) ⟨1, "", some .unsupportedExtension⟩
  | missing {name reason : String} (hName : IsContractFile name)
      (hContent : content = .error reason) :
      ComesTo content (some name) ⟨1, "", some (.unreadable reason)⟩
  | refused {name text : String} {error : DocumentError} (hName : IsContractFile name)
      (hContent : content = .ok text) (hParse : Contract.parse text = .error error) :
      ComesTo content (some name) ⟨1, "", some (.refused error)⟩
  | printed {name text printed : String} {contract : Contract} (hName : IsContractFile name)
      (hContent : content = .ok text) (hParse : Contract.parse text = .ok contract)
      (hPrinted : Shows contract printed) : ComesTo content (some name) ⟨0, printed, none⟩

variable {content : Except String String} {argument : Option String} {result : Report}
  {access : String → Except String Source}

theorem shows_iff {contract : Contract} {printed : String} :
    Shows contract printed ↔ printed = contract.printed := by
  constructor
  · rintro ⟨text, hText, rfl⟩
    rw [hText.eq_pretty, Contract.printed]
  · rintro rfl
    exact ⟨_, Json.laidOut_pretty _, rfl⟩

/-- What is printed shows which contract it is. -/
theorem Shows.eq_iff {contract other : Contract} {printed : String} (h : Shows contract printed) :
    Shows other printed ↔ other = contract := by
  rw [shows_iff.1 h, shows_iff, Contract.printed, Contract.printed, String.append_left_inj,
    Json.pretty_injective.eq_iff, Contract.toJson_injective.eq_iff, eq_comm]

theorem comesTo_report
    (h : ∀ name ∈ argument, '/' ∉ name.toList ∧ (IsContractFile name → Opens access name content)) :
    ComesTo content argument (report (run argument access)) := by
  cases argument with
  | none => exact .noInputFile
  | some name =>
      obtain ⟨hPlain, hOpens⟩ := h name rfl
      by_cases hName : IsContractFile name
      · have hFile : inputFile (some name) = .ok name := by
          rw [inputFile, if_pos ((isSupported_iff hPlain).2 hName)]
        have hAccess := hOpens hName
        rw [run, hFile, Outcome.ok_bind]
        cases content with
        | error reason =>
            rw [Opens] at hAccess
            rw [hAccess]
            exact .missing hName rfl
        | ok text =>
            obtain ⟨source, hSource, hWhole, hText⟩ := hAccess
            rw [hSource, Outcome.mapError_ok, Outcome.ok_bind, Contract.output_eq,
              Contract.read_of_text_eq_ok (Source.text_of_encodes hWhole hText)]
            cases hParse : Contract.parse text with
            | error error => exact .refused hName rfl hParse
            | ok contract => exact .printed hName rfl hParse (shows_iff.2 rfl)
      · have hFile : inputFile (some name) = .error .unsupportedExtension := by
          rw [inputFile, if_neg fun hSupported => hName ((isSupported_iff hPlain).1 hSupported)]
        rw [run, hFile]
        exact .unsupported hName

theorem ComesTo.unique {other : Report} (h : ComesTo content argument result)
    (hOther : ComesTo content argument other) : result = other := by
  cases h <;> cases hOther <;> simp_all [shows_iff]

theorem ComesTo.shows {name text : String} {contract : Contract}
    (h : ComesTo content (some name) result) (hName : IsContractFile name)
    (hContent : content = .ok text) (hParse : Contract.parse text = .ok contract) :
    Shows contract result.printed := by
  have hPrinted : ComesTo content (some name) ⟨0, contract.printed, none⟩ :=
    .printed hName hContent hParse (shows_iff.2 rfl)
  rw [h.unique hPrinted, shows_iff]

theorem ComesTo.exitCode_eq_zero_iff (h : ComesTo content argument result) :
    result.exitCode = 0 ↔ ∃ name text contract, argument = some name ∧ IsContractFile name ∧
      content = .ok text ∧ Contract.parse text = .ok contract := by
  cases h with
  | printed hName hContent hParse hPrinted =>
      exact iff_of_true rfl ⟨_, _, _, rfl, hName, hContent, hParse⟩
  | noInputFile | unsupported | missing | refused => simp_all

theorem ComesTo.allOrNothing (h : ComesTo content argument result) :
    (result.exitCode = 0 ∧ result.error? = none) ∨
      (result.exitCode = 1 ∧ result.printed = "" ∧ result.error?.isSome) := by
  cases h with
  | printed => exact .inl ⟨rfl, rfl⟩
  | noInputFile | unsupported | missing | refused => exact .inr ⟨rfl, rfl, rfl⟩

/-- A conversion comes to one thing, which is the whole contract or nothing but an error. -/
structure Determined (content : Except String String) (argument : Option String)
    (result : Report) : Prop where
  outcome (other : Report) : ComesTo content argument other ↔ other = result
  succeeds : result.exitCode = 0 ↔ ∃ name text contract, argument = some name ∧
    IsContractFile name ∧ content = .ok text ∧ Contract.parse text = .ok contract
  allOrNothing : (result.exitCode = 0 ∧ result.error? = none) ∨
    (result.exitCode = 1 ∧ result.printed = "" ∧ result.error?.isSome)
  /-- What is printed for a contract is no text of another one. -/
  shows : ∀ name text contract, argument = some name → IsContractFile name → content = .ok text →
    Contract.parse text = .ok contract → ∀ other, Shows other result.printed ↔ other = contract

/-- Only a file with one of the extensions has to be one that can be opened or not. -/
theorem determined_report
    (h : ∀ name ∈ argument, '/' ∉ name.toList ∧ (IsContractFile name → Opens access name content)) :
    Determined content argument (report (run argument access)) := by
  have hReport := comesTo_report h
  refine ⟨fun other => ?_, hReport.exitCode_eq_zero_iff, hReport.allOrNothing, ?_⟩
  · constructor
    · exact fun hOther => hOther.unique hReport
    · rintro rfl
      exact hReport
  · rintro name text contract rfl hName hContent hParse other
    exact (hReport.shows hName hContent hParse).eq_iff

def shortText : String := "<EditorContract><Id>c</Id><DataModel/></EditorContract>"

theorem opens_ofText (name text : String) :
    Opens (fun _ => .ok (Source.ofText text)) name (.ok text) :=
  ⟨Source.ofText text, rfl, rfl, Source.encodes_ofText text⟩

theorem determined_shortText :
    Determined (.ok shortText) (some "order.v2.xml")
        (report (run (some "order.v2.xml") fun _ => .ok (Source.ofText shortText))) ∧
      ∃ contract, Contract.parse shortText = .ok contract := by
  constructor
  · apply determined_report
    rintro name hName
    obtain rfl := Option.some.inj hName
    exact ⟨by decide, fun _ => opens_ofText _ shortText⟩
  · exact ⟨⟨"c", none, [], .empty⟩, by decide +kernel⟩

end Conversion
end ContractDoc
