import ContractDoc.Conversion
import ContractDoc.Proofs.Outcome
import ContractDoc.Text.Utf8

/-! # Reading from sources

What is read from a source depends on its bytes as a whole and not on where the chunks are cut:
the bytes are the encoding of at most one text, and a failure of the source comes before it.
-/

namespace ContractDoc

namespace Source

def content (source : Source) : List UInt8 :=
  source.chunks.flatMap fun chunk => chunk.data.toList

/-- The bytes of the source are the encoding of the text, whatever chunks they come in. -/
def Encodes (source : Source) (text : String) : Prop := source.content = Text.utf8 text.toList

variable {source : Source} {text : String}

theorem toList_data_foldl_append (front : ByteArray) (chunks : List ByteArray) :
    (chunks.foldl (· ++ ·) front).data.toList =
      front.data.toList ++ chunks.flatMap fun chunk => chunk.data.toList := by
  induction chunks generalizing front with
  | nil => simp
  | cons chunk chunks ih => simp [ih]

theorem toList_data_bytes (source : Source) : source.bytes.data.toList = source.content :=
  toList_data_foldl_append ByteArray.empty source.chunks

theorem bytes_eq_iff {bytes : ByteArray} :
    source.bytes = bytes ↔ source.content = bytes.data.toList := by
  rw [← toList_data_bytes, ByteArray.ext_iff, Array.toList_inj]

theorem encodes_iff : source.Encodes text ↔ source.bytes = text.toByteArray := by
  rw [bytes_eq_iff, Encodes, ← String.utf8Encode_toList]
  simp [List.utf8Encode, Text.utf8]

theorem encodes_ofText (text : String) : (ofText text).Encodes text := by
  rw [encodes_iff, bytes, ofText, List.foldl_cons, List.foldl_nil, ByteArray.empty_append]
  rfl

/-- Decoding finds the text whose encoding the bytes are. -/
theorem fromUTF8?_bytes_eq_some_iff :
    String.fromUTF8? source.bytes = some text ↔ source.Encodes text := by
  rw [encodes_iff, String.fromUTF8?]
  constructor
  · intro h
    split at h
    · obtain rfl := Option.some.inj h
      rfl
    · cases h
  · intro h
    rw [h, dif_pos text.isValidUTF8]
    rfl

theorem fromUTF8?_bytes_eq_none_iff :
    String.fromUTF8? source.bytes = none ↔ ∀ text, ¬ source.Encodes text := by
  simp only [← fromUTF8?_bytes_eq_some_iff, Option.eq_none_iff_forall_ne_some, ne_eq]

theorem text_of_failure {reason : String} (h : source.failure = some reason) :
    source.text = .error reason := by
  rw [Source.text, h]

theorem text_of_encodes (hWhole : source.failure = none) (h : source.Encodes text) :
    source.text = .ok text := by
  simp only [Source.text, hWhole, fromUTF8?_bytes_eq_some_iff.2 h]

theorem text_of_not_encodes (hWhole : source.failure = none) (h : ∀ text, ¬ source.Encodes text) :
    source.text = .error notUtf8 := by
  simp only [Source.text, hWhole, fromUTF8?_bytes_eq_none_iff.2 h]

theorem text_congr {other : Source} (hContent : other.content = source.content)
    (hFailure : other.failure = source.failure) : other.text = source.text := by
  have hBytes : other.bytes = source.bytes := by
    rw [bytes_eq_iff, hContent, toList_data_bytes]
  rw [Source.text, Source.text, hBytes, hFailure]

end Source

namespace Contract

theorem read_of_text_eq_ok {source : Source} {text : String} (h : source.text = .ok text) :
    read source = (parse text).mapError .refused := by
  rw [read, h]
  rfl

theorem read_of_text_eq_error {source : Source} {reason : String}
    (h : source.text = .error reason) : read source = .error (.unreadable reason) := by
  rw [read, h]
  rfl

/-- A contract is read from a source as it is from the text that the bytes of the source encode. A
failure of the source comes first, then bytes that encode no text, and then what is wrong with the
text. -/
structure ReadsAsText (source : Source) : Prop where
  failed : ∀ reason, source.failure = some reason →
    read source = .error (.unreadable reason)
  decoded : source.failure = none → ∀ text, source.Encodes text → source.text = .ok text
  accepted : source.failure = none → ∀ text, source.Encodes text →
    ∀ contract, parse text = .ok contract → read source = .ok contract
  refused : source.failure = none → ∀ text, source.Encodes text →
    ∀ error, parse text = .error error → read source = .error (.refused error)
  undecodable : source.failure = none → (∀ text, ¬ source.Encodes text) →
    read source = .error (.unreadable "stream did not contain valid UTF-8")
  rechunked : ∀ other : Source, other.content = source.content →
    other.failure = source.failure → read other = read source

/-- However the bytes of a source are cut into chunks, the contract or the error is the one of the
text that they encode as a whole. -/
theorem readsAsText (source : Source) : ReadsAsText source where
  failed reason h := read_of_text_eq_error (Source.text_of_failure h)
  decoded hWhole text h := Source.text_of_encodes hWhole h
  accepted hWhole text h contract hParse := by
    rw [read_of_text_eq_ok (Source.text_of_encodes hWhole h), hParse]
    rfl
  refused hWhole text h error hParse := by
    rw [read_of_text_eq_ok (Source.text_of_encodes hWhole h), hParse]
    rfl
  undecodable hWhole h := read_of_text_eq_error (Source.text_of_not_encodes hWhole h)
  rechunked other hContent hFailure := by
    rw [read, read, Source.text_congr hContent hFailure]

/-- The two bytes of a character in two chunks, and the first of them alone. -/
example :
    read ⟨[⟨#[0xC3]⟩, ⟨#[0xA9]⟩], none⟩ = .error (.refused (.invalid .noRoot none)) ∧
      read ⟨[⟨#[0xC3]⟩, ⟨#[]⟩], none⟩ = .error (.unreadable Source.notUtf8) := by
  constructor <;> cbv

end Contract
end ContractDoc
