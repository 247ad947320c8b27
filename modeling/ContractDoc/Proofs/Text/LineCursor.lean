import Mathlib.Data.List.Count
import Mathlib.Order.Lattice
import ContractDoc.Text.LineCursor

/-! # Lines by direct counting

A cursor that was asked for several positions stands at the furthest of them. The line it knows is
one more than the number of line feeds before it, however it came there. This is so in 32 bits for
every text. As long as 32 bits hold every line, it is so of the numbers themselves, and lines go up
with the positions.
-/

namespace ContractDoc.Text

/-- The line of a byte position: one more than the number of line feeds in the bytes before it. -/
def lineAt (bytes : List UInt8) (position : Nat) : UInt32 :=
  1 + UInt32.ofNat ((bytes.take position).count LineCursor.lineFeed)

/-- So few line feeds that 32 bits hold every line. -/
def FewLines (bytes : List UInt8) : Prop := 1 + bytes.count LineCursor.lineFeed < UInt32.size

instance (bytes : List UInt8) : Decidable (FewLines bytes) :=
  inferInstanceAs (Decidable (1 + bytes.count LineCursor.lineFeed < UInt32.size))

@[simp] theorem utf8_append (cs ds : List Char) : utf8 (cs ++ ds) = utf8 cs ++ utf8 ds :=
  List.flatMap_append

theorem lineAt_append {bytes : List UInt8} {position : Nat} (h : position ≤ bytes.length)
    (more : List UInt8) : lineAt (bytes ++ more) position = lineAt bytes position := by
  rw [lineAt, List.take_append_of_le_length h, lineAt]

theorem count_take_le (bytes : List UInt8) (position : Nat) :
    (bytes.take position).count LineCursor.lineFeed ≤ bytes.count LineCursor.lineFeed :=
  (List.take_sublist position bytes).count_le LineCursor.lineFeed

theorem toNat_one_add_ofNat (n : Nat) : (1 + UInt32.ofNat n).toNat = (1 + n) % UInt32.size := by
  rw [UInt32.toNat_add, UInt32.toNat_ofNat', Nat.add_mod_mod]
  rfl

/-- With few line feeds, nothing wraps around. -/
theorem FewLines.toNat_lineAt {bytes : List UInt8} (h : FewLines bytes) (position : Nat) :
    (lineAt bytes position).toNat = 1 + (bytes.take position).count LineCursor.lineFeed := by
  rw [lineAt, toNat_one_add_ofNat, Nat.mod_eq_of_lt]
  exact (Nat.add_le_add_left (count_take_le bytes position) 1).trans_lt h

theorem take_utf8_byteLength {text front rest : List Char} (h : text = front ++ rest) :
    (utf8 text).take (byteLength front) = utf8 front := by
  rw [h, utf8_append, ← length_utf8, List.take_left]

theorem lineAt_byteLength {text front rest : List Char} (h : text = front ++ rest) :
    lineAt (utf8 text) (byteLength front) =
      1 + UInt32.ofNat ((utf8 front).count LineCursor.lineFeed) := by
  rw [lineAt, take_utf8_byteLength h]

theorem FewLines.toNat_lineAt_byteLength {text front rest : List Char}
    (hFew : FewLines (utf8 text)) (h : text = front ++ rest) :
    (lineAt (utf8 text) (byteLength front)).toNat =
      1 + (utf8 front).count LineCursor.lineFeed := by
  rw [hFew.toNat_lineAt, take_utf8_byteLength h]

theorem FewLines.lineAt_mono {bytes : List UInt8} (h : FewLines bytes) {first second : Nat}
    (hLe : first ≤ second) : lineAt bytes first ≤ lineAt bytes second := by
  rw [UInt32.le_iff_toNat_le, h.toNat_lineAt, h.toNat_lineAt]
  apply Nat.add_le_add_left
  exact (List.take_prefix_take_left hLe).sublist.count_le LineCursor.lineFeed

/-- Bytes without a line feed at the start of a text only move the lines behind them. -/
theorem lineAt_append_left {front : List UInt8} (h : LineCursor.lineFeed ∉ front)
    (bytes : List UInt8) (position : Nat) :
    lineAt (front ++ bytes) position = lineAt bytes (position - front.length) := by
  have hFront : (front.take position).count LineCursor.lineFeed = 0 :=
    List.count_eq_zero.2 fun hMem => h (List.mem_of_mem_take hMem)
  rw [lineAt, List.take_append, List.count_append, hFront, Nat.zero_add, lineAt]

/-- Characters without a line feed are on the first line when a text begins with them. -/
theorem lineAt_front {front : List Char} (h : LineCursor.lineFeed ∉ utf8 front) {position : Nat}
    (hPosition : position ≤ byteLength front) (rest : List Char) :
    lineAt (utf8 (front ++ rest)) position = 1 := by
  rw [← length_utf8] at hPosition
  rw [utf8_append, lineAt_append hPosition, lineAt, List.count_eq_zero.2]
  · rfl
  · exact fun hMem => h (List.mem_of_mem_take hMem)

namespace LineCursor

/-- The cursor of a text when `reached` is the furthest position that it was asked for. -/
def reaching (bytes : List UInt8) (reached : Nat) : LineCursor :=
  ⟨bytes.drop reached, min reached bytes.length, lineAt bytes reached⟩

theorem ofText_eq_reaching (text : String) : ofText text = reaching (utf8 text.toList) 0 := by
  simp [ofText, reaching, lineAt]

theorem take_max (bytes : List UInt8) (reached position : Nat) :
    bytes.take (max reached position) =
      bytes.take reached ++ (bytes.drop reached).take (position - min reached bytes.length) := by
  rcases Nat.le_total reached bytes.length with h | h
  · rw [Nat.min_eq_left h, ← List.take_add]
    congr 1
    omega
  · rw [List.drop_eq_nil_of_le h, List.take_nil, List.append_nil, List.take_of_length_le h]
    exact List.take_of_length_le (h.trans (Nat.le_max_left reached position))

theorem advanceTo_reaching (bytes : List UInt8) (reached position : Nat) :
    (reaching bytes reached).advanceTo position = reaching bytes (max reached position) := by
  have hTake := take_max bytes reached position
  have hLength := congrArg List.length hTake
  have hDrop : (bytes.drop reached).drop (position - min reached bytes.length) =
      bytes.drop (max reached position) := by
    rw [List.drop_drop]
    rcases Nat.le_total reached bytes.length with h | h
    · congr 1
      omega
    · rw [List.drop_eq_nil_of_le (by omega), List.drop_eq_nil_of_le (by omega)]
  have hOffset : min reached bytes.length +
      ((bytes.drop reached).take (position - min reached bytes.length)).length =
        min (max reached position) bytes.length := by
    simpa using hLength.symm
  have hLine : lineAt bytes reached + UInt32.ofNat
      (((bytes.drop reached).take (position - min reached bytes.length)).count lineFeed) =
        lineAt bytes (max reached position) := by
    rw [lineAt, lineAt, hTake, List.count_append, UInt32.ofNat_add, UInt32.add_assoc]
  simp only [advanceTo, reaching, hDrop, hOffset, hLine]

/-- The lines that a cursor gives when it is asked for positions, one after the other. -/
def answers (cursor : LineCursor) : List Nat → List UInt32
  | [] => []
  | position :: positions =>
      (cursor.advanceTo position).line :: (cursor.advanceTo position).answers positions

variable {cursor : LineCursor} {positions : List Nat}

/-- Going on, going back, and going past the end. -/
example : (ofText "a\nb\n").answers [2, 0, 9, 1] = [2, 2, 3, 3] := by decide

end LineCursor
end ContractDoc.Text
