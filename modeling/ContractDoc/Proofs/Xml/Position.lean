import ContractDoc.Proofs.Text.LineCursor
import ContractDoc.Proofs.Xml.Layout
import ContractDoc.Proofs.Xml.Lockstep

/-! # Documents by position

The lines of a tree, and the line of an error, are made from byte positions by one function alone,
and it is only passed around. So what another function makes of the same positions stands in the
same places, and the line of an error is the line of some position.
-/

namespace ContractDoc.Xml

namespace Lexeme

/-- The lexemes of tokens that follow each other from a byte position on, with what `lineOf` makes
of the positions in the place of lines. -/
def placed (lineOf : Nat → UInt32) (position : Nat) : List Token → List Lexeme
  | [] => []
  | token :: tokens =>
      ⟨token, lineOf position, lineOf (position + Text.byteLength token.source)⟩ ::
        placed lineOf (position + Text.byteLength token.source) tokens

theorem map_token_placed (lineOf : Nat → UInt32) (position : Nat) (tokens : List Token) :
    (placed lineOf position tokens).map token = tokens := by
  induction tokens generalizing position with
  | nil => rfl
  | cons first rest ih => rw [placed, List.map_cons, ih]

theorem placed_append (lineOf : Nat → UInt32) (position : Nat) (before after : List Token) :
    placed lineOf position (before ++ after) =
      placed lineOf position before ++
        placed lineOf (position + Text.byteLength (before.flatMap Token.source)) after := by
  induction before generalizing position with
  | nil => rfl
  | cons first rest ih =>
      rw [List.cons_append, placed, ih, placed, List.cons_append, List.flatMap_cons,
        Text.byteLength_append, Nat.add_assoc]

/-- Only the positions up to the end of the last token count. -/
theorem placed_congr {lineOf lineOf' : Nat → UInt32} {position : Nat} {tokens : List Token}
    (h : ∀ p ≤ position + Text.byteLength (tokens.flatMap Token.source), lineOf p = lineOf' p) :
    placed lineOf position tokens = placed lineOf' position tokens := by
  induction tokens generalizing position with
  | nil => rfl
  | cons first rest ih =>
      rw [List.flatMap_cons, Text.byteLength_append] at h
      have hRest : placed lineOf (position + Text.byteLength first.source) rest =
          placed lineOf' (position + Text.byteLength first.source) rest :=
        ih fun p hp => h p (by omega)
      rw [placed, placed, hRest, h position (by omega), h _ (by omega)]

theorem locateFrom_reaching (bytes : List UInt8) (position : Nat) (done : List Lexeme)
    (tokens : List Token) :
    locateFrom (.reaching bytes position) position done tokens =
      done.reverse ++ placed (Text.lineAt bytes) position tokens := by
  induction tokens generalizing position done with
  | nil => simp [locateFrom, placed]
  | cons first rest ih =>
      have hStart := Text.LineCursor.advanceTo_reaching bytes position position
      have hStop := Text.LineCursor.advanceTo_reaching bytes position
        (position + Text.byteLength first.source)
      rw [Nat.max_self] at hStart
      rw [Nat.max_eq_right (Nat.le_add_right _ _)] at hStop
      simp only [locateFrom, hStart, hStop, ih]
      simp [placed, Text.LineCursor.reaching]

/-- The lines in a text are those of the byte positions behind its byte order mark, counted from
its very start. -/
theorem ofText_eq_placed (text : String) :
    ofText text =
      placed (Text.lineAt (Text.utf8 text.toList)) 0 (Token.cut (withoutMark text.toList)) := by
  rw [ofText, Text.LineCursor.ofText_eq_reaching, locateFrom_reaching]
  rfl

theorem withoutMark_eq_self {cs : List Char} (h : cs.head? ≠ some byteOrderMark) :
    withoutMark cs = cs := by
  cases cs with
  | nil => rfl
  | cons c cs => exact if_neg fun hMark => h (congrArg some hMark)

def relocate (f : UInt32 → UInt32) (lexeme : Lexeme) : Lexeme :=
  ⟨lexeme.token, f lexeme.line, f lexeme.endLine⟩

theorem placed_comp (f : UInt32 → UInt32) (lineOf : Nat → UInt32) (position : Nat)
    (tokens : List Token) :
    placed (f ∘ lineOf) position tokens = (placed lineOf position tokens).map (relocate f) := by
  induction tokens generalizing position with
  | nil => rfl
  | cons first rest ih =>
      rw [placed, placed, List.map_cons, ← ih]
      rfl

end Lexeme

def OpenElement.relocate (f : UInt32 → UInt32) (element : OpenElement) : OpenElement :=
  { element with children := element.children.map (Element.relocate f), line := f element.line }

def Builder.relocate (f : UInt32 → UInt32) (builder : Builder) : Builder :=
  ⟨builder.opened.map (OpenElement.relocate f), builder.root.map (Element.relocate f)⟩

variable (f : UInt32 → UInt32)

theorem OpenElement.close_relocate (element : OpenElement) :
    (element.relocate f).close = element.close.relocate f := by
  simp only [close, relocate, Element.relocate, Element.relocateAll_eq_map, List.map_reverse]
  rfl

theorem OpenElement.ofTag_relocate (tag : RawTag) (scope : Scope) (line : UInt32) :
    ofTag tag scope (f line) =
      relocate f <$> (ofTag tag scope line).mapError (DocumentError.relocate f) := by
  rw [ofTag, ofTag]
  cases tag.resolve scope <;> rfl

namespace Builder

theorem scope_relocate (builder : Builder) : (builder.relocate f).scope = builder.scope := by
  obtain ⟨opened, root⟩ := builder
  cases opened <;> rfl

theorem addText_relocate (builder : Builder) (text : List Char) :
    (builder.relocate f).addText text = (builder.addText text).relocate f := by
  obtain ⟨opened, root⟩ := builder
  cases opened <;> rfl

theorem attach_relocate (builder : Builder) (element : Element) :
    (builder.relocate f).attach (element.relocate f) =
      relocate f <$> (builder.attach element).mapError (DocumentError.relocate f) := by
  obtain ⟨opened, root⟩ := builder
  cases opened with
  | cons parent outer => rfl
  | nil =>
      cases root with
      | none => rfl
      | some other => simp [attach, relocate, DocumentError.relocate]

theorem begin_relocate (builder : Builder) (content : List Char) (line endLine : UInt32) :
    (builder.relocate f).begin content (f line) (f endLine) =
      OpenElement.relocate f <$>
        (builder.begin content line endLine).mapError (DocumentError.relocate f) := by
  have hLength : (builder.relocate f).opened.length = builder.opened.length := List.length_map ..
  simp only [begin, scope_relocate, hLength]
  cases builder.scope.declare (RawTag.ofContent content).attributes with
  | error fault => rfl
  | ok scope =>
      simp only [Outcome.mapError_ok, Outcome.ok_bind]
      split
      · rfl
      · exact OpenElement.ofTag_relocate f (RawTag.ofContent content) scope line

theorem closeNamed_relocate (builder : Builder) (name : List Char) (endLine : UInt32) :
    (builder.relocate f).closeNamed name (f endLine) =
      relocate f <$> (builder.closeNamed name endLine).mapError (DocumentError.relocate f) := by
  obtain ⟨opened, root⟩ := builder
  cases opened with
  | nil => rfl
  | cons innermost outer =>
      have hAttach := attach_relocate f ⟨outer, root⟩ innermost.close
      rw [← OpenElement.close_relocate] at hAttach
      by_cases hName : innermost.rawName = name
      · simpa [closeNamed, relocate, OpenElement.relocate, hName] using hAttach
      · simp [closeNamed, relocate, OpenElement.relocate, hName, DocumentError.relocate]

/-- Taking in a lexeme on another line changes the lines of the outcome alone. -/
theorem step_relocate (builder : Builder) (lexeme : Lexeme) :
    (builder.relocate f).step (lexeme.relocate f) =
      relocate f <$> (builder.step lexeme).mapError (DocumentError.relocate f) := by
  obtain ⟨token, line, endLine⟩ := lexeme
  cases token with
  | text run =>
      have hEmpty : (builder.relocate f).opened.isEmpty = builder.opened.isEmpty :=
        List.isEmpty_map
      simp only [step, Lexeme.relocate, hEmpty]
      split
      · rfl
      · cases Reference.decode run with
        | error fault => rfl
        | ok chars => simp [addText_relocate]
  | cdata content => simp [step, Lexeme.relocate, addText_relocate]
  | startTag content =>
      simp only [step, Lexeme.relocate, begin_relocate]
      cases builder.begin content line endLine <;> rfl
  | emptyTag content =>
      simp only [step, Lexeme.relocate, begin_relocate]
      cases builder.begin content line endLine with
      | error error => rfl
      | ok element => simp [OpenElement.close_relocate, attach_relocate]
  | endTag content => exact closeNamed_relocate f builder (endName content) endLine
  | comment body | instruction body | doctype body | broken fault read => rfl

theorem finish_relocate (builder : Builder) :
    (builder.relocate f).finish =
      Element.relocate f <$> builder.finish.mapError (DocumentError.relocate f) := by
  obtain ⟨opened, root⟩ := builder
  cases opened <;> cases root <;> rfl

theorem foldlM_relocate (lexemes : List Lexeme) :
    (lexemes.map (Lexeme.relocate f)).foldlM step .empty =
      relocate f <$> (lexemes.foldlM step .empty).mapError (DocumentError.relocate f) :=
  Outcome.map_mapError_foldlM (step_relocate f) lexemes .empty

/-- Whether tokens are taken in, and how many elements are open then, does not depend on lines. -/
theorem exists_foldlM_placed {lineOf : Nat → UInt32} {position : Nat} {tokens : List Token}
    {reached : Builder}
    (h : (Lexeme.placed lineOf position tokens).foldlM step .empty = .ok reached)
    (lineOf' : Nat → UInt32) :
    ∃ other, (Lexeme.placed lineOf' position tokens).foldlM step .empty = .ok other ∧
      other.opened.length = reached.opened.length := by
  -- Both runs are the run without lines, once the lines are taken away.
  have hUnplaced (lineOf : Nat → UInt32) := foldlM_relocate (fun _ => 0)
    (Lexeme.placed lineOf position tokens)
  simp only [← Lexeme.placed_comp] at hUnplaced
  have hSame := (hUnplaced lineOf).symm.trans (hUnplaced lineOf')
  rw [h] at hSame
  obtain ⟨other, hOther, hBuilder⟩ := Outcome.map_eq_ok_iff.1 hSame.symm
  refine ⟨other, Outcome.mapError_eq_ok_iff.1 hOther, ?_⟩
  simpa [relocate] using congrArg (fun builder => builder.opened.length) hBuilder

end Builder

namespace Document

theorem ofLexemes_relocate (lexemes : List Lexeme) :
    ofLexemes (lexemes.map (Lexeme.relocate f)) =
      Element.relocate f <$> (ofLexemes lexemes).mapError (DocumentError.relocate f) := by
  rw [ofLexemes_eq, ofLexemes_eq, Builder.foldlM_relocate]
  exact Outcome.map_mapError_bind (Builder.finish_relocate f)

/-- The element tree of tokens on the lines that are given to their positions. -/
def ofTokens (lineOf : Nat → UInt32) (tokens : List Token) : Except DocumentError Element :=
  ofLexemes (Lexeme.placed lineOf 0 tokens)

theorem parse_eq_ofTokens (text : String) :
    parse text = ofTokens (Text.lineAt (Text.utf8 text.toList))
      (Token.cut (Lexeme.withoutMark text.toList)) := by
  rw [parse, Lexeme.ofText_eq_placed, ofTokens]

theorem ofTokens_comp (lineOf : Nat → UInt32) (tokens : List Token) :
    ofTokens (f ∘ lineOf) tokens =
      Element.relocate f <$> (ofTokens lineOf tokens).mapError (DocumentError.relocate f) := by
  rw [ofTokens, Lexeme.placed_comp, ofLexemes_relocate, ofTokens]

end Document
end Xml

namespace DocumentError

theorem line?_relocate (f : UInt32 → UInt32) (error : DocumentError) :
    (error.relocate f).line? = error.line?.map f := by
  cases error <;> rfl

theorem relocate_id (error : DocumentError) : error.relocate id = error := by
  rcases error with ⟨defect, line⟩ | literal | ⟨fault, line⟩
  · rw [relocate, Option.map_id_fun, id]
  · rfl
  · rfl

theorem relocate_relocate (f g : UInt32 → UInt32) (error : DocumentError) :
    (error.relocate f).relocate g = error.relocate (g ∘ f) := by
  rcases error with ⟨defect, line⟩ | literal | ⟨fault, line⟩
  · rw [relocate, relocate, relocate, Option.map_map]
  · rfl
  · rfl

theorem relocate_congr {f g : UInt32 → UInt32} {error : DocumentError}
    (h : error.line?.map f = error.line?.map g) : error.relocate f = error.relocate g := by
  rcases error with ⟨defect, line⟩ | literal | ⟨fault, line⟩
  · exact congrArg (invalid defect) h
  · rfl
  · exact congrArg (malformed fault) (Option.some.inj h)

/-- Errors that differ in their lines alone are the same on one line. -/
theorem relocate_const_eq {first second : DocumentError} {line : UInt32}
    (hSame : first.relocate (fun _ => 0) = second.relocate fun _ => 0)
    (hLine : second.line?.map (fun _ => line) = second.line?) :
    first.relocate (fun _ => line) = second :=
  calc first.relocate (fun _ => line)
    _ = (first.relocate fun _ => 0).relocate fun _ => line :=
      (relocate_relocate (fun _ => 0) (fun _ => line) first).symm
    _ = (second.relocate fun _ => 0).relocate fun _ => line := by rw [hSame]
    _ = second.relocate fun _ => line := relocate_relocate (fun _ => 0) (fun _ => line) second
    _ = second.relocate id := relocate_congr (by rw [hLine, Option.map_id_fun, id])
    _ = second := relocate_id second

end DocumentError

/-- Two outcomes by position: what is read is alike, and an error is the same one, on the lines that
two functions give to one position. -/
inductive AgreeByPosition {α : Type} (f g : Nat → UInt32) (Alike : α → α → Prop) :
    Except DocumentError α → Except DocumentError α → Prop
  | ok {first second : α} : Alike first second → AgreeByPosition f g Alike (.ok first) (.ok second)
  | error (error : DocumentError) (position : Nat) :
      AgreeByPosition f g Alike (.error (error.relocate fun _ => f position))
        (.error (error.relocate fun _ => g position))

/-- A run that is told the line of every position. All it does with lines is to report one: other
lines lead to the same outcome up to the line of the error. -/
def PassesLines {α : Type} (run : (Nat → UInt32) → Except DocumentError α) : Prop :=
  ∀ (f : UInt32 → UInt32) (lineOf : Nat → UInt32),
    run (f ∘ lineOf) = (run lineOf).mapError (DocumentError.relocate f)

namespace PassesLines

variable {α : Type} {run : (Nat → UInt32) → Except DocumentError α} {f g : Nat → UInt32}

theorem eq_ok (h : PassesLines run) {a : α} (hRun : run f = .ok a) : run g = .ok a := by
  have hSame : (run f).mapError (DocumentError.relocate fun _ => 0) =
      (run g).mapError (DocumentError.relocate fun _ => 0) :=
    (h (fun _ => 0) f).symm.trans (h (fun _ => 0) g)
  rw [hRun] at hSame
  exact Outcome.mapError_eq_ok_iff.1 hSame.symm

theorem exists_eq_error (h : PassesLines run) {error : DocumentError} (hRun : run f = .error error)
    (g : Nat → UInt32) : ∃ other, run g = .error other := by
  cases hOther : run g with
  | ok a => cases hRun.symm.trans (h.eq_ok hOther)
  | error other => exact ⟨other, rfl⟩

theorem relocate_eq (h : PassesLines run) {error other : DocumentError}
    (hRun : run f = .error error) (hOther : run g = .error other) (p q : UInt32 → UInt32)
    (hSame : p ∘ f = q ∘ g) : error.relocate p = other.relocate q := by
  have hRuns := (h p f).symm.trans ((congrArg run hSame).trans (h q g))
  rw [hRun, hOther] at hRuns
  exact Except.error.inj hRuns

/-- The line on which a run fails, once it is told for every position only whether it is there. -/
theorem line?_eq_of_mark (h : PassesLines run) {error other : DocumentError} {line mark : UInt32}
    {marks : Nat → UInt32} (hRun : run f = .error error) (hOther : run marks = .error other)
    (hLine : error.line? = some line) (hMarks : ∀ p, marks p = mark ↔ f p = line) :
    other.line? = some mark := by
  have hSame : (fun x => if x = mark then 1 else 0 : UInt32 → UInt32) ∘ marks =
      (fun x => if x = line then 1 else 0) ∘ f :=
    funext fun p => if_congr (hMarks p) rfl rfl
  have hMap := congrArg DocumentError.line? (h.relocate_eq hOther hRun _ _ hSame)
  rw [DocumentError.line?_relocate, DocumentError.line?_relocate, hLine, Option.map_some,
    if_pos rfl] at hMap
  obtain ⟨reported, hReported, hMark⟩ := Option.map_eq_some_iff.1 hMap
  by_cases hEq : reported = mark
  · rw [hReported, hEq]
  · rw [if_neg hEq] at hMark
    exact absurd hMark (by decide)

/-- Where two runs fail on lines, there is one position that has both lines. Otherwise the two lines
could be marked apart, and a run with these marks would have to report both. -/
theorem exists_position (h : PassesLines run) {error other : DocumentError} {line line' : UInt32}
    (hRun : run f = .error error) (hOther : run g = .error other)
    (hLine : error.line? = some line) (hLine' : other.line? = some line') :
    ∃ position, f position = line ∧ g position = line' := by
  by_contra hNone
  have hApart (p : Nat) (hf : f p = line) : g p ≠ line' := fun hg => hNone ⟨p, hf, hg⟩
  let marks (p : Nat) : UInt32 := if f p = line then 1 else if g p = line' then 2 else 0
  obtain ⟨marked, hMarked⟩ := h.exists_eq_error hRun marks
  have hFirst : marked.line? = some 1 := by
    refine h.line?_eq_of_mark hRun hMarked hLine fun p => ?_
    by_cases hf : f p = line <;> by_cases hg : g p = line' <;> simp [marks, hf, hg]
  have hSecond : marked.line? = some 2 := by
    refine h.line?_eq_of_mark hOther hMarked hLine' fun p => ?_
    by_cases hf : f p = line
    · simp [marks, hf, hApart p hf]
    · simp [marks, hf]
  exact absurd (Option.some.inj (hFirst.symm.trans hSecond)) (by decide)

theorem agreeByPosition (h : PassesLines run) (f g : Nat → UInt32) :
    AgreeByPosition f g Eq (run f) (run g) := by
  cases hRun : run f with
  | ok a =>
      rw [h.eq_ok hRun]
      exact .ok rfl
  | error error =>
      obtain ⟨other, hOther⟩ := h.exists_eq_error hRun g
      have hSame := h.relocate_eq hRun hOther (fun _ => 0) (fun _ => 0) rfl
      have hLines := congrArg DocumentError.line? hSame
      rw [DocumentError.line?_relocate, DocumentError.line?_relocate] at hLines
      obtain ⟨position, hf, hg⟩ : ∃ position,
          error.line?.map (fun _ => f position) = error.line? ∧
            other.line?.map (fun _ => g position) = other.line? := by
        cases hLine : error.line? with
        | none =>
            rw [hLine, Option.map_none, eq_comm, Option.map_eq_none_iff] at hLines
            exact ⟨0, rfl, by rw [hLines, Option.map_none]⟩
        | some line =>
            rw [hLine, Option.map_some, eq_comm, Option.map_eq_some_iff] at hLines
            obtain ⟨line', hLine', -⟩ := hLines
            obtain ⟨position, rfl, rfl⟩ := h.exists_position hRun hOther hLine hLine'
            exact ⟨position, rfl, by rw [hLine', Option.map_some]⟩
      rw [hOther]
      have hFirst := DocumentError.relocate_const_eq rfl hf
      have hSecond := DocumentError.relocate_const_eq hSame hg
      conv => arg 4; rw [← hFirst]
      rw [← hSecond]
      exact .error error position

end PassesLines
end ContractDoc
