import ContractDoc.Proofs.Contract.Layout
import ContractDoc.Proofs.DataModel.Grammar
import ContractDoc.Proofs.Workflow.Declarations

/-! # The order of checks

A document is checked piece by piece. The checks have an order of their own, and the first one that
fails decides the error, whatever is wrong behind it.
-/

namespace ContractDoc

open Outcome (Succeeds error?)
open Workflow (Declarations Repeats duplicate readId)
open Xml (Element)

instance (earlier : List Element) (name id : String) : Decidable (Repeats earlier name id) :=
  inferInstanceAs (Decidable (∃ other ∈ earlier, other.name = name ∧ readId other = .ok id))

/-- A single check of a document. A declaration of a process section is checked against those before
it. -/
inductive Check
  | rootName
  | contractId
  | processId (process : Element)
  | isExecutable (process : Element)
  | declaration (earlier : List Element) (declaration : Element)
  | dataModel
  | dataType (declaration : Element)

namespace Check

/-- The error of a check that fails for the tree with the given root. -/
def failure? (root : Element) : Check → Option DocumentError
  | rootName =>
      if root.name = Tag.contract then none
      else some (root.defect (.wrongRoot Tag.contract root.name))
  | contractId =>
      if (root.child? Tag.id).isSome then none else some (root.defect .contractWithoutId)
  | processId process =>
      if (process.child? Tag.id).isSome then none else some (process.defect .processWithoutId)
  | isExecutable process =>
      (process.child? Tag.isExecutable).bind fun mark => error? mark.boolValue
  | declaration earlier latest =>
      match readId latest with
      | .error error => some error
      | .ok id => if Repeats earlier latest.name id then some (duplicate latest id) else none
  | dataModel =>
      if (root.firstDescendant? Tag.dataModel).isSome then none
      else some (.invalid .contractWithoutDataModel none)
  | dataType latest => error? (DataModel.DataType.ofXml? latest)

/-- The checks of declarations, each against those before it. -/
def ofDeclarations (earlier : List Element) : List Element → List Check
  | [] => []
  | first :: rest => declaration earlier first :: ofDeclarations (earlier ++ [first]) rest

def ofProcess (process : Element) : List Check :=
  processId process :: isExecutable process :: ofDeclarations [] (Workflow.declarations process)

def ofDataModel (model : Element) : List Check := (DataModel.declarations model).map dataType

/-- All checks of a document in their order. -/
def all (root : Element) : List Check :=
  rootName :: contractId ::
    ((root.descendantsNamed Tag.process).flatMap ofProcess ++
      dataModel :: (root.firstDescendant? Tag.dataModel).toList.flatMap ofDataModel)

end Check

namespace Workflow

variable {declaration : Element} {declared next : Declarations} {earlier : List Element}
  {id : String} {error : DocumentError}

namespace Declarations

/-- The ids in use are those of the declarations taken in so far. -/
def Files (declared : Declarations) (earlier : List Element) : Prop :=
  ∀ name, name = Tag.sequenceFlow ∨ name = Tag.flowNode →
    ∀ id, id ∈ declared.ids name ↔ Repeats earlier name id

theorem files_empty : Declarations.empty.Files [] := by
  rintro name (rfl | rfl) id <;> simp [Repeats, empty, Registry.ids, Registry.empty]

theorem Files.add (hFiles : declared.Files earlier) (hKind : isDeclaration declaration)
    (h : declared.add declaration = .ok next) : next.Files (earlier ++ [declaration]) := by
  intro name hName id
  rw [mem_ids_of_add hKind h hName, hFiles name hName, repeats_concat_iff]

theorem Files.error?_add (hFiles : declared.Files earlier) (hKind : isDeclaration declaration)
    (root : Element) :
    error? (declared.add declaration) = (Check.declaration earlier declaration).failure? root := by
  have hIds := hFiles declaration.name (isDeclaration_iff.1 hKind)
  rw [Declarations.error?_add hKind, Check.failure?]
  cases readId declaration with
  | error error => rfl
  | ok id => simp only [hIds id]

/-- The error of several declarations is that of the first check that fails. -/
theorem Files.error?_foldlM (root : Element) {declarations : List Element}
    (hKinds : ∀ declaration ∈ declarations, isDeclaration declaration)
    (hFiles : declared.Files earlier) :
    error? (declarations.foldlM Declarations.add declared) =
      (Check.ofDeclarations earlier declarations).findSome? (Check.failure? root) := by
  induction declarations generalizing declared earlier with
  | nil => rfl
  | cons first rest ih =>
      obtain ⟨hFirst, hRest⟩ := List.forall_mem_cons.1 hKinds
      -- the ids in use after the first declaration are those that the second is checked against
      rw [List.foldlM_cons,
        Outcome.error?_bind fun next hNext => ih hRest (hFiles.add hFirst hNext),
        hFiles.error?_add hFirst root, Check.ofDeclarations, Outcome.findSome?_cons_eq_or]

theorem error?_foldlM_descendants (root process : Element) :
    error? (process.descendants.foldlM Declarations.add .empty) =
      (Check.ofDeclarations [] (declarations process)).findSome? (Check.failure? root) := by
  rw [← foldlM_add_declarations]
  exact files_empty.error?_foldlM root fun declaration hDeclaration =>
    (List.mem_filter.1 hDeclaration).2

end Declarations

/-- All declarations can be read, and no id is repeated among flows or among nodes. -/
structure BuildApart (declarations : List Element) : Prop where
  build : ∀ declaration ∈ declarations, Succeeds (readId declaration)
  apart : declarations.Pairwise fun a b => a.name = b.name → readId a ≠ readId b

/-- A declaration behind others has an error of its own, or repeats an id of its kind. -/
inductive FailsBehind (earlier : List Element) (declaration : Element) : DocumentError → Prop
  | unread {error : DocumentError} :
      readId declaration = .error error → FailsBehind earlier declaration error
  | repeated {id : String} :
      readId declaration = .ok id → Repeats earlier declaration.name id →
      FailsBehind earlier declaration (duplicate declaration id)

theorem failure?_declaration_eq_some_iff (root : Element) :
    (Check.declaration earlier declaration).failure? root = some error ↔
      FailsBehind earlier declaration error := by
  rw [Check.failure?]
  constructor
  · intro h
    cases hRead : readId declaration with
    | error own =>
        rw [hRead] at h
        obtain rfl := Option.some.inj h
        exact .unread hRead
    | ok id =>
        simp only [hRead] at h
        split at h
        · next hRepeats =>
            obtain rfl := Option.some.inj h
            exact .repeated hRead hRepeats
        · cases h
  · rintro (hRead | ⟨hRead, hRepeats⟩)
    · simp [hRead]
    · simp [hRead, hRepeats]

theorem failure?_declaration_eq_none_iff (root : Element) :
    (Check.declaration earlier declaration).failure? root = none ↔
      ∃ id, readId declaration = .ok id ∧ ¬Repeats earlier declaration.name id := by
  rw [Check.failure?]
  cases readId declaration <;> simp

theorem exists_not_repeats_concat_iff {other : Element} :
    (∃ id, readId other = .ok id ∧ ¬Repeats (earlier ++ [declaration]) other.name id) ↔
      (∃ id, readId other = .ok id ∧ ¬Repeats earlier other.name id) ∧
        (declaration.name = other.name → readId declaration ≠ readId other) := by
  simp only [repeats_concat_iff, not_or, not_and]
  constructor
  · rintro ⟨id, hRead, hOld, hNew⟩
    exact ⟨⟨id, hRead, hOld⟩, fun hName => hRead ▸ hNew hName⟩
  · rintro ⟨⟨id, hRead, hOld⟩, hNew⟩
    exact ⟨id, hRead, hOld, fun hName => hRead ▸ hNew hName⟩

theorem forall_ofDeclarations_iff (root : Element) {declarations : List Element} :
    (∀ check ∈ Check.ofDeclarations earlier declarations, check.failure? root = none) ↔
      (∀ declaration ∈ declarations,
        ∃ id, readId declaration = .ok id ∧ ¬Repeats earlier declaration.name id) ∧
      declarations.Pairwise fun a b => a.name = b.name → readId a ≠ readId b := by
  induction declarations generalizing earlier with
  | nil => simp [Check.ofDeclarations]
  | cons first rest ih =>
      rw [Check.ofDeclarations, List.forall_mem_cons, ih, failure?_declaration_eq_none_iff,
        List.forall_mem_cons, List.pairwise_cons]
      simp only [exists_not_repeats_concat_iff, forall₂_and, and_assoc]

/-- The checks of the first declarations of a section are passed if these can stand together. -/
theorem passes_ofDeclarations_iff (root : Element) {declarations : List Element} :
    (∀ check ∈ Check.ofDeclarations [] declarations, check.failure? root = none) ↔
      BuildApart declarations := by
  have hNone (name id : String) : ¬Repeats [] name id := by simp [Repeats]
  simp only [forall_ofDeclarations_iff, hNone, not_false_eq_true, and_true]
  exact ⟨fun h => ⟨h.1, h.2⟩, fun h => ⟨h.build, h.apart⟩⟩

theorem ofDeclarations_append (before after : List Element) :
    Check.ofDeclarations earlier (before ++ after) =
      Check.ofDeclarations earlier before ++ Check.ofDeclarations (earlier ++ before) after := by
  induction before generalizing earlier with
  | nil => simp [Check.ofDeclarations]
  | cons first before ih => simp [Check.ofDeclarations, ih]

/-- Each of the checks is that of a declaration, with the checks of those before it in front. -/
theorem exists_split_of_ofDeclarations {declarations : List Element} {passed later : List Check}
    {check : Check} (h : Check.ofDeclarations earlier declarations = passed ++ check :: later) :
    ∃ before declaration after, declarations = before ++ declaration :: after ∧
      passed = Check.ofDeclarations earlier before ∧
        check = Check.declaration (earlier ++ before) declaration := by
  induction passed generalizing earlier declarations with
  | nil =>
      cases declarations with
      | nil => cases h
      | cons first rest =>
          obtain ⟨rfl, -⟩ := List.cons.inj h
          exact ⟨[], first, rest, rfl, rfl, by rw [List.append_nil]⟩
  | cons other passed ih =>
      cases declarations with
      | nil => cases h
      | cons first rest =>
          obtain ⟨rfl, hRest⟩ := List.cons.inj h
          obtain ⟨before, declaration, after, rfl, rfl, rfl⟩ := ih hRest
          exact ⟨first :: before, declaration, after, rfl, rfl, by rw [List.append_assoc]; rfl⟩

theorem findSome?_ofDeclarations_eq_some_iff (root : Element) {declarations : List Element} :
    (Check.ofDeclarations [] declarations).findSome? (Check.failure? root) = some error ↔
      ∃ before declaration after, declarations = before ++ declaration :: after ∧
        BuildApart before ∧ FailsBehind before declaration error := by
  simp only [← passes_ofDeclarations_iff root, ← failure?_declaration_eq_some_iff root]
  rw [List.findSome?_eq_some_iff]
  constructor
  · rintro ⟨passed, check, later, hSplit, hFails, hPasses⟩
    obtain ⟨before, declaration, after, rfl, rfl, rfl⟩ := exists_split_of_ofDeclarations hSplit
    exact ⟨before, declaration, after, rfl, hPasses, hFails⟩
  · rintro ⟨before, declaration, after, rfl, hPasses, hFails⟩
    exact ⟨_, _, _, ofDeclarations_append before _, hFails, hPasses⟩

/-- The error of a section comes from a declaration exactly if those before it can stand together
and it fails behind them. -/
theorem foldlM_add_eq_error_iff (process : Element) :
    process.descendants.foldlM Declarations.add .empty = .error error ↔
      ∃ before declaration after, declarations process = before ++ declaration :: after ∧
        BuildApart before ∧ FailsBehind before declaration error := by
  rw [← Outcome.error?_eq_some_iff, Declarations.error?_foldlM_descendants process,
    findSome?_ofDeclarations_eq_some_iff]

end Workflow

namespace Xml.Element

theorem error?_requireText (element : Element) (name : String) (missing : Defect) :
    error? (element.requireText name missing) =
      if (element.child? name).isSome then none else some (element.defect missing) := by
  rw [requireText, childText?]
  cases element.child? name <;> rfl

theorem error?_readChild? {α : Type} (element : Element) (name : String)
    (read : Element → Except DocumentError α) :
    error? (element.readChild? name read) =
      (element.child? name).bind fun child => error? (read child) := by
  rw [readChild?]
  cases element.child? name with
  | none => rfl
  | some child => exact Outcome.error?_exceptMap some (read child)

end Xml.Element

theorem Workflow.ProcessGraph.error?_ofXml (root process : Element) :
    error? (ofXml process) = (Check.ofProcess process).findSome? (Check.failure? root) := by
  rw [ofXml, Outcome.error?_bind fun id _ => Outcome.error?_bind fun mark _ =>
      Outcome.error?_bind_pure _ _, Element.error?_requireText, Element.error?_readChild?,
    Declarations.error?_foldlM_descendants root, Check.ofProcess, Outcome.findSome?_cons_eq_or,
    Outcome.findSome?_cons_eq_or]
  rfl

theorem DataModel.error?_ofXml (root declaration : Element) :
    error? (ofXml declaration) =
      (Check.ofDataModel declaration).findSome? (Check.failure? root) := by
  have hAdd (types : Registry DataType) (element : Element) :
      error? (addDeclaration types element) = error? (DataType.ofXml? element) := by
    rw [addDeclaration]
    cases DataType.ofXml? element with
    | error error => rfl
    | ok type? => cases type? <;> rfl
  rw [← foldlM_declarations, Outcome.error?_foldlM hAdd, Check.ofDataModel, List.findSome?_map]
  rfl

namespace Contract

theorem error?_mapM_process (root : Element) (processes : List Element) :
    error? (processes.mapM Workflow.ProcessGraph.ofXml) =
      (processes.flatMap Check.ofProcess).findSome? (Check.failure? root) := by
  rw [Outcome.error?_mapM, Outcome.findSome?_flatMap]
  simp only [Workflow.ProcessGraph.error?_ofXml root]

/-- The error of a contract is that of the first check that fails. -/
theorem error?_ofXml (root : Element) :
    error? (ofXml root) = (Check.all root).findSome? (Check.failure? root) := by
  rw [ofXml, Check.all, Outcome.findSome?_cons_eq_or, Outcome.findSome?_cons_eq_or,
    List.findSome?_append, Outcome.findSome?_cons_eq_or]
  simp only [Check.failure?]
  split
  · rfl
  · next hName =>
      rw [if_pos (not_not.1 hName), Option.none_or, Outcome.error?_bind fun id _ =>
          Outcome.error?_bind fun processes _ => ?_, Element.error?_requireText,
        error?_mapM_process root]
      cases root.firstDescendant? Tag.dataModel with
      | none => rfl
      | some dataModel =>
          rw [Option.isSome_some, if_pos rfl, Option.none_or, Option.toList_some,
            List.flatMap_singleton, ← DataModel.error?_ofXml root]
          exact Outcome.error?_bind_pure _ _

/-- The error of a text is that of the first check that fails, and there is none if all checks are
passed. -/
structure DecidedByFirstFailure (text : String) : Prop where
  unreadable : ∀ error, Xml.Document.parse text = .error error → parse text = .error error
  refused : ∀ root, Xml.Document.parse text = .ok root → ∀ error,
    parse text = .error error ↔
      ∃ before check after, Check.all root = before ++ check :: after ∧
        check.failure? root = some error ∧ ∀ earlier ∈ before, earlier.failure? root = none
  accepted : ∀ root, Xml.Document.parse text = .ok root →
    ((∃ contract, parse text = .ok contract) ↔
      ∀ check ∈ Check.all root, check.failure? root = none)
  declarations : ∀ root, Xml.Document.parse text = .ok root →
    ∀ process ∈ root.descendantsNamed Tag.process, ∀ error,
      process.descendants.foldlM Declarations.add .empty = .error error ↔
        ∃ before declaration after,
          Workflow.declarations process = before ++ declaration :: after ∧
            Workflow.BuildApart before ∧ Workflow.FailsBehind before declaration error

theorem decidedByFirstFailure (text : String) : DecidedByFirstFailure text where
  unreadable error h := by rw [parse, h, Outcome.error_bind]
  refused root h error := by
    rw [parse_of_document h, ← Outcome.error?_eq_some_iff, error?_ofXml,
      List.findSome?_eq_some_iff]
  accepted root h := by
    rw [parse_of_document h, Outcome.exists_eq_ok_iff, ← Outcome.error?_eq_none_iff,
      error?_ofXml, List.findSome?_eq_none_iff]
  declarations _ _ process _ _ := Workflow.foldlM_add_eq_error_iff process

end Contract
end ContractDoc
