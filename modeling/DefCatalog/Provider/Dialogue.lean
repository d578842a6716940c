import DefCatalog.Provider.Basic

/-!
# Dialogues

A host keeps one provider and makes requests to it, one after the other. Each request is answered by
one operation of the provider.
-/

namespace DefCatalog

/-- A provider in use, with the file system. -/
structure Dialogue where
  provider : Provider
  files : FileSystem

/-- What a host can ask of a provider. -/
inductive Request where
  | load
  | generate
  /-- To scan cooperatively, whatever strategy is configured. -/
  | generateCooperatively
  | reload
  | clearCache
  | suggestions (line : Text)
  | dispose
deriving DecidableEq, Repr

/-- What a host is told in return. -/
inductive Response where
  | loaded (answer : Except ScanError LoadSource)
  | generated (answer : Except ScanError ScanSummary)
  | cleared (removed : Bool)
  | suggested (suggestions : List Suggestion)
  | disposed

namespace Dialogue

/-- The dialogue after an operation, with what is told about it. -/
def ofReply {α : Type} (respond : α → Response) (reply : Reply α) : Response × Dialogue :=
  (respond reply.answer, ⟨reply.provider, reply.files⟩)

/-- Answers a request by the operation of the provider. -/
def respond (dialogue : Dialogue) : Request → Noted (Response × Dialogue)
  | .load => do
    return ofReply .loaded (← dialogue.provider.load dialogue.files)
  | .generate => do
    return ofReply .generated (← dialogue.provider.generate dialogue.files)
  | .generateCooperatively => do
    return ofReply .generated (← dialogue.provider.generateBy .cooperative dialogue.files)
  | .reload => do
    return ofReply .generated (← dialogue.provider.reload dialogue.files)
  | .clearCache => do
    return ofReply .cleared (← dialogue.provider.clearCache dialogue.files)
  | .suggestions line => return (.suggested (dialogue.provider.suggestions line), dialogue)
  | .dispose => return (.disposed, { dialogue with provider := dialogue.provider.dispose })

end Dialogue

end DefCatalog
