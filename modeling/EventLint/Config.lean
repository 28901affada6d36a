import EventLint.FileTree
import EventLint.Settings
import EventLint.Toml.Document

/-!
# Configuration files

The settings come from the nearest readable configuration file: one next to a path, or in a folder
above it. A file that cannot be read, or that gives a key a value of the wrong type, is passed over.
-/

namespace EventLint

namespace Config

open Toml

def fileName : String :=
  ".eventscan.toml"

/-! ## Settings in a document

A table with fixed keys may also be written as the list of its values in their order.
-/

def string? : Value → Option String
  | .string text => some (String.ofList text)
  | _ => none

def strings? : Value → Option (List String)
  | .array items => items.mapM string?
  | _ => none

def boolean? : Value → Option Bool
  | .boolean b => some b
  | _ => none

/-- The value of a key, which may be missing but not be of the wrong type. -/
def optional? {α : Type} (entries : Entries) (key : String) (read : Value → Option α) :
    Option (Option α) :=
  match entries.get? key.toList with
  | none => some none
  | some v => (read v).map some

/-- Values in a list, as if they stood under these keys. -/
def named (keys : List String) (items : List Value) : Entries :=
  (keys.map String.toList).zip items

def messageKeys : List String :=
  ["title", "message_format", "description", "remove_modifier_title",
    "extract_raise_method_title"]

/-- Texts that are not given keep their defaults. -/
def messagesOf? (entries : Entries) : Option Messages := do
  let defaults : Messages := {}
  let title ← optional? entries "title" string?
  let messageFormat ← optional? entries "message_format" string?
  let description ← optional? entries "description" string?
  let removeModifierTitle ← optional? entries "remove_modifier_title" string?
  let extractRaiseMethodTitle ← optional? entries "extract_raise_method_title" string?
  return {
    title := title.getD defaults.title
    messageFormat := messageFormat.getD defaults.messageFormat
    description := description.getD defaults.description
    removeModifierTitle := removeModifierTitle.getD defaults.removeModifierTitle
    extractRaiseMethodTitle := extractRaiseMethodTitle.getD defaults.extractRaiseMethodTitle }

def messages? : Value → Option Messages
  | .table _ entries => messagesOf? entries
  | .array items => messagesOf? (named messageKeys items)
  | .rows tables => if tables.isEmpty then some {} else none
  | _ => none

def settingKeys : List String :=
  ["exclude_folders", "include_folders", "ignore", "fail_on_findings", "messages"]

def settingsOf? (entries : Entries) : Option Settings := do
  let excludeFolders ← optional? entries "exclude_folders" strings?
  let includeFolders ← optional? entries "include_folders" strings?
  let ignore ← optional? entries "ignore" strings?
  let failOnFindings ← optional? entries "fail_on_findings" boolean?
  let messages ← optional? entries "messages" messages?
  return { excludeFolders, includeFolders, ignore, failOnFindings, messages := messages.getD {} }

/-- A list must give all settings but the last. -/
def settings? : Value → Option Settings
  | .table _ entries => settingsOf? entries
  | .array items => if items.length < 4 then none else settingsOf? (named settingKeys items)
  | _ => none

/-- The settings of a document. Keys that mean nothing are accepted. -/
def ofText? (text : Text) : Option Settings := do
  let entries ← Toml.read? text
  let settings ← optional? entries "eventscan" settings?
  return settings.getD {}

/-! ## Looking for the file -/

def ofFile? (tree : FileTree) (path : String) (working : List String) : Option Settings :=
  match tree.read? path working with
  | some (.text text) => ofText? text
  | _ => none

end Config

structure Config where
  file : Option String := none
  settings : Settings := {}
deriving DecidableEq, Repr

namespace Config

/-- The folders from a path up, as long as something is left to take away. -/
def ancestors : Nat → String → List String
  | 0, path => [path]
  | n + 1, path =>
    match Path.parent? path with
    | none => [path]
    | some parent => path :: ancestors n parent

/-- Looks for the settings from a file or folder up. -/
def load (tree : FileTree) (path : String) (working : List String := []) : Config :=
  let start := if tree.isFile path working then (Path.parent? path).getD path else path
  let found := (ancestors start.length start).findSome? fun folder =>
    let candidate := Path.join folder fileName
    (ofFile? tree candidate working).map fun settings => ⟨some candidate, settings⟩
  found.getD {}

end Config

end EventLint
