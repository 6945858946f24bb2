import GrammarLinker.Config
import GrammarLinker.Toml.Reader

/-!
# Settings as TOML

The settings of the linker are two keys of a TOML document; other keys are ignored.
-/

namespace GrammarLinker

/-- A table or an array without anything in it. -/
def Toml.isVoid : Toml → Bool
  | .array items => items.isEmpty
  | .table _ entries => entries.isEmpty
  | .tables elements => elements.isEmpty
  | _ => false

/-- Reads a policy from its label, or from a table whose only key is a label with a value that is void. -/
def FailurePolicy.ofToml : Toml → Option FailurePolicy
  | .string label => ofLabel? label
  | .table _ [(label, value)] => if value.isVoid then ofLabel? label else none
  | _ => none

namespace LinkConfig

/-- Reads the settings from the entries of a document; a key that is missing has its default. -/
def ofEntries (entries : List (String × Toml)) : Option LinkConfig := do
  return {
    baseScope := ← match Keyed.find? "base_scope" entries with
      | none => some none
      | some (.string scope) => some (some scope)
      | some _ => none
    onFailure := ← match Keyed.find? "on_failure" entries with
      | none => some .abort
      | some policy => FailurePolicy.ofToml policy }

/-- Reads the settings from a TOML text. -/
def ofToml (text : String) : Except LinkError LinkConfig :=
  match (Toml.read? text).bind ofEntries with
  | some config => .ok config
  | none => .error .invalidConfig

end LinkConfig

end GrammarLinker
