import GrammarLinker.Json.Fields
import GrammarLinker.Json.Reader
import GrammarLinker.LinkError

/-!
# Settings of the linker

Which grammar `$base` refers to, and what becomes of a grammar that cannot be built or resolved.
-/

namespace GrammarLinker

/-- What is done with a grammar that fails. -/
inductive FailurePolicy where
  /-- The first error ends the linking. -/
  | abort
  /-- The grammars that an error blames are dropped, and linking goes on with the others. -/
  | dropGrammar
  deriving DecidableEq, Inhabited

namespace FailurePolicy

/-- The label of a policy. -/
def label : FailurePolicy → String
  | abort => "abort"
  | dropGrammar => "drop-grammar"

/-- The policy of a label. -/
def ofLabel? (label : String) : Option FailurePolicy :=
  [abort, dropGrammar].find? fun policy => policy.label == label

/-- A policy is read from its label. -/
theorem ofLabel?_label (policy : FailurePolicy) : ofLabel? policy.label = some policy := by
  cases policy <;> decide

/-- Reads a policy from its label, or from an object whose only member is a label with the value `null`. -/
def ofJson : Json → Option FailurePolicy
  | .text (some label) => ofLabel? label
  | .object [(some label, .null)] => ofLabel? label
  | _ => none

end FailurePolicy

/-- The settings for linking one set of grammars. Without a base scope, `$base` denotes what `$self` does. -/
structure LinkConfig where
  baseScope : Option String := none
  onFailure : FailurePolicy := .abort
  deriving DecidableEq, Inhabited

namespace LinkConfig

/-- The fields of the settings, in the order in which they are written. -/
def fieldNames : List String := ["base_scope", "on_failure"]

/-- The written form of the settings. -/
def toJson (config : LinkConfig) : Json :=
  .ofFields [("base_scope", .ofString? config.baseScope), ("on_failure", .ofString config.onFailure.label)]

/-- Reads the settings; a field that is missing has its default. -/
def ofJson (value : Json) : Option LinkConfig := do
  let fields ← Json.fields? fieldNames value
  return {
    baseScope := ← Json.optionalString? (Keyed.find? "base_scope" fields)
    onFailure := ← match Keyed.find? "on_failure" fields with
      | none => some .abort
      | some policy => FailurePolicy.ofJson policy }

/-- Reads the settings from a JSON text. -/
def ofJsonText? (text : String) : Option LinkConfig :=
  (Json.read? text).bind ofJson

/-- Sets the base scope. -/
def withBaseScope (config : LinkConfig) (scope : String) : LinkConfig := { config with baseScope := some scope }

/-- Sets the policy. -/
def withFailurePolicy (config : LinkConfig) (policy : FailurePolicy) : LinkConfig := { config with onFailure := policy }

end LinkConfig

end GrammarLinker
