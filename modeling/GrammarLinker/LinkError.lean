import GrammarLinker.Reference

/-!
# Link errors

What can go wrong while grammars are built, resolved and linked. An error names the grammars that it blames
(`LinkError.scopes`), which is how a linker that drops failing grammars knows which ones to drop.
-/

namespace GrammarLinker

/-- A failure that belongs to the grammars and not to the program. -/
inductive LinkError where
  /-- The text of an include, in the grammar of a scope, is no reference. -/
  | malformedReference (scope : String) (error : Malformed)
  /-- An include, in the grammar of a scope, names no pattern group. -/
  | unresolvedReference (scope reference : String)
  /-- Includes wait only for each other: the scopes that hold them, sorted, and the includes as `scope: reference`. -/
  | unsatisfiableCycle (scopes references : List String)
  /-- An earlier grammar of the set has the same scope. -/
  | duplicateScope (scope : String)
  /-- The settings of the linker cannot be read. -/
  | invalidConfig
  deriving DecidableEq

namespace LinkError

/-- The grammars that an error blames. -/
def scopes : LinkError → List String
  | malformedReference scope _ => [scope]
  | unresolvedReference scope _ => [scope]
  | unsatisfiableCycle scopes _ => scopes
  | duplicateScope scope => [scope]
  | invalidConfig => []

/-- The message of an error. -/
def message : LinkError → String
  | malformedReference scope e =>
    String.join ["Malformed reference `", e.reference, "` in `", scope, "`: ", e.reason.text]
  | unresolvedReference scope reference =>
    String.join ["Unresolved reference: `", reference, "` in `", scope, "` does not name any pattern group"]
  | unsatisfiableCycle scopes _ =>
    String.join ["Unsatisfiable reference cycle between ", ", ".intercalate scopes]
  | duplicateScope scope =>
    String.join ["Duplicate scope: more than one grammar is named `", scope, "`"]
  | invalidConfig => "Invalid configuration"

/-- The code of the diagnostic of an error. -/
def code : LinkError → String
  | malformedReference _ _ => "syntaxlink_resolve::malformed_reference"
  | unresolvedReference _ _ => "syntaxlink_resolve::unresolved_reference"
  | unsatisfiableCycle _ _ => "syntaxlink_resolve::unsatisfiable_reference_cycle"
  | duplicateScope _ => "syntaxlink_resolve::duplicate_scope"
  | invalidConfig => "syntaxlink_resolve::invalid_config"

/-- The help of the diagnostic of an error, where there is one. -/
def help : LinkError → Option String
  | malformedReference _ _ => some Malformed.help
  | unresolvedReference _ reference =>
    some (String.join ["Is `", reference, "` defined in the repository or grammar set it refers to?"])
  | unsatisfiableCycle _ references =>
    some (String.join ["these includes never reach a concrete pattern: ", "; ".intercalate references])
  | duplicateScope _ => none
  | invalidConfig => none

end LinkError

end GrammarLinker
