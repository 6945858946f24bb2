import GrammarLinker.Config
import GrammarLinker.InterGrammar

/-!
# Linked sets

Linking takes grammar files that are loaded together through four steps: every file is built, a scope name that was there already
is refused, each grammar resolves its own references, and the set resolves the references between grammars. Under the policy
`abort` the first error is the answer. Under `dropGrammar` the grammars that an error blames are dropped and recorded, and the
last step is taken again with the others, until it succeeds.
-/

namespace GrammarLinker

/-- A grammar that was dropped, by its scope name, with the error that it was dropped for. -/
structure DroppedGrammar where
  scope : String
  error : LinkError
  deriving DecidableEq

/-- The grammars that are linked, the ones that were dropped, and the report of the last step. -/
structure LinkedSet where
  grammars : List Grammar := []
  dropped : List DroppedGrammar := []
  report : Report := {}
  deriving DecidableEq

namespace LinkedSet

/-- The linked grammar of a scope. -/
def get? (set : LinkedSet) (scope : String) : Option Grammar :=
  set.grammars.find? fun g => g.scopeName == scope

end LinkedSet

namespace Linker

variable {ι κ : Type}

/-- Examines items in order. An item that fails is dropped, or ends the examination, as the policy says. -/
def sift (policy : FailurePolicy) (scope : ι → String) (examine : ι → LinkM Arena κ) :
    List ι → LinkM Arena (List κ × List DroppedGrammar)
  | [] => return ([], [])
  | item :: rest => do
    match ← (examine item).attempt with
    | .ok passed =>
      let (kept, dropped) ← sift policy scope examine rest
      return (passed :: kept, dropped)
    | .error e =>
      match policy with
      | .abort => throw e
      | .dropGrammar =>
        let (kept, dropped) ← sift policy scope examine rest
        return (kept, ⟨scope item, e⟩ :: dropped)

/-- Grammars with the scope names of those before them. -/
def withEarlier (earlier : List String) : List Grammar → List (Grammar × List String)
  | [] => []
  | g :: rest => (g, earlier) :: withEarlier (g.scopeName :: earlier) rest

/-- Refuses a grammar whose scope name is among the earlier ones. -/
def checkScope (site : Grammar × List String) : LinkM Arena Grammar :=
  if site.1.scopeName ∈ site.2 then throw (.duplicateScope site.1.scopeName) else return site.1

/-- Resolves the local references of a grammar and gives the grammar back. -/
def localized (g : Grammar) : LinkM Arena Grammar := do
  g.resolveLocal
  return g

/-- The grammars that an error blames. -/
def blamed (e : LinkError) (grammars : List Grammar) : List Grammar :=
  grammars.filter fun g => decide (g.scopeName ∈ e.scopes)

/-- The grammars that an error does not blame. -/
def spared (e : LinkError) (grammars : List Grammar) : List Grammar :=
  grammars.filter fun g => !decide (g.scopeName ∈ e.scopes)

/-- Where an error blames a grammar, fewer are spared. -/
theorem length_spared_lt {e : LinkError} {grammars : List Grammar} (h : blamed e grammars ≠ []) :
    (spared e grammars).length < grammars.length := by
  obtain ⟨g, hg⟩ := List.exists_mem_of_ne_nil _ h
  simp only [blamed, List.mem_filter, decide_eq_true_eq] at hg
  exact List.length_filter_lt_length_iff_exists.2 ⟨g, hg.1, by simp [hg.2]⟩

/-- Resolves the references between grammars, and again without the blamed ones as long as there are any. -/
def resolveRemaining (config : LinkConfig) (grammars : List Grammar) (dropped : List DroppedGrammar) :
    LinkM Arena LinkedSet := do
  match ← (InterGrammar.resolve grammars config.baseScope).attempt with
  | .ok report => return { grammars, dropped, report }
  | .error e =>
    match config.onFailure with
    | .abort => throw e
    | .dropGrammar =>
      if _h : blamed e grammars = [] then throw e
      else
        resolveRemaining config (spared e grammars)
          (dropped ++ (blamed e grammars).map fun g => ⟨g.scopeName, e⟩)
termination_by grammars.length
decreasing_by exact length_spared_lt _h

/-- Links grammar files. -/
def link (config : LinkConfig) (files : List GrammarFile) : LinkM Arena LinkedSet := do
  let policy := config.onFailure
  let (built, unbuilt) ← sift policy GrammarFile.scopeName Grammar.build files
  let (unique, repeated) ← sift policy (·.1.scopeName) checkScope (withEarlier [] built)
  let (resolved, unresolved) ← sift policy Grammar.scopeName localized unique
  resolveRemaining config resolved (unbuilt ++ repeated ++ unresolved)

end Linker

end GrammarLinker
