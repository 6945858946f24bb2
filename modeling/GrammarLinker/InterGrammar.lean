import GrammarLinker.Arena.Grounded
import GrammarLinker.Arena.Lookup
import GrammarLinker.Grammar

/-!
# Resolution between grammars

`$base`, `scope` and `scope#name` can only be satisfied with the whole set of grammars in view. Full passes go over the includes
of all grammars until none of these kinds is pending. An include is attached only to a list that is grounded; one whose list leads
to nothing but waiting includes is tried again in the next pass, so that the outcome does not hang on the order of the grammars.
A pass that resolves nothing ends the run with an error: the first include that refers to nothing, or else the includes that wait
for each other.
-/

namespace GrammarLinker

/-- Summary of a successful run: the passes made, the last one included, and the includes resolved in all of them. -/
structure Report where
  passes : Nat := 0
  resolved : Nat := 0
  deriving DecidableEq, Inhabited

namespace InterGrammar

/-- The grammar that a set has for a scope name: the last one of that name. -/
def named (grammars : List Grammar) (scope : String) : Option Grammar :=
  grammars.reverse.find? fun g => g.scopeName == scope

/-- The list that a reference of a grammar denotes in the set. Without a base grammar, `$base` is the grammar's own root. -/
def target (grammars : List Grammar) (base : Option String) (a : Arena) (g : Grammar) :
    Reference → Except Fault (Option ListId)
  | .base =>
    match base with
    | some scope => .ok ((named grammars scope).map Grammar.root)
    | none => .ok (some g.root)
  | .foreign scope => .ok ((named grammars scope).map Grammar.root)
  | .foreignEntry scope name =>
    match named grammars scope with
    | some h => a.lookup h.repository name
    | none => .ok none
  | .entry _ | .self => .ok none

/-- A reference that denotes the own root of its grammar, which like `$self` may close a circle on it. -/
def isOwnRoot (base : Option String) (reference : Reference) : Bool :=
  base.isNone && reference == .base

/-- What becomes of an include of a grammar in a pass. -/
def verdict (grammars : List Grammar) (base : Option String) (a : Arena) (site : Grammar × NodeId) :
    Except Fault Verdict := do
  match ← a.inclusion site.2 with
  | some ⟨text, _, .pending reference⟩ =>
    if !reference.kind.isCrossGrammar then return .skipped
    match ← target grammars base a site.1 reference with
    | none => return .missing text
    | some list =>
      if isOwnRoot base reference then return .attached list
      if ← a.isGrounded list then return .attached list
      return .waiting text
  | _ => return .skipped

/-- The registered includes of all grammars, in order, each with its grammar. -/
def sites (grammars : List Grammar) : List (Grammar × NodeId) :=
  grammars.flatMap fun g => g.registry.includes.map (g, ·)

/-- One pass over the set. -/
def pass (grammars : List Grammar) (base : Option String) : Arena → Except Fault (Tally × Arena) :=
  Resolution.pass (·.2) (·.1.scopeName) (verdict grammars base) (sites grammars)

/-- The scopes of includes, each once, in the order of their code points. -/
def scopesOf (waiting : List Unsettled) : List String :=
  ((waiting.map (·.scope)).mergeSort fun s t => decide (s ≤ t)).eraseReps

/-- The error of includes that wait only for each other. -/
def cycleError (waiting : List Unsettled) : LinkError :=
  .unsatisfiableCycle (scopesOf waiting) (waiting.map (·.text))

/-- The error with which a run stops when nothing can be resolved. -/
def stuckError (tally : Tally) : LinkError :=
  match tally.missing with
  | first :: _ => first.error
  | [] => cycleError tally.waiting

/-- Passes over the set, at most `fuel` of them, after those that `report` counts. -/
def passes (grammars : List Grammar) (base : Option String) : (fuel : Nat) → (report : Report) → LinkM Arena Report
  | 0, _ => liftM (Except.error Fault.endless : Except Fault Report)
  | fuel + 1, report => do
    let tally ← LinkM.ofChange (pass grammars base)
    let report := { passes := report.passes + 1, resolved := report.resolved + tally.resolved : Report }
    if tally.waiting.isEmpty && tally.missing.isEmpty then return report
    if tally.resolved = 0 then throw (stuckError tally)
    passes grammars base fuel report

/-- Resolves the includes between the grammars of a set, with a base grammar for `$base` if there is one. Every pass but the last
resolves an include, so that one pass more than there are includes is enough. -/
def resolve (grammars : List Grammar) (base : Option String) : LinkM Arena Report :=
  passes grammars base ((sites grammars).length + 1) {}

end InterGrammar

end GrammarLinker
