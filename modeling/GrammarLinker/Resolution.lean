import GrammarLinker.Linking

/-!
# Passes over includes

Resolution goes over includes in order and decides for each, in the arena as it is then, whether it is attached to a list, waits
for a later pass or misses its target. A pass attaches what can be attached and keeps count of the rest (`Resolution.pass`).
-/

namespace GrammarLinker

/-- What a pass does with an include. -/
inductive Verdict where
  /-- The pass is not about this node. -/
  | skipped
  /-- The include is resolved to a list. -/
  | attached (target : ListId)
  /-- The include has a list to stand for, which cannot stand in for anything yet. -/
  | waiting (reference : String)
  /-- The include refers to nothing. -/
  | missing (reference : String)
  deriving DecidableEq, Inhabited

/-- An include that a pass left pending: the scope of the grammar that holds it, and its text. -/
structure Unsettled where
  scope : String
  reference : String
  deriving DecidableEq, Inhabited

namespace Unsettled

/-- The include with its scope, as errors write it. -/
def text (u : Unsettled) : String := String.join [u.scope, ": ", u.reference]

/-- The error that an include refers to nothing. -/
def error (u : Unsettled) : LinkError := .unresolvedReference u.scope u.reference

end Unsettled

/-- What a pass did: how many includes it resolved, which ones wait and which ones miss their target, each in order. -/
structure Tally where
  resolved : Nat := 0
  waiting : List Unsettled := []
  missing : List Unsettled := []
  deriving DecidableEq, Inhabited

namespace Resolution

variable {ι : Type}

/-- Attaches an include to a list, if it is still pending. -/
def attach (a : Arena) (id : NodeId) (target : ListId) : Except Fault Arena :=
  (a.resolveInclude? id target).map (·.getD a)

/-- A pass over includes, each of which knows its node and the scope of its grammar. -/
def pass (node : ι → NodeId) (scope : ι → String) (verdict : Arena → ι → Except Fault Verdict) :
    List ι → Arena → Except Fault (Tally × Arena)
  | [], a => .ok ({}, a)
  | site :: rest, a => do
    match ← verdict a site with
    | .skipped => pass node scope verdict rest a
    | .attached target =>
      let (tally, a) ← pass node scope verdict rest (← attach a (node site) target)
      return ({ tally with resolved := tally.resolved + 1 }, a)
    | .waiting reference =>
      let (tally, a) ← pass node scope verdict rest a
      return ({ tally with waiting := ⟨scope site, reference⟩ :: tally.waiting }, a)
    | .missing reference =>
      let (tally, a) ← pass node scope verdict rest a
      return ({ tally with missing := ⟨scope site, reference⟩ :: tally.missing }, a)

end Resolution

end GrammarLinker
