import GrammarLinker.Arena.Basic

/-!
# Grounded lists

A list is grounded when the resolved includes lead from it to a list that is empty or holds a rule. A list from which they lead
only to pending includes, or round in a circle, cannot stand in for anything yet.

The search keeps the lists that it has not entered (`fresh`) and a stack of lists to enter. It enters a list once, and every
entry makes `fresh` shorter, so it ends on every arena.
-/

namespace GrammarLinker.Arena

/-- The ids of all lists. -/
def listIds (a : Arena) : List ListId :=
  (List.range a.lists.size).map ListId.mk

/-- The targets of the resolved includes among the items of a list, in order; none when a rule comes first. The items after a
rule are not looked at. -/
def targetsBeforeRule (a : Arena) : (items : List NodeId) → Except Fault (Option (List ListId))
  | [] => .ok (some [])
  | id :: rest => do
    match (← a.node id).body with
    | .rule _ => return none
    | .inclusion i =>
      let targets ← a.targetsBeforeRule rest
      return targets.map (i.target?.toList ++ ·)

/-- Whether one of the lists on the stack, or one that the search enters from them, is empty or holds a rule. The list that was
added last is entered first. -/
def groundedFrom (a : Arena) (fresh : List ListId) : (stack : List ListId) → Except Fault Bool
  | [] => .ok false
  | current :: rest => do
    let items ← a.list current
    if _hc : current ∈ fresh then
      if items.isEmpty then return true
      match ← a.targetsBeforeRule items with
      | none => return true
      | some targets => a.groundedFrom (fresh.erase current) (targets.reverse ++ rest)
    else a.groundedFrom fresh rest
termination_by stack => (fresh.length, stack.length)
decreasing_by
  · have := List.length_pos_of_mem _hc
    rw [List.length_erase_of_mem _hc]
    exact Prod.Lex.left _ _ (by omega)
  · exact Prod.Lex.right _ (by simp)

/-- Whether a list is grounded. -/
def isGrounded (a : Arena) (list : ListId) : Except Fault Bool :=
  a.groundedFrom a.listIds [list]

end GrammarLinker.Arena
