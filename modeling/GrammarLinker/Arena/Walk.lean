import GrammarLinker.Arena.Grounded

/-!
# The concrete walk

The walk yields the rules of a list in order and goes, in place of a resolved include, through the list that the include stands
for. A list is entered once in a walk, so that grammars which include themselves or each other are walked to an end. Pending
includes yield nothing, and the children of a rule are not yielded: they matter only once the rule is active.

A walk is taken item by item, and an id that the arena does not hold spoils it only for a reader who goes that far. So a walk is
what was yielded, together with the way in which it ended.
-/

namespace GrammarLinker

/-- The rules that a walk yields, and the fault that breaks it off, if one does. -/
structure Walk where
  yielded : List NodeId
  fault? : Option Fault
  deriving DecidableEq, Inhabited

namespace Walk

/-- A walk that yields nothing more. -/
def finished : Walk := ⟨[], none⟩

/-- A walk that is broken off. -/
def broken (fault : Fault) : Walk := ⟨[], some fault⟩

/-- The walk that yields a rule first. -/
def yielding (id : NodeId) (w : Walk) : Walk := { w with yielded := id :: w.yielded }

/-- The first items of a walk, as many as are wanted; the fault when the walk is broken off before. -/
def take (w : Walk) (limit : Nat) : Except Fault (List NodeId) :=
  match w.fault? with
  | some fault => if limit ≤ w.yielded.length then .ok (w.yielded.take limit) else .error fault
  | none => .ok (w.yielded.take limit)

/-- All items of a walk; the fault when it is broken off. -/
def all (w : Walk) : Except Fault (List NodeId) :=
  match w.fault? with
  | some fault => .error fault
  | none => .ok w.yielded

end Walk

namespace Arena

/-- The walk through items, entering only lists that are still fresh. -/
def walkFrom (a : Arena) (fresh : List ListId) : (items : List NodeId) → Walk
  | [] => .finished
  | id :: rest =>
    match a.node id with
    | .error fault => .broken fault
    | .ok node =>
      match node.body with
      | .rule _ => (a.walkFrom fresh rest).yielding id
      | .inclusion i =>
        match i.target? with
        | none => a.walkFrom fresh rest
        | some target =>
          match a.list target with
          | .error fault => .broken fault
          | .ok items =>
            if _ht : target ∈ fresh then a.walkFrom (fresh.erase target) (items ++ rest) else a.walkFrom fresh rest
termination_by items => (fresh.length, items.length)
decreasing_by
  · exact Prod.Lex.right _ (by simp)
  · exact Prod.Lex.right _ (by simp)
  · have := List.length_pos_of_mem _ht
    rw [List.length_erase_of_mem _ht]
    exact Prod.Lex.left _ _ (by omega)
  · exact Prod.Lex.right _ (by simp)

/-- The walk through a list, which must be there. -/
def walk (a : Arena) (list : ListId) : Except Fault Walk :=
  (a.list list).map (a.walkFrom (a.listIds.erase list))

/-- All rules that the walk through a list yields. -/
def concretePatterns (a : Arena) (list : ListId) : Except Fault (List NodeId) := do
  (← a.walk list).all

end Arena

end GrammarLinker
