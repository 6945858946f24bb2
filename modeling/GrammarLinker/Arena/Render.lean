import GrammarLinker.Arena.Basic

/-!
# The text of a list

The text of a list has a line for each node. A rule is followed by its children, indented by two more spaces; an include is
written with its kind and, when it is resolved, with the number of patterns that it stands for, and its list is not entered.

A chain of rules, each among the children of the one before, that is longer than the arena has lists passes through a list
twice, so that a rule contains itself and the text has no end.
-/

namespace GrammarLinker.Arena

/-- The indentation of a depth. -/
def indentation (depth : Nat) : String :=
  String.ofList (List.replicate (2 * depth) ' ')

/-- One of the expressions of a rule, after the word for it; nothing when the rule has none. -/
def expressionText (word : String) : Option String → String
  | none => ""
  | some expression => String.join [word, "/", expression, "/"]

/-- The line of a rule. -/
def ruleLine (node : Node) (depth : Nat) : String :=
  String.join [indentation depth, "rule ", node.name.getD "_", expressionText " " node.rule.matchExpr,
    expressionText " begin " node.rule.beginExpr, expressionText " end " node.rule.endExpr, "\n"]

/-- The number of patterns that a resolved include stands for; nothing for a pending one. -/
def countText : Option Nat → String
  | none => ""
  | some count => String.join [", ", toString count, " patterns"]

/-- The line of an include, given the number of patterns that it stands for. -/
def inclusionLine (i : Include) (count : Option Nat) (depth : Nat) : String :=
  String.join [indentation depth, "include ", i.reference, " [", i.kind.label, countText count, "]\n"]

/-- The text of a list at a depth, through at most `levels` lists one inside the other. -/
def renderWithin (a : Arena) : (levels depth : Nat) → ListId → Except Fault String
  | 0, _, _ => .error .endless
  | levels + 1, depth, list => do
    let items ← a.list list
    let texts ← items.mapM fun id => do
      let node ← a.node id
      match node.body with
      | .rule children => return ruleLine node depth ++ (← a.renderWithin levels (depth + 1) children)
      | .inclusion i =>
        match i.target? with
        | none => return inclusionLine i none depth
        | some target => return inclusionLine i (some (← a.list target).length) depth
    return String.join texts

/-- The text of a list. -/
def render (a : Arena) (list : ListId) : Except Fault String :=
  a.renderWithin (a.lists.size + 1) 0 list

end GrammarLinker.Arena
