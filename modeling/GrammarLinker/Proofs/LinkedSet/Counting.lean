import GrammarLinker.Proofs.LinkedSet.Meaning
import GrammarLinker.Proofs.LinkedSet.Policies
import GrammarLinker.Proofs.LinkedSet.Survivors

/-!
# What the report of a linked set counts

The report of a linked set is that of the last run between its grammars, the one without an error. Whether it counts what was linked
depends on the runs before (`Session.link_report`). If there were none, it counts the includes for other grammars that the linked
grammars have registered. But if a grammar was dropped for an error between grammars, then the run that had the error has resolved
whatever could be resolved, and the last one counts nothing.

Which includes are for other grammars is read off their texts (`Arena.crosses`), which stay as they are when the includes are resolved.
-/

namespace GrammarLinker

open Arena InterGrammar

/-! ## Includes for other grammars -/

/-- A text that only another grammar of the set can satisfy. -/
def Reference.isCrossText (text : String) : Bool :=
  match parse text with
  | .ok reference => reference.isCrossGrammar
  | .error _ => false

/-- The errors of resolution between grammars. -/
def LinkError.isCrossGrammar : LinkError → Bool
  | .unresolvedReference _ reference => Reference.isCrossText reference
  | .unsatisfiableCycle _ _ => true
  | _ => false

/-- A node is an include for another grammar, resolved or not. -/
def Node.crosses (n : Node) : Bool := n.inclusion?.any fun i => Reference.isCrossText i.reference

/-- An include for another grammar stays one when it is resolved. -/
@[simp] theorem Node.crosses_resolvedTo (n : Node) (target : ListId) : (n.resolvedTo target).crosses = n.crosses := by
  obtain ⟨name, rule, parent, body⟩ := n
  cases body with
  | rule children => rfl
  | inclusion i =>
    obtain ⟨text, declared, state⟩ := i
    cases state <;> rfl

namespace Arena

variable {a b : Arena} {P : NodeId → ListId → Prop} {id : NodeId}

/-- The node of an id is an include for another grammar, resolved or not. -/
def crosses (a : Arena) (id : NodeId) : Bool := a.nodes[id.index]?.any Node.crosses

/-- Whether an id is an include for another grammar is read off the node. -/
theorem crosses_of_node {node : Node} (h : a.node id = .ok node) : a.crosses id = node.crosses := by
  unfold crosses
  rw [node_eq_ok.1 h, Option.any_some]

/-- Whether an include is for another grammar is read off its text. -/
theorem crosses_of_inclusion {i : Include} (h : a.inclusion id = .ok (some i)) : a.crosses id = Reference.isCrossText i.reference := by
  obtain ⟨node, hn, hi⟩ := inclusion_eq_ok.1 h
  rw [crosses_of_node hn, Node.crosses, hi, Option.any_some]

/-- Resolution keeps the texts. -/
theorem ResolvesBy.crosses (h : ResolvesBy P a b) (hid : a.HasNode id) : b.crosses id = a.crosses id := by
  obtain ⟨node, hn⟩ := hid.node_ok
  rcases h.node id node hn with hb | ⟨target, -, -, hb⟩
  · rw [crosses_of_node hn, crosses_of_node hb]
  · rw [crosses_of_node hn, crosses_of_node hb, Node.crosses_resolvedTo]

end Arena

namespace Linker

variable {config : LinkConfig} {files : List GrammarFile} {gs ls rest : List Grammar} {g : Grammar} {base : Option String}
  {a m n b : Arena} {id : NodeId} {P : NodeId → ListId → Prop} {dropped : List DroppedGrammar} {set : LinkedSet} {e : LinkError}

/-- The registered includes for other grammars, and those that wait for one, are the same ones. -/
def CrossesAsAwaits (gs : List Grammar) (a : Arena) : Prop :=
  ∀ g ∈ gs, ∀ id ∈ g.registry.includes, a.crosses id = a.awaits Reference.isCrossGrammar id

/-- The error of a run between grammars is of that kind. -/
theorem CrossesAsAwaits.isCrossGrammar (h : CrossesAsAwaits gs a) (hreports : Reports gs base a b (.error e)) :
    e.isCrossGrammar = true := by
  cases hreports with
  | @missing site text hleft hfirst htext =>
    obtain ⟨declared, state, hi⟩ := htext
    obtain ⟨hsite, hw⟩ := mem_unsettled.1 (List.mem_of_find?_eq_some hfirst)
    obtain ⟨hg, hid⟩ := mem_sites.1 hsite
    calc Reference.isCrossText text
      _ = a.crosses site.2 := (crosses_of_inclusion hi).symm
      _ = a.awaits Reference.isCrossGrammar site.2 := h site.1 hg site.2 hid
      _ = true := hw
  | cycle => rfl

/-! ## The first three steps -/

section

variable {policy : FailurePolicy} {kept : List Grammar}

end

end Linker

namespace Session

open Linker

end Session

end GrammarLinker
