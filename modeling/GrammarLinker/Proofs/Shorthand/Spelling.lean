import GrammarLinker.Proofs.Reference
import GrammarLinker.Proofs.Resolution.Change

/-!
# References to the base, spelled out

`$base` is shorthand for the scope of the base grammar, and for `$self` in a set without one (`Reference.spellOut`). A file is spelled
out by replacing this text in every include, at any depth (`GrammarFile.spellOut`), and an arena by replacing it in every include, with
what a pending one waits for (`Arena.spellOut`). The text of an include is read as before, up to the shorthand
(`Reference.parse_longForm`).
-/

namespace GrammarLinker

/-! ## References -/

namespace Reference

/-- The reference for which `$base` stands; other references stand for themselves. -/
def spellOut (base : Option String) : Reference → Reference
  | .base =>
    match base with
    | some scope => .foreign scope
    | none => .self
  | reference => reference

/-- A text with the shorthand spelled out. -/
def longForm (base : Option String) (text : String) : String :=
  if text = Reference.base.text then (Reference.base.spellOut base).text else text

variable {base : Option String} {reference : Reference} {text : String}

/-- A reference that is not the shorthand stands for itself. -/
theorem spellOut_of_ne (h : reference ≠ .base) : reference.spellOut base = reference := by
  cases reference with
  | base => exact absurd rfl h
  | _ => rfl

/-- No reference that is spelled out is the shorthand. -/
theorem spellOut_ne_base : reference.spellOut base ≠ .base := by
  cases reference with
  | base => cases base <;> exact fun h => by cases h
  | _ => exact fun h => by cases h

/-- Only one text is read as `$base`. -/
theorem eq_text_of_parse_base (h : parse text = .ok .base) : text = Reference.base.text :=
  (parse_eq_ok_iff.1 h).2.symm

/-- A text that is read as something else has no shorthand in it. -/
theorem longForm_of_parse (h : parse text = .ok reference) (hne : reference ≠ .base) : longForm base text = text := by
  refine if_neg fun heq => hne ?_
  rw [heq] at h
  exact (Except.ok.inj h).symm

/-- A text whose shorthand is spelled out is read as what it stands for. -/
theorem parse_longForm (hbase : ∀ scope, base = some scope → parse scope = .ok (.foreign scope)) (text : String) :
    parse (longForm base text) = (parse text).map (spellOut base) := by
  by_cases htext : text = Reference.base.text
  · rw [longForm, if_pos htext, htext]
    have hparse : parse Reference.base.text = .ok .base := by decide +kernel
    rw [hparse]
    cases base with
    | none => decide +kernel
    | some scope => exact hbase scope rfl
  · rw [longForm, if_neg htext]
    cases h : parse text with
    | error e => rfl
    | ok reference => exact congrArg Except.ok (spellOut_of_ne fun heq => htext (eq_text_of_parse_base (heq ▸ h))).symm

end Reference

open Reference (longForm)

/-! ## Files -/

mutual

/-- A record with its includes spelled out, at any depth. -/
def Record.spellOut (base : Option String) : Record → Record
  | ⟨reference, name, rule, patterns, repository⟩ =>
    ⟨reference.map (longForm base), name, rule, Record.spellOutItems base patterns, Record.spellOutEntries base repository⟩

/-- Records with their includes spelled out. -/
def Record.spellOutItems (base : Option String) : List Record → List Record
  | [] => []
  | r :: rest => r.spellOut base :: Record.spellOutItems base rest

/-- Entries of a repository with their includes spelled out. -/
def Record.spellOutEntries (base : Option String) : List (String × Record) → List (String × Record)
  | [] => []
  | (key, r) :: rest => (key, r.spellOut base) :: Record.spellOutEntries base rest

end

/-- A file with its includes spelled out. -/
def GrammarFile.spellOut (base : Option String) (file : GrammarFile) : GrammarFile :=
  { file with
    patterns := Record.spellOutItems base file.patterns
    repository := Record.spellOutEntries base file.repository }

/-- Spelling out neither adds entries nor loses any. -/
theorem Record.isEmpty_spellOutEntries (base : Option String) (entries : List (String × Record)) :
    (Record.spellOutEntries base entries).isEmpty = entries.isEmpty := by
  cases entries with
  | nil => rfl
  | cons entry rest =>
    obtain ⟨key, r⟩ := entry
    rfl

/-- Spelling out neither makes a bare group nor unmakes one. -/
theorem Record.isBareGroup_spellOut (base : Option String) (r : Record) : (r.spellOut base).isBareGroup = r.isBareGroup := by
  obtain ⟨reference, name, rule, patterns, repository⟩ := r
  unfold Record.spellOut Record.isBareGroup
  rw [Option.isNone_map, Record.isEmpty_spellOutEntries]

/-! ## Arenas -/

/-- What an include waits for, spelled out. -/
def IncludeState.spellOut (base : Option String) : IncludeState → IncludeState
  | .pending reference => .pending (reference.spellOut base)
  | .resolved target => .resolved target

/-- An include, spelled out. -/
def Include.spellOut (base : Option String) (i : Include) : Include :=
  { i with reference := longForm base i.reference, state := i.state.spellOut base }

/-- A node, with the include that it is, if it is one, spelled out. -/
def Node.spellOut (base : Option String) (n : Node) : Node :=
  match n.body with
  | .rule _ => n
  | .inclusion i => { n with body := .inclusion (i.spellOut base) }

/-- An arena with its includes spelled out. -/
def Arena.spellOut (base : Option String) (a : Arena) : Arena :=
  { a with nodes := a.nodes.map (Node.spellOut base) }

variable {base : Option String}

/-- Spelling out leaves the target. -/
@[simp] theorem Include.target?_spellOut (i : Include) : (i.spellOut base).target? = i.target? := by
  obtain ⟨text, declared, state⟩ := i
  cases state <;> rfl

/-- An include is read from a text that is spelled out as it is read from the text and then spelled out. -/
theorem Include.ofReference_longForm (hbase : ∀ scope, base = some scope → Reference.parse scope = .ok (.foreign scope))
    (text : String) (repository : Option RepositoryId) :
    Include.ofReference (longForm base text) repository = (Include.ofReference text repository).map (Include.spellOut base) := by
  unfold Include.ofReference
  rw [Reference.parse_longForm hbase]
  cases Reference.parse text <;> rfl

namespace Node

/-- The include of a node that is spelled out is its include, spelled out. -/
theorem inclusion?_spellOut (n : Node) : (n.spellOut base).inclusion? = n.inclusion?.map (Include.spellOut base) := by
  obtain ⟨name, rule, parent, body⟩ := n
  cases body <;> rfl

/-- A node that is spelled out waits for its reference, spelled out. -/
theorem pending?_spellOut (n : Node) : (n.spellOut base).pending? = n.pending?.map (Reference.spellOut base) := by
  obtain ⟨name, rule, parent, body⟩ := n
  cases body with
  | rule children => rfl
  | inclusion i =>
    obtain ⟨text, declared, state⟩ := i
    cases state <;> rfl

/-- Spelling out makes no rule and unmakes none. -/
@[simp] theorem isRule_spellOut (n : Node) : (n.spellOut base).isRule = n.isRule := by
  obtain ⟨name, rule, parent, body⟩ := n
  cases body <;> rfl

/-- It makes no difference whether an include is spelled out before it is resolved or after. -/
theorem spellOut_resolvedTo (n : Node) (target : ListId) :
    (n.spellOut base).resolvedTo target = (n.resolvedTo target).spellOut base := by
  obtain ⟨name, rule, parent, body⟩ := n
  cases body with
  | rule children => rfl
  | inclusion i =>
    obtain ⟨text, declared, state⟩ := i
    cases state <;> rfl

end Node

namespace Arena

variable {a : Arena} {id : NodeId} {list : ListId}

/-! ### Reading -/

/-- There is nothing to spell out in the empty arena. -/
theorem spellOut_empty (base : Option String) : ({} : Arena).spellOut base = {} := by
  simp [spellOut]

/-- The nodes are read, spelled out. -/
theorem node_spellOut (id : NodeId) : (a.spellOut base).node id = (a.node id).map (Node.spellOut base) := by
  simp only [Arena.node, spellOut, Array.getElem?_map]
  cases a.nodes[id.index]? <;> rfl

/-- The lists are read as they were. -/
theorem list_spellOut (id : ListId) : (a.spellOut base).list id = a.list id := rfl

/-- The includes are read, spelled out. -/
theorem inclusion_spellOut (id : NodeId) :
    (a.spellOut base).inclusion id = (a.inclusion id).map fun i => i.map (Include.spellOut base) := by
  unfold Arena.inclusion
  rw [node_spellOut]
  cases a.node id with
  | error fault => rfl
  | ok node => exact congrArg Except.ok node.inclusion?_spellOut

/-- An id waits for its reference, spelled out. -/
theorem pending?_spellOut (id : NodeId) : (a.spellOut base).pending? id = (a.pending? id).map (Reference.spellOut base) := by
  simp only [Arena.pending?, spellOut, Array.getElem?_map]
  cases a.nodes[id.index]? with
  | none => rfl
  | some node => exact node.pending?_spellOut

/-- The rules are the same. -/
theorem isRule_spellOut : (a.spellOut base).IsRule id ↔ a.IsRule id := by
  unfold IsRule
  rw [node_spellOut]
  cases a.node id <;> simp [Except.map]

/-- A list holds a rule, or is empty, as it did before. -/
theorem solid_spellOut : (a.spellOut base).Solid list ↔ a.Solid list := by
  simp only [Solid, list_spellOut, isRule_spellOut]

/-- An include that is spelled out stands for the list for which it stood. -/
theorem standsFor_spellOut : (a.spellOut base).StandsFor id list ↔ a.StandsFor id list := by
  unfold StandsFor
  rw [inclusion_spellOut]
  cases a.inclusion id with
  | error fault => simp [Except.map]
  | ok i? => cases i? <;> simp [Except.map]

/-! ### Writing -/

/-- The items of a list are written in the same way. -/
theorem setList_spellOut (id : ListId) (items : List NodeId) :
    (a.spellOut base).setList id items = (a.setList id items).map (Arena.spellOut base) := by
  unfold setList
  by_cases hid : id.index < a.lists.size
  · have hid' : id.index < (a.spellOut base).lists.size := hid
    rw [dif_pos hid, dif_pos hid']
    rfl
  · have hid' : ¬id.index < (a.spellOut base).lists.size := hid
    rw [dif_neg hid, dif_neg hid']
    rfl

/-- A repository is given an entry in the same way. -/
theorem insertEntry_spellOut (id : RepositoryId) (key : String) (list : ListId) :
    (a.spellOut base).insertEntry id key list = (a.insertEntry id key list).map (Arena.spellOut base) := by
  unfold insertEntry
  by_cases hid : id.index < a.repositories.size
  · have hid' : id.index < (a.spellOut base).repositories.size := hid
    rw [dif_pos hid, dif_pos hid']
    rfl
  · have hid' : ¬id.index < (a.spellOut base).repositories.size := hid
    rw [dif_neg hid, dif_neg hid']
    rfl

end Arena

end GrammarLinker
