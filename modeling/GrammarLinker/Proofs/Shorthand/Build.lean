import GrammarLinker.Proofs.Registry.Relocation
import GrammarLinker.Proofs.Shorthand.Spelling

/-!
# Building files that are spelled out

A build resolves nothing, so it makes no difference whether includes are spelled out in the file or in the arena that is built from it:
the ids are the same, and so is the error if a reference is malformed (`Grammar.build_spellOut`). The shorthand itself is well formed, and
what it stands for as well.
-/

namespace GrammarLinker

open Arena

namespace Draft

variable {base : Option String}

/-- A draft with the includes of its arena spelled out. -/
def spellOut (base : Option String) (d : Draft) : Draft := { d with arena := d.arena.spellOut base }

/-! ## The steps -/

/-- A node is added as the node that is spelled out. -/
theorem tracks_allocNode_spellOut (node : Node) :
    Tracks (spellOut base) (allocNode node) (allocNode (node.spellOut base)) fun id => id := by
  intro d
  show Except.ok (Except.ok ((d.arena.spellOut base).allocNode (node.spellOut base)).1,
    ({ d with arena := ((d.arena.spellOut base).allocNode (node.spellOut base)).2 } : Draft)) = _
  simp only [Arena.allocNode, Arena.spellOut, Array.size_map, ← Array.map_push]
  rfl

/-- A list is added alike. -/
theorem tracks_allocList_spellOut (items : List NodeId) :
    Tracks (spellOut base) (allocList items) (allocList items) fun id => id := fun _ => rfl

/-- A repository is added alike. -/
theorem tracks_allocRepository_spellOut (parent : Option RepositoryId) :
    Tracks (spellOut base) (allocRepository parent) (allocRepository parent) fun id => id := fun _ => rfl

/-- An include is registered alike. -/
theorem tracks_register_spellOut (id : NodeId) : Tracks (spellOut base) (register id) (register id) fun u => u := fun _ => rfl

/-- The items of a list are written alike. -/
theorem tracks_setList_spellOut (id : ListId) (items : List NodeId) :
    Tracks (spellOut base) (setList id items) (setList id items) fun u => u :=
  tracks_write (fun _ => rfl) (fun _ _ => rfl) (fun a => a.setList id items) (fun a => a.setList id items)
    fun _ => setList_spellOut id items

/-- A repository is given an entry alike. -/
theorem tracks_insertEntry_spellOut (id : RepositoryId) (key : String) (list : ListId) :
    Tracks (spellOut base) (insertEntry id key list) (insertEntry id key list) fun u => u :=
  tracks_write (fun _ => rfl) (fun _ _ => rfl) (fun a => a.insertEntry id key list) (fun a => a.insertEntry id key list)
    fun _ => insertEntry_spellOut id key list

variable (hbase : ∀ scope, base = some scope → Reference.parse scope = .ok (.foreign scope))
include hbase

/-- A text is read as the text that is spelled out. -/
theorem tracks_readInclude_spellOut (text : String) (repository : Option RepositoryId) :
    Tracks (spellOut base) (readInclude text repository) (readInclude (Reference.longForm base text) repository)
      (Include.spellOut base) := by
  intro d
  simp only [readInclude, LinkM.start_ofRun, Include.ofReference_longForm hbase]
  -- a malformed text is no shorthand, so both errors show it as it was written
  cases hread : Include.ofReference text repository with
  | error e => rfl
  | ok i => rfl

end Draft

open Draft

/-! ## Records -/

namespace Record

variable {base : Option String} (hbase : ∀ scope, base = some scope → Reference.parse scope = .ok (.foreign scope))

/-- A record is built as the record that is spelled out. -/
def BuildsSpelled (base : Option String) (r : Record) (repository : Option RepositoryId) (parent : Option NodeId) : Prop :=
  Tracks (Draft.spellOut base) (r.build repository parent) ((r.spellOut base).build repository parent) fun id => id

/-- Records are built as the records that are spelled out. -/
def BuildsItemsSpelled (base : Option String) (records : List Record) (repository : Option RepositoryId) (parent : Option NodeId) :
    Prop :=
  Tracks (Draft.spellOut base) (buildItems records repository parent) (buildItems (spellOutItems base records) repository parent)
    fun ids => ids

/-- Entries are built as the entries that are spelled out. -/
def BuildsEntriesSpelled (base : Option String) (entries : List (String × Record)) (repository : RepositoryId) : Prop :=
  Tracks (Draft.spellOut base) (buildEntries entries repository) (buildEntries (spellOutEntries base entries) repository) fun u => u

include hbase in
/-- An include record is built as the record that is spelled out. -/
theorem buildsSpelled_include (text : String) (name : Option String) (rule : MatchRule) (patterns : List Record)
    (nested : List (String × Record)) (repository : Option RepositoryId) (parent : Option NodeId) :
    BuildsSpelled base ⟨some text, name, rule, patterns, nested⟩ repository parent := by
  unfold BuildsSpelled Record.spellOut Record.build
  refine (tracks_readInclude_spellOut hbase text repository).bind fun content => ?_
  refine (tracks_allocNode_spellOut { name, parent, body := .inclusion content }).bind fun id => ?_
  exact (tracks_register_spellOut id).bind fun _ => tracks_pure rfl

/-- A rule is built with its patterns and the repository that it opens. -/
theorem buildsSpelled_rule {name : Option String} {rule : MatchRule} {patterns : List Record} {nested : List (String × Record)}
    (hitems : ∀ id scope, BuildsItemsSpelled base patterns scope (some id))
    (hentries : ∀ opened, BuildsEntriesSpelled base nested opened) (repository : Option RepositoryId) (parent : Option NodeId) :
    BuildsSpelled base ⟨none, name, rule, patterns, nested⟩ repository parent := by
  unfold BuildsSpelled Record.spellOut Record.build
  refine (tracks_allocList_spellOut []).bind fun children => ?_
  refine (tracks_allocNode_spellOut { name, rule, parent, body := .rule children }).bind fun id => ?_
  have hrest (scope : Option RepositoryId) : Tracks (Draft.spellOut base)
      (do
        let items ← buildItems patterns scope (some id)
        setList children items
        return id)
      (do
        let items ← buildItems (spellOutItems base patterns) scope (some id)
        setList children items
        return id) fun id => id :=
    (hitems id scope).bind fun items => (tracks_setList_spellOut children items).bind fun _ => tracks_pure rfl
  rw [isEmpty_spellOutEntries]
  refine .ite (hrest repository).pure_bind ((tracks_allocRepository_spellOut repository).bind fun opened => ?_)
  exact (hentries opened).bind fun _ => (hrest (some opened)).pure_bind

/-- What an entry stands for is put into a list of its own, and the list into the repository, before the other entries are built. -/
theorem buildsSpelled_entry {rest : List (String × Record)} {repository : RepositoryId}
    (hrest : BuildsEntriesSpelled base rest repository) (key : String) (items : List NodeId) :
    Tracks (Draft.spellOut base)
      (do
        let list ← allocList items
        insertEntry repository key list
        buildEntries rest repository)
      (do
        let list ← allocList items
        insertEntry repository key list
        buildEntries (spellOutEntries base rest) repository) fun u => u :=
  (tracks_allocList_spellOut items).bind fun list => (tracks_insertEntry_spellOut repository key list).bind fun _ => hrest

include hbase in
/-- Records, and entries of repositories, are built as they are built when they are spelled out. -/
theorem buildsSpelled_all :
    (∀ r repository parent, BuildsSpelled base r repository parent) ∧
      (∀ entries repository, BuildsEntriesSpelled base entries repository) ∧
        ∀ records repository parent, BuildsItemsSpelled base records repository parent := by
  refine Record.build.mutual_induct (BuildsSpelled base) (BuildsEntriesSpelled base) (BuildsItemsSpelled base)
    ?_ ?_ ?_ ?_ ?_ ?_ ?_
  · exact fun text name rule patterns nested => buildsSpelled_include hbase text name rule patterns nested
  · exact fun name rule patterns nested repository parent hitems hentries =>
      buildsSpelled_rule hitems hentries repository parent
  · intro repository parent
    unfold BuildsItemsSpelled spellOutItems buildItems
    exact tracks_pure rfl
  · intro r rest repository parent hr hrest
    unfold BuildsItemsSpelled spellOutItems buildItems
    exact hr.bind fun id => hrest.bind fun ids => tracks_pure rfl
  · intro repository
    unfold BuildsEntriesSpelled spellOutEntries buildEntries
    exact tracks_pure rfl
  · intro key reference name rule patterns nested rest repository hbare hrest hpatterns
    have hbare' := (isBareGroup_spellOut base ⟨reference, name, rule, patterns, nested⟩).trans hbare
    unfold BuildsEntriesSpelled spellOutEntries buildEntries
    unfold Record.spellOut at hbare' ⊢
    simp only [hbare, hbare', if_true]
    exact hpatterns.bind (buildsSpelled_entry hrest key)
  · intro key reference name rule patterns nested rest repository hbare hrest hrecord
    have hbare' := mt (isBareGroup_spellOut base ⟨reference, name, rule, patterns, nested⟩).symm.trans hbare
    unfold BuildsEntriesSpelled spellOutEntries buildEntries
    unfold BuildsSpelled at hrecord
    unfold Record.spellOut at hbare' hrecord ⊢
    simp only [if_neg hbare, if_neg hbare']
    exact hrecord.bind fun id => (buildsSpelled_entry hrest key [id]).pure_bind

end Record

/-! ## Grammars -/

/-- Building a file that is spelled out is building the file and spelling out what was built. -/
theorem Grammar.build_spellOut {base : Option String}
    (hbase : ∀ scope, base = some scope → Reference.parse scope = .ok (.foreign scope)) (file : GrammarFile) (a : Arena) :
    (build (file.spellOut base)).start (a.spellOut base) = ((build file).start a).map fun p => (p.1, p.2.spellOut base) := by
  have hfile : Tracks (Draft.spellOut base)
      (do
        let repository ← Registry.buildRepository file.repository none
        let root ← Registry.build file.patterns (some repository) none
        return (repository, root))
      (do
        let repository ← Registry.buildRepository (file.spellOut base).repository none
        let root ← Registry.build (file.spellOut base).patterns (some repository) none
        return (repository, root)) fun p => p := by
    obtain ⟨-, hentries, hitems⟩ := Record.buildsSpelled_all hbase
    have hrepository : Tracks (Draft.spellOut base) (Registry.buildRepository file.repository none)
        (Registry.buildRepository (file.spellOut base).repository none) fun id => id :=
      (tracks_allocRepository_spellOut none).bind fun repository =>
        (hentries file.repository repository).bind fun _ => tracks_pure rfl
    refine hrepository.bind fun repository => ?_
    have hroot : Tracks (Draft.spellOut base) (Registry.build file.patterns (some repository) none)
        (Registry.build (file.spellOut base).patterns (some repository) none) fun id => id :=
      (hitems file.patterns (some repository) none).bind fun items => tracks_allocList_spellOut items
    exact hroot.bind fun root => tracks_pure rfl
  have hrun := hfile { arena := a, registry := { owner := file.scopeName } }
  rw [start_build, start_build]
  have hscope : (file.spellOut base).scopeName = file.scopeName := rfl
  rw [hscope]
  unfold Draft.spellOut at hrun
  rw [hrun]
  generalize LinkM.start _ _ = outcome
  cases outcome with
  | error fault => rfl
  | ok p =>
    obtain ⟨answer, d⟩ := p
    cases answer <;> rfl

end GrammarLinker
