import GrammarLinker.Proofs.Arena.Embedding
import GrammarLinker.Proofs.Grammar.Build

/-!
# Building somewhere else

A build allocates at the end of the arena and looks at nothing that was there before. So building in an arena is building in an empty
one and putting the result after what is there (`Arena.append`), with ids that come after those of it (`Arena.shift`). This holds of
every part of a build (`Draft.Relocates`), by what it does in one go, and so of the whole (`Record.relocates_all`).
-/

namespace GrammarLinker

open Arena

/-- A node with other ids. -/
def Node.rename (φ : Renaming) (n : Node) : Node :=
  { n with parent := n.parent.map φ.node, body := n.body.rename φ }

/-- A repository in which one entry was put. -/
def Repository.filled (r : Repository) (key : String) (list : ListId) : Repository :=
  { r with entries := Keyed.put key list r.entries }

/-- It does not matter whether the entry is put before or after the ids are renamed. -/
theorem Repository.filled_rename (r : Repository) (φ : Renaming) (key : String) (list : ListId) :
    { r.rename φ with entries := Keyed.put key (φ.list list) (r.rename φ).entries } = (r.filled key list).rename φ := by
  simp only [filled, rename, Keyed.put_map]

namespace Arena

/-- Ids that come after those of an arena. -/
def shift (lo : Arena) : Renaming where
  node id := ⟨lo.nodes.size + id.index⟩
  list id := ⟨lo.lists.size + id.index⟩
  repository id := ⟨lo.repositories.size + id.index⟩

/-- The objects of one arena, and after them those of another. -/
def append (lo a : Arena) : Arena where
  nodes := lo.nodes ++ a.nodes.map (Node.rename lo.shift)
  lists := lo.lists ++ a.lists.map (List.map lo.shift.node)
  repositories := lo.repositories ++ a.repositories.map (Repository.rename lo.shift)

variable {lo a : Arena}

/-- After an arena nothing comes of an empty one. -/
theorem append_empty (lo : Arena) : lo.append {} = lo := by
  simp [append]

/-! ## Reading -/

/-- Under the ids that come after, the nodes of the other arena are read, renamed. -/
theorem node_append (id : NodeId) : (lo.append a).node (lo.shift.node id) = (a.node id).map (Node.rename lo.shift) := by
  simp only [Arena.node, append, shift, Array.getElem?_append_right (Nat.le_add_right _ _), Nat.add_sub_cancel_left,
    Array.getElem?_map]
  cases a.nodes[id.index]? <;> rfl

/-- So are its lists. -/
theorem list_append (id : ListId) : (lo.append a).list (lo.shift.list id) = (a.list id).map (List.map lo.shift.node) := by
  simp only [Arena.list, append, shift, Array.getElem?_append_right (Nat.le_add_right _ _), Nat.add_sub_cancel_left,
    Array.getElem?_map]
  cases a.lists[id.index]? <;> rfl

/-- So are its repositories. -/
theorem repository_append (id : RepositoryId) :
    (lo.append a).repository (lo.shift.repository id) = (a.repository id).map (Repository.rename lo.shift) := by
  simp only [Arena.repository, append, shift, Array.getElem?_append_right (Nat.le_add_right _ _), Nat.add_sub_cancel_left,
    Array.getElem?_map]
  cases a.repositories[id.index]? <;> rfl

/-- What comes after an arena is the other one under other ids. -/
theorem embeds_append (lo a : Arena) : Embeds lo.shift a.region a (lo.append a) := by
  refine ⟨fun id node hn _ => ⟨node.parent.map lo.shift.node, ?_⟩, fun id items hl _ => ?_, fun id r hr _ => ?_⟩
  · rw [node_append, hn]
    rfl
  · rw [list_append, hl]
    rfl
  · rw [repository_append, hr]
    rfl

/-- The ids that come after those of an arena are ids of none of its nodes. -/
theorem not_hasNode_shift (lo : Arena) (id : NodeId) : ¬lo.HasNode (lo.shift.node id) :=
  Nat.not_lt.2 (Nat.le_add_right _ _)

/-- A node of the other arena is there under its new id. -/
theorem hasNode_append {id : NodeId} (h : a.HasNode id) : (lo.append a).HasNode (lo.shift.node id) := by
  simpa [HasNode, append, shift] using h

/-- Different nodes get different ids. -/
theorem shift_node_inj {id k : NodeId} (h : lo.shift.node id = lo.shift.node k) : id = k := by
  obtain ⟨i⟩ := id
  obtain ⟨j⟩ := k
  simpa [shift] using h

/-! ## Writing -/

/-- Adding a renamed node after an arena is adding it and renaming. -/
theorem allocNode_append (node : Node) : (lo.append a).allocNode (node.rename lo.shift) =
    (lo.shift.node (a.allocNode node).1, lo.append (a.allocNode node).2) := by
  simp [allocNode, append, shift]

/-- So it is with a list. -/
theorem allocList_append (items : List NodeId) : (lo.append a).allocList (items.map lo.shift.node) =
    (lo.shift.list (a.allocList items).1, lo.append (a.allocList items).2) := by
  simp [allocList, append, shift]

/-- So it is with a repository. -/
theorem allocRepository_append (parent : Option RepositoryId) :
    (lo.append a).allocRepository (parent.map lo.shift.repository) =
      (lo.shift.repository (a.allocRepository parent).1, lo.append (a.allocRepository parent).2) := by
  simp [allocRepository, append, shift, Repository.rename]

/-- Replacing an item of what comes after an array. -/
theorem set_append_map {α β : Type} {xs : Array β} {ys : Array α} {f : α → β} {i : Nat} {v : α} (hi : i < ys.size)
    (hi' : xs.size + i < (xs ++ ys.map f).size) : (xs ++ ys.map f).set (xs.size + i) (f v) hi' = xs ++ (ys.set i v hi).map f := by
  rw [Array.map_set, Array.set_append_right _ (Nat.le_add_right _ _)]
  simp only [Nat.add_sub_cancel_left]

/-- Writing renamed items after an arena is writing them and renaming. -/
theorem setList_append (id : ListId) (items : List NodeId) :
    (lo.append a).setList (lo.shift.list id) (items.map lo.shift.node) = (a.setList id items).map lo.append := by
  have hiff : (lo.shift.list id).index < (lo.append a).lists.size ↔ id.index < a.lists.size := by simp [shift, append]
  unfold setList
  by_cases hid : id.index < a.lists.size
  · rw [dif_pos hid, dif_pos (hiff.2 hid)]
    have hset := set_append_map (f := List.map lo.shift.node) (v := items) hid (hiff.2 hid)
    exact congrArg (fun lists => Except.ok { lo.append a with lists }) hset
  · rw [dif_neg hid, dif_neg (mt hiff.1 hid)]
    rfl

/-- So it is with an entry of a repository. -/
theorem insertEntry_append (id : RepositoryId) (key : String) (list : ListId) :
    (lo.append a).insertEntry (lo.shift.repository id) key (lo.shift.list list) = (a.insertEntry id key list).map lo.append := by
  have hiff : (lo.shift.repository id).index < (lo.append a).repositories.size ↔ id.index < a.repositories.size := by
    simp [shift, append]
  unfold insertEntry
  by_cases hid : id.index < a.repositories.size
  · have hid' := hiff.2 hid
    have hread : (lo.append a).repositories[(lo.shift.repository id).index] = a.repositories[id.index].rename lo.shift := by
      simp [append, shift]
    rw [dif_pos hid, dif_pos hid', hread]
    simp only [Repository.filled_rename]
    have hset := set_append_map (f := Repository.rename lo.shift) (v := a.repositories[id.index].filled key list) hid hid'
    exact congrArg (fun repositories => Except.ok { lo.append a with repositories }) hset
  · rw [dif_neg hid, dif_neg (mt hiff.1 hid)]
    rfl

end Arena

/-! ## Building -/

namespace Draft

variable {lo : Arena} {α β γ δ : Type} {x : LinkM Draft α} {y : LinkM Draft β} {f : α → β} {τ : Draft → Draft}

/-- Two parts of a build do the same, the second one in what a function makes of the drafts of the first. -/
def Tracks (τ : Draft → Draft) (x : LinkM Draft α) (y : LinkM Draft β) (f : α → β) : Prop :=
  ∀ d, y.start (τ d) = (x.start d).map fun p => (p.1.map f, τ p.2)

/-- Values that correspond are given back. -/
theorem tracks_pure {value : α} {value' : β} (h : f value = value') : Tracks τ (pure value) (pure value') f := by
  subst h
  exact fun _ => rfl

/-- Parts that do the same do so one after the other. -/
theorem Tracks.bind {k : α → LinkM Draft γ} {k' : β → LinkM Draft δ} {h : γ → δ} (hx : Tracks τ x y f)
    (hk : ∀ value, Tracks τ (k value) (k' (f value)) h) : Tracks τ (x >>= k) (y >>= k') h := by
  intro d
  rw [LinkM.start_bind, LinkM.start_bind, hx d]
  cases x.start d with
  | error fault => rfl
  | ok p =>
    obtain ⟨answer, d'⟩ := p
    cases answer with
    | error e => rfl
    | ok value => exact hk value d'

/-- Values that are given back may be passed on at once. -/
theorem Tracks.pure_bind {value : α} {value' : β} {k : α → LinkM Draft γ} {k' : β → LinkM Draft δ} {h : γ → δ}
    (hk : Tracks τ (k value) (k' value') h) : Tracks τ (pure value >>= k) (pure value' >>= k') h := fun d => hk d

/-- Parts that do the same may be chosen between. -/
theorem Tracks.ite {c : Prop} [Decidable c] {x' : LinkM Draft α} {y' : LinkM Draft β} (hx : Tracks τ x y f)
    (hx' : Tracks τ x' y' f) : Tracks τ (if c then x else x') (if c then y else y') f := by
  by_cases hc : c
  · rw [if_pos hc, if_pos hc]
    exact hx
  · rw [if_neg hc, if_neg hc]
    exact hx'

/-- What is written into the arena is written into what is made of it. -/
theorem tracks_write {σ : Arena → Arena} (harena : ∀ d, (τ d).arena = σ d.arena)
    (hτ : ∀ d a, ({ τ d with arena := σ a } : Draft) = τ { d with arena := a })
    (write write' : Arena → Except Fault Arena) (h : ∀ a, write' (σ a) = (write a).map σ) :
    Tracks τ (.ofChange fun d => do return ((), { d with arena := ← write d.arena }))
      (.ofChange fun d => do return ((), { d with arena := ← write' d.arena })) fun u => u := by
  intro d
  show (do let r ← (do return ((), { τ d with arena := ← write' (τ d).arena })); _) = _
  rw [harena, h]
  show _ = Except.map _ (do let r ← (do return ((), { d with arena := ← write d.arena })); _)
  cases write d.arena with
  | error fault => rfl
  | ok a => exact congrArg (fun t => Except.ok (Except.ok (), t)) (hτ d a)

/-- A draft that was begun in an empty arena, as if it had been begun in another one. -/
def after (lo : Arena) (d : Draft) : Draft where
  arena := lo.append d.arena
  registry := { d.registry with includes := d.registry.includes.map lo.shift.node }

/-- Two parts of a build do the same, the one in an arena and the other one after it. -/
abbrev Relocates (lo : Arena) (x : LinkM Draft α) (y : LinkM Draft β) (f : α → β) : Prop := Tracks (after lo) x y f

/-! ### The steps -/

/-- A node is added in both arenas. -/
theorem relocates_allocNode (node : Node) :
    Relocates lo (allocNode node) (allocNode (node.rename lo.shift)) lo.shift.node := by
  intro d
  show Except.ok (Except.ok ((lo.append d.arena).allocNode (node.rename lo.shift)).1,
    ({ d.after lo with arena := ((lo.append d.arena).allocNode (node.rename lo.shift)).2 } : Draft)) = _
  rw [allocNode_append]
  rfl

/-- A list is added in both arenas. -/
theorem relocates_allocList (items : List NodeId) :
    Relocates lo (allocList items) (allocList (items.map lo.shift.node)) lo.shift.list := by
  intro d
  show Except.ok (Except.ok ((lo.append d.arena).allocList (items.map lo.shift.node)).1,
    ({ d.after lo with arena := ((lo.append d.arena).allocList (items.map lo.shift.node)).2 } : Draft)) = _
  rw [allocList_append]
  rfl

/-- A repository is added in both arenas. -/
theorem relocates_allocRepository (parent : Option RepositoryId) :
    Relocates lo (allocRepository parent) (allocRepository (parent.map lo.shift.repository)) lo.shift.repository := by
  intro d
  show Except.ok (Except.ok ((lo.append d.arena).allocRepository (parent.map lo.shift.repository)).1,
    ({ d.after lo with arena := ((lo.append d.arena).allocRepository (parent.map lo.shift.repository)).2 } : Draft)) = _
  rw [allocRepository_append]
  rfl

/-- The items of a list are written in both arenas. -/
theorem relocates_setList (id : ListId) (items : List NodeId) :
    Relocates lo (setList id items) (setList (lo.shift.list id) (items.map lo.shift.node)) fun u => u :=
  tracks_write (fun _ => rfl) (fun _ _ => rfl) (fun a => a.setList id items)
    (fun a => a.setList (lo.shift.list id) (items.map lo.shift.node)) fun _ => setList_append id items

/-- A repository is given an entry in both arenas. -/
theorem relocates_insertEntry (id : RepositoryId) (key : String) (list : ListId) :
    Relocates lo (insertEntry id key list) (insertEntry (lo.shift.repository id) key (lo.shift.list list)) fun u => u :=
  tracks_write (fun _ => rfl) (fun _ _ => rfl) (fun a => a.insertEntry id key list)
    (fun a => a.insertEntry (lo.shift.repository id) key (lo.shift.list list)) fun _ => insertEntry_append id key list

/-- An include is registered in both drafts. -/
theorem relocates_register (id : NodeId) : Relocates lo (register id) (register (lo.shift.node id)) fun u => u := by
  intro d
  show Except.ok (Except.ok (), (⟨lo.append d.arena, (d.after lo).registry.register (lo.shift.node id)⟩ : Draft)) =
    Except.ok (Except.ok (), Draft.after lo ⟨d.arena, d.registry.register id⟩)
  simp [after, Registry.register]

/-- A reference is read in the same way, within repositories that correspond. -/
theorem relocates_readInclude (text : String) (repository : Option RepositoryId) :
    Relocates lo (readInclude text repository) (readInclude text (repository.map lo.shift.repository))
      (Include.rename lo.shift) := by
  intro d
  simp only [readInclude, LinkM.start_ofRun, Include.ofReference]
  cases Reference.parse text <;> rfl

end Draft

open Draft

/-! ### Records -/

namespace Record

variable {lo : Arena}

/-- An include record is built in the same way after an arena. -/
theorem relocates_build_include (text : String) (name : Option String) (rule : MatchRule) (patterns : List Record)
    (nested : List (String × Record)) (repository : Option RepositoryId) (parent : Option NodeId) :
    Relocates lo (Record.build ⟨some text, name, rule, patterns, nested⟩ repository parent)
      (Record.build ⟨some text, name, rule, patterns, nested⟩ (repository.map lo.shift.repository) (parent.map lo.shift.node))
      lo.shift.node := by
  unfold Record.build
  refine (relocates_readInclude text repository).bind fun content => ?_
  have hnode : ({ name, parent := parent.map lo.shift.node, body := .inclusion (content.rename lo.shift) } : Node) =
      Node.rename lo.shift { name, parent, body := .inclusion content } := by
    rw [Node.rename, NodeBody.rename_inclusion]
  rw [hnode]
  refine (relocates_allocNode _).bind fun id => ?_
  exact (relocates_register id).bind fun _ => tracks_pure rfl

/-- A rule goes somewhere else with its patterns and the repository that it opens. -/
theorem relocates_build_rule {name : Option String} {rule : MatchRule} {patterns : List Record} {nested : List (String × Record)}
    (hitems : ∀ id scope, Relocates lo (buildItems patterns scope (some id))
      (buildItems patterns (scope.map lo.shift.repository) (some (lo.shift.node id))) (List.map lo.shift.node))
    (hentries : ∀ opened, Relocates lo (buildEntries nested opened) (buildEntries nested (lo.shift.repository opened)) fun u => u)
    (repository : Option RepositoryId) (parent : Option NodeId) :
    Relocates lo (Record.build ⟨none, name, rule, patterns, nested⟩ repository parent)
      (Record.build ⟨none, name, rule, patterns, nested⟩ (repository.map lo.shift.repository) (parent.map lo.shift.node))
      lo.shift.node := by
  unfold Record.build
  refine (relocates_allocList []).bind fun children => ?_
  refine (relocates_allocNode { name, rule, parent, body := .rule children }).bind fun id => ?_
  have hrest (scope : Option RepositoryId) : Relocates lo
      (do
        let items ← buildItems patterns scope (some id)
        setList children items
        return id)
      (do
        let items ← buildItems patterns (scope.map lo.shift.repository) (some (lo.shift.node id))
        setList (lo.shift.list children) items
        return lo.shift.node id) lo.shift.node :=
    (hitems id scope).bind fun items => (relocates_setList children items).bind fun _ => tracks_pure rfl
  refine .ite (hrest repository).pure_bind ((relocates_allocRepository repository).bind fun opened => ?_)
  exact (hentries opened).bind fun _ => (hrest (some opened)).pure_bind

/-- Records, and entries of repositories, are built somewhere else as they are built in an empty arena. -/
theorem relocates_all (lo : Arena) :
    (∀ (r : Record) repository parent, Relocates lo (r.build repository parent)
      (r.build (repository.map lo.shift.repository) (parent.map lo.shift.node)) lo.shift.node) ∧
    (∀ entries repository, Relocates lo (buildEntries entries repository) (buildEntries entries (lo.shift.repository repository))
      fun u => u) ∧
    ∀ records repository parent, Relocates lo (buildItems records repository parent)
      (buildItems records (repository.map lo.shift.repository) (parent.map lo.shift.node)) (List.map lo.shift.node) := by
  refine Record.build.mutual_induct
    (fun r repository parent => Relocates lo (r.build repository parent)
      (r.build (repository.map lo.shift.repository) (parent.map lo.shift.node)) lo.shift.node)
    (fun entries repository => Relocates lo (buildEntries entries repository)
      (buildEntries entries (lo.shift.repository repository)) fun u => u)
    (fun records repository parent => Relocates lo (buildItems records repository parent)
      (buildItems records (repository.map lo.shift.repository) (parent.map lo.shift.node)) (List.map lo.shift.node))
    ?_ ?_ ?_ ?_ ?_ ?_ ?_
  · exact fun text name rule patterns nested => relocates_build_include text name rule patterns nested
  · exact fun name rule patterns nested repository parent hitems hentries =>
      relocates_build_rule hitems hentries repository parent
  · intro repository parent
    unfold buildItems
    exact tracks_pure rfl
  · intro r rest repository parent hr hrest
    unfold buildItems
    exact hr.bind fun id => hrest.bind fun ids => tracks_pure rfl
  · intro repository
    unfold buildEntries
    exact tracks_pure rfl
  · intro key reference name rule patterns nested rest repository hbare hrest hpatterns
    unfold buildEntries
    simp only [hbare, if_true]
    exact hpatterns.bind fun items => (relocates_allocList items).bind fun list =>
      (relocates_insertEntry repository key list).bind fun _ => hrest
  · intro key reference name rule patterns nested rest repository hbare hrest hrecord
    unfold buildEntries
    simp only [if_neg hbare]
    exact hrecord.bind fun id => ((relocates_allocList [id]).bind fun list =>
      (relocates_insertEntry repository key list).bind fun _ => hrest).pure_bind

end Record

/-! ### Grammars -/

/-- A grammar with other ids. -/
def Grammar.rename (φ : Renaming) (g : Grammar) : Grammar :=
  { g with
    root := φ.list g.root
    repository := φ.repository g.repository
    registry := { g.registry with includes := g.registry.includes.map φ.node } }

/-- A repository is built in the same way after an arena. -/
theorem Registry.relocates_buildRepository (lo : Arena) (entries : List (String × Record)) :
    Relocates lo (buildRepository entries none) (buildRepository entries none) lo.shift.repository := by
  unfold buildRepository
  refine (relocates_allocRepository none).bind fun repository => ?_
  exact ((Record.relocates_all lo).2.1 entries repository).bind fun _ => tracks_pure rfl

/-- A list of patterns is built in the same way after an arena. -/
theorem Registry.relocates_build (lo : Arena) (records : List Record) (repository : RepositoryId) :
    Relocates lo (build records (some repository) none) (build records (some (lo.shift.repository repository)) none)
      lo.shift.list := by
  unfold build
  exact ((Record.relocates_all lo).2.2 records (some repository) none).bind fun items => relocates_allocList items

/-- Building a file in an arena is building it in an empty one and putting the result after the arena. -/
theorem Grammar.build_relocates (file : GrammarFile) (lo : Arena) :
    (build file).start lo =
      ((build file).start {}).map fun p => (p.1.map (Grammar.rename lo.shift), lo.append p.2) := by
  have hfile : Relocates lo
      (do
        let repository ← Registry.buildRepository file.repository none
        let root ← Registry.build file.patterns (some repository) none
        return (repository, root))
      (do
        let repository ← Registry.buildRepository file.repository none
        let root ← Registry.build file.patterns (some repository) none
        return (repository, root)) (Prod.map lo.shift.repository lo.shift.list) := by
    refine (Registry.relocates_buildRepository lo file.repository).bind fun repository => ?_
    exact (Registry.relocates_build lo file.patterns repository).bind fun root => tracks_pure rfl
  have hrun := hfile { arena := {}, registry := { owner := file.scopeName } }
  rw [Draft.after, append_empty] at hrun
  simp only [List.map_nil] at hrun
  rw [start_build, start_build, hrun]
  generalize LinkM.start _ _ = outcome
  cases outcome with
  | error fault => rfl
  | ok p =>
    obtain ⟨answer, d⟩ := p
    cases answer <;> rfl

end GrammarLinker
