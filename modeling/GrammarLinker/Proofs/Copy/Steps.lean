import GrammarLinker.Proofs.Copy.State

/-!
# What the parts of copying do

`Copier.Answers` says that a part of copying comes to an end and what holds then. Each part keeps the invariant and gives the copy of
what it was asked for, when that belongs to a region that is not left by following. Only the queue may go on for longer than it is
given time: it does so when there are more lists than ids (`Copier.drain_cases`).
-/

namespace GrammarLinker

open Arena

namespace Copier

variable {α β : Type} {a b : Arena} {ρ : Region} {c d : Copier} {x : CopyM α} {Q : α → Copier → Prop}
  {list : Option ListId}

/-- A part of copying comes to an end, and what is said of its value and of the state after it is so. -/
def Answers (x : CopyM α) (c : Copier) (Q : α → Copier → Prop) : Prop :=
  ∃ value d, x.run c = .ok (value, d) ∧ Q value d

/-- After a part that comes to an end the rest goes on. -/
theorem run_bind_of_ok {f : α → CopyM β} {value : α} (h : x.run c = .ok (value, d)) : (x >>= f).run c = (f value).run d := by
  rw [StateT.run_bind, h]
  rfl

/-- When the whole comes to an end, so do its parts. -/
theorem exists_of_run_bind {f : α → CopyM β} {value : β} (h : (x >>= f).run c = .ok (value, d)) :
    ∃ first m, x.run c = .ok (first, m) ∧ (f first).run m = .ok (value, d) := by
  rw [StateT.run_bind] at h
  obtain ⟨⟨first, m⟩, hfirst, hrest⟩ := exists_of_bind_eq_ok h
  exact ⟨first, m, hfirst, hrest⟩

/-- A fault of a part is the fault of the whole. -/
theorem run_bind_of_error {f : α → CopyM β} {fault : Fault} (h : x.run c = .error fault) : (x >>= f).run c = .error fault := by
  rw [StateT.run_bind, h]
  rfl

/-- A value is given back. -/
theorem answers_pure {value : α} (h : Q value c) : Answers (pure value) c Q := ⟨value, c, rfl, h⟩

/-- Parts that answer may follow each other. -/
theorem Answers.bind {f : α → CopyM β} {R : β → Copier → Prop} (hx : Answers x c Q)
    (hf : ∀ value d, Q value d → Answers (f value) d R) : Answers (x >>= f) c R := by
  obtain ⟨value, d, hrun, hq⟩ := hx
  obtain ⟨value', e, hrun', hr⟩ := hf value d hq
  exact ⟨value', e, (run_bind_of_ok hrun).trans hrun', hr⟩

/-- Less may be said of an answer. -/
theorem Answers.imp {R : α → Copier → Prop} (hx : Answers x c Q) (h : ∀ value d, Q value d → R value d) : Answers x c R := by
  obtain ⟨value, d, hrun, hq⟩ := hx
  exact ⟨value, d, hrun, h value d hq⟩

/-- The state is read. -/
theorem answers_get {f : Copier → CopyM α} (h : Answers (f c) c Q) : Answers (get >>= f) c Q := h

/-- The state is written. -/
theorem answers_set {f : PUnit → CopyM α} (h : Answers (f ⟨⟩) d Q) : Answers (set d >>= f) c Q := h

/-- What is read from the arena without a fault is passed on. -/
theorem answers_lift {value : β} {e : Except Fault β} {f : β → CopyM α} (he : e = .ok value) (h : Answers (f value) c Q) :
    Answers (liftM e >>= f) c Q := by
  subst he
  exact h

/-! ## Lists -/

/-- The lists that are recorded in addition are of a kind. -/
def Adds (c d : Copier) (E : ListId → Prop) : Prop := ∀ p ∈ d.lists, p ∈ c.lists ∨ E p.1

/-- A copier that stays as it is adds no list. -/
theorem Adds.refl (c : Copier) (E : ListId → Prop) : c.Adds c E := fun _ hp => .inl hp

/-- Lists may be added in two goes. -/
theorem Adds.trans {E : ListId → Prop} {e : Copier} (h : c.Adds d E) (h' : d.Adds e E) : c.Adds e E :=
  fun p hp => (h' p hp).elim (h p) .inr

/-- Less may be said of the lists that are added. -/
theorem Adds.imp {E E' : ListId → Prop} (h : c.Adds d E) (hE : ∀ l, E l → E' l) : c.Adds d E' :=
  fun p hp => (h p hp).imp_right (hE p.1)

/-- A list is an entry of a repository. -/
def IsEntry (a : Arena) (l : ListId) : Prop := ∃ id r, a.repository id = .ok r ∧ ∃ entry ∈ r.entries, entry.2 = l

/-- The list of the children of a rule, or the list that an include stands for. -/
def Mentions (body : NodeBody) (l : ListId) : Prop := body = .rule l ∨ ∃ i, body = .inclusion i ∧ i.target? = some l

/-- The copy of a list is the one that it has, or an empty one that is added and queued. -/
theorem answers_mapList {repository : Option RepositoryId} (h : Sound a ρ list repository c) {source : ListId}
    (hρ : ρ.lists source) :
    Answers (mapList source) c fun copy d => (source, copy) ∈ d.lists ∧ Sound a ρ list repository d ∧ c.Grows d ∧
      c.arena.Extends d.arena ∧ d.nodes = c.nodes ∧ d.repositories = c.repositories ∧ c.Adds d (· = source) := by
  cases hl : c.lists.lookup source with
  | some copy =>
    have hrun : (mapList source).run c = .ok (copy, c) := by
      simp only [mapList, StateT.run, hl]
    exact ⟨copy, c, hrun, mem_of_lookup hl, h, .refl c, .refl _, rfl, rfl, .refl c _⟩
  | none =>
    refine ⟨_, _, ?_, List.mem_cons_self, h.addList (not_mem_of_lookup hl) hρ, ?_, extends_allocList _ _, rfl, rfl, ?_⟩
    · simp only [mapList, StateT.run, hl]
    · refine ⟨fun _ h => h, List.subset_cons_self _ _, fun _ h => h, List.subset_append_left _ _, ?_⟩
      simp only [List.length_cons, List.length_append, List.length_nil]
      omega
    · intro p hp
      rcases List.mem_cons.1 hp with rfl | hp
      · exact .inr rfl
      · exact .inl hp

/-- The recorded lists are lists of the arena, each once. -/
theorem Sound.length_lists_le {repository : Option RepositoryId} (h : Sound a ρ list repository c) (hρa : ρ.Within a.region) :
    c.lists.length ≤ a.lists.size := by
  have hhas : ∀ id ∈ c.lists.map Prod.fst, a.HasList id := by
    intro id hid
    obtain ⟨p, hp, rfl⟩ := List.mem_map.1 hid
    exact hρa.lists _ (h.lists.reached p hp)
  have hle := Arena.length_lists_le h.lists.sources hhas
  rwa [List.length_map] at hle

/-! ## Repositories -/

/-- What keeps an arena but for a repository keeps every region that the repository is not in. -/
theorem keeps_of_except {ω : Region} {copy : RepositoryId} (h : Draft.Keeps (a.region.except copy) a b)
    (hω : ¬ω.repositories copy) : Draft.Keeps ω a b :=
  ⟨h.node, fun id items _ hl => h.list id items (hasList_of_list hl) hl,
    fun id r hid hr => h.repository id r ⟨hasRepository_of_repository hr, fun heq => hω (heq ▸ hid)⟩ hr, h.hasList,
    h.hasRepository⟩

/-- The copies of entries are put into the copy of a repository, which is all that is changed. -/
theorem answers_mapEntries {source copy : RepositoryId} {parent : Option RepositoryId} {entries done : List (String × ListId)}
    (h : Sound a ρ list (some source) c) (hs : (source, copy) ∈ c.repositories)
    (hread : c.arena.repository copy = .ok { entries := done, parent }) (hρ : ∀ entry ∈ entries, ρ.lists entry.2) :
    Answers (mapEntries copy entries) c fun _ d => Sound a ρ list (some source) d ∧ c.Grows d ∧
      Draft.Keeps (c.arena.region.except copy) c.arena d.arena ∧ d.nodes = c.nodes ∧ d.repositories = c.repositories ∧
      (c.Adds d fun l => ∃ entry ∈ entries, entry.2 = l) ∧ ∃ copied, d.MapsEntries entries copied ∧ d.arena.repository copy =
        .ok { entries := copied.foldl (fun es e => Keyed.put e.1 e.2 es) done, parent } := by
  induction entries generalizing c done with
  | nil => exact answers_pure ⟨h, .refl c, .refl _ _, rfl, rfl, .refl c _, [], .nil, hread⟩
  | cons entry rest ih =>
    obtain ⟨key, l⟩ := entry
    unfold mapEntries
    refine (answers_mapList h (hρ _ List.mem_cons_self)).bind ?_
    rintro mapped d ⟨hmapped, hd, hg, hx, hnodes, hrepositories, hadds⟩
    obtain ⟨m, hm⟩ := insertEntry_ok (hd.hasRepository (hrepositories ▸ hs)).2 key mapped
    refine answers_get (answers_lift hm (answers_set ?_))
    have hreadm : m.repository copy = .ok { entries := Keyed.put key mapped done, parent } := by
      obtain ⟨-, -, -, old, hold, hput⟩ := insertEntry_eq_ok hm
      rw [hx.repository _ _ hread, Except.ok.injEq] at hold
      rw [hput, if_pos rfl, ← hold]
    have hkeeps : Draft.Keeps (c.arena.region.except copy) c.arena m :=
      (Draft.keeps_of_extends hx).trans (Draft.keeps_insertEntry hm fun hno => hno.2 rfl)
    refine (ih (hd.insertEntry (hrepositories ▸ hs) hm) (hrepositories ▸ hs) hreadm
      fun e he => hρ e (List.mem_cons_of_mem _ he)).imp ?_
    rintro _ e ⟨he, hg', hk, hnodes', hrepositories', hadds', copied, hcopied, hreade⟩
    have hfirst : c.Adds d fun t => ∃ entry ∈ (key, l) :: rest, entry.2 = t :=
      hadds.imp fun _ ht => ⟨(key, l), List.mem_cons_self, ht.symm⟩
    have hrest : d.Adds e fun t => ∃ entry ∈ (key, l) :: rest, entry.2 = t := fun p hp =>
      (hadds' p hp).imp_right fun ⟨entry, hentry, ht⟩ => ⟨entry, List.mem_cons_of_mem _ hentry, ht⟩
    have hgrows : d.Grows e := ⟨hg'.nodes, hg'.lists, hg'.repositories, hg'.queue, hg'.balance⟩
    exact ⟨he, hg.trans hgrows, hkeeps.trans (keeps_of_except hk fun hno => hno.2 rfl), hnodes'.trans hnodes,
      hrepositories'.trans hrepositories, hfirst.trans hrest, (key, mapped) :: copied, .cons ⟨rfl, hgrows.lists hmapped⟩ hcopied, hreade⟩

/-- The copy of a repository is made when the copy of the one around it is there. -/
theorem answers_copyRepository {source : RepositoryId} {parent : Option RepositoryId} {r : Repository}
    (h : Sound a ρ list none c) (hs : source ∉ c.repositories.map Prod.fst) (hρ : ρ.repositories source)
    (hr : a.repository source = .ok r) (hentries : ∀ entry ∈ r.entries, ρ.lists entry.2)
    (hp : Option.Rel (fun p p' => (p, p') ∈ c.repositories) r.parent parent) :
    Answers (copyRepository source parent) c fun copy d => Sound a ρ list none d ∧ c.Grows d ∧ c.arena.Extends d.arena ∧
      d.nodes = c.nodes ∧ d.repositories = (source, copy) :: c.repositories ∧ c.Adds d (IsEntry a) := by
  have hparent : ∀ p, parent = some p → c.arena.HasRepository p := by
    rintro p rfl
    generalize r.parent = outer at hp
    cases hp with
    | some hp => exact (h.hasRepository hp).2
  have hadd := h.addRepository hs hρ hparent
  unfold copyRepository
  refine answers_get (answers_set ?_)
  refine answers_lift ((extends_allocRepository _ _).repository _ _ (h.grown.repository _ _ hr)) ?_
  have hread := c.arena.repository_allocRepository_self parent
  refine (answers_mapEntries hadd List.mem_cons_self hread hentries).bind ?_
  rintro _ d ⟨hd, hg, hk, hnodes, hrepositories, hadds, copied, hcopied, hreadd⟩
  have hmem : (source, (c.arena.allocRepository parent).1) ∈ d.repositories := hrepositories ▸ List.mem_cons_self
  refine answers_pure ⟨hd.finishRepository hmem ?_, ?_, ?_, hnodes, hrepositories, fun p hp => ?_⟩
  · intro r' hr'
    rw [hr, Except.ok.injEq] at hr'
    subst hr'
    exact ⟨copied, parent, hreadd, hcopied, rel_mono (fun p hp => hg.repositories (List.mem_cons_of_mem _ hp)) hp⟩
  · exact ⟨hg.nodes, hg.lists, fun p hp => hg.repositories (List.mem_cons_of_mem _ hp), hg.queue, hg.balance⟩
  · have hnew := c.arena.not_hasRepository_allocRepository parent
    exact ((Draft.keeps_of_extends (extends_allocRepository _ _)).trans (keeps_of_except hk hnew)).extends (.refl _)
  · exact (hadds p hp).imp_right fun hentry => ⟨source, r, hr, hentry⟩

/-- A repository whose chain is finite has a copy, which is made after the copies of the chain around it. -/
theorem answers_mapRepositoryWithin {start : Option RepositoryId} {ids : List RepositoryId} (hchain : a.Chain start ids)
    (hstays : a.StaysIn ρ) {source : RepositoryId} (hstart : start = some source) {levels : Nat} (hlevels : ids.length ≤ levels)
    (h : Sound a ρ list none c) (hρ : ρ.repositories source) :
    Answers (mapRepositoryWithin levels source) c fun copy d => (source, copy) ∈ d.repositories ∧ Sound a ρ list none d ∧
      c.Grows d ∧ c.arena.Extends d.arena ∧ d.nodes = c.nodes ∧ c.Adds d (IsEntry a) ∧
      ∀ p ∈ d.repositories, p ∈ c.repositories ∨ p.1 ∈ ids := by
  induction hchain generalizing source levels c with
  | outermost => cases hstart
  | @enclosed inner r outer hr hchain ih =>
    obtain rfl : source = inner := (Option.some.inj hstart).symm
    obtain ⟨levels, rfl⟩ : ∃ n, levels = n + 1 := ⟨levels - 1, by simp only [List.length_cons] at hlevels; omega⟩
    have hrefers := hstays.repository _ _ hr hρ
    unfold mapRepositoryWithin
    refine answers_get ?_
    split
    · rename_i copy hl
      exact answers_pure ⟨mem_of_lookup hl, h, .refl c, .refl _, rfl, .refl c _, fun p hp => .inl hp⟩
    · rename_i hl
      have hs := not_mem_of_lookup hl
      refine answers_get (answers_lift (h.grown.repository _ _ hr) ?_)
      cases hparent : r.parent with
      | none =>
        have hnone : Option.Rel (fun p p' => (p, p') ∈ c.repositories) r.parent none := by
          rw [hparent]
          exact .none
        refine (answers_copyRepository h hs hρ hr hrefers.2 hnone).imp ?_
        rintro copy d ⟨hd, hg, hx, hnodes, hrepositories, hadds⟩
        refine ⟨hrepositories ▸ List.mem_cons_self, hd, hg, hx, hnodes, hadds, ?_⟩
        rw [hrepositories]
        intro p hp
        rcases List.mem_cons.1 hp with rfl | hp
        · exact .inr List.mem_cons_self
        · exact .inl hp
      | some p =>
        refine (ih hparent (Nat.le_of_succ_le_succ hlevels) h (hrefers.1 p hparent)).bind ?_
        rintro parent d ⟨hmem, hd, hg, hx, hnodes, hadds, hold⟩
        -- the chain around a repository does not pass through it, so it has no copy yet
        have hs' : source ∉ d.repositories.map Prod.fst := by
          intro hm
          obtain ⟨q, hq, rfl⟩ := List.mem_map.1 hm
          rcases hold q hq with hq | hq
          · exact hs (List.mem_map_of_mem hq)
          · exact (List.nodup_cons.1 (Chain.enclosed hr hchain).nodup).1 hq
        refine (answers_copyRepository hd hs' hρ hr hrefers.2 (hparent ▸ .some hmem)).imp ?_
        rintro copy e ⟨he, hg', hx', hnodes', hrepositories, hadds'⟩
        refine ⟨hrepositories ▸ List.mem_cons_self, he, hg.trans hg', hx.trans hx', hnodes'.trans hnodes, hadds.trans hadds', ?_⟩
        rw [hrepositories]
        intro q hq
        rcases List.mem_cons.1 hq with rfl | hq
        · exact .inr List.mem_cons_self
        · exact (hold q hq).imp_right (List.mem_cons_of_mem _)

section

variable (hstays : a.StaysIn ρ) (hρa : ρ.Within a.region) (hf : a.FiniteIn ρ)
include hstays hf

/-- A repository has a copy. -/
theorem answers_mapRepository {source : RepositoryId} (h : Sound a ρ list none c) (hρ : ρ.repositories source) :
    Answers (mapRepository source) c fun copy d => (source, copy) ∈ d.repositories ∧ Sound a ρ list none d ∧ c.Grows d ∧
      c.arena.Extends d.arena ∧ d.nodes = c.nodes ∧ c.Adds d (IsEntry a) := by
  obtain ⟨ids, hchain⟩ := hf source hρ
  have hlevels : ids.length ≤ c.arena.repositories.size + 1 :=
    Nat.le_succ_of_le (Nat.le_trans hchain.length_le h.grown.repositories_size_le)
  unfold mapRepository
  refine answers_get ((answers_mapRepositoryWithin hchain hstays rfl hlevels h hρ).imp ?_)
  rintro copy d ⟨hmem, hd, hg, hx, hnodes, hadds, -⟩
  exact ⟨hmem, hd, hg, hx, hnodes, hadds⟩

/-- Where there may be no repository, its copy is asked for if there is one. -/
theorem answers_mapRepository? {source : Option RepositoryId} (h : Sound a ρ list none c)
    (hρ : ∀ r, source = some r → ρ.repositories r) :
    Answers (mapRepository? source) c fun copy d => Option.Rel (fun r r' => (r, r') ∈ d.repositories) source copy ∧
      Sound a ρ list none d ∧ c.Grows d ∧ c.arena.Extends d.arena ∧ d.nodes = c.nodes ∧ c.Adds d (IsEntry a) := by
  cases source with
  | none => exact answers_pure ⟨.none, h, .refl c, .refl _, rfl, .refl c _⟩
  | some source =>
    rw [mapRepository?, map_eq_pure_bind]
    refine (answers_mapRepository hstays hf h (hρ source rfl)).bind ?_
    rintro copy d ⟨hmem, hd⟩
    exact answers_pure ⟨.some hmem, hd⟩

/-! ## Nodes -/

/-- What a node is has a copy. -/
theorem answers_mapBody {body : NodeBody} (h : Sound a ρ list none c) (hρ : body.RefersInto ρ) :
    Answers (mapBody body) c fun copy d => d.MapsBody body copy ∧ Sound a ρ list none d ∧ c.Grows d ∧
      c.arena.Extends d.arena ∧ d.nodes = c.nodes ∧ c.Adds d fun l => IsEntry a l ∨ Mentions body l := by
  cases body with
  | rule children =>
    rw [mapBody, map_eq_pure_bind]
    refine (answers_mapList h hρ).bind ?_
    rintro copy d ⟨hmem, hd, hg, hx, hnodes, -, hadds⟩
    exact answers_pure ⟨.rule hmem, hd, hg, hx, hnodes, hadds.imp fun _ hl => .inr (.inl (congrArg NodeBody.rule hl.symm))⟩
  | inclusion i =>
    obtain ⟨text, declared, state⟩ := i
    unfold mapBody
    refine (answers_mapRepository? hstays hf h hρ.1).bind ?_
    rintro copied d ⟨hrel, hd, hg, hx, hnodes, hadds⟩
    have hentries : c.Adds d fun l => IsEntry a l ∨ Mentions (.inclusion ⟨text, declared, state⟩) l := hadds.imp fun _ => .inl
    cases state with
    | pending reference => exact answers_pure ⟨.pending hrel, hd, hg, hx, hnodes, hentries⟩
    | resolved target =>
      refine (answers_mapList hd (hρ.2 target rfl)).bind ?_
      rintro copy e ⟨hmem, he, hg', hx', hnodes', -, hadds'⟩
      exact answers_pure ⟨.resolved (rel_mono hg'.repositories hrel) hmem, he, hg.trans hg', hx.trans hx', hnodes'.trans hnodes,
        hentries.trans (hadds'.imp fun _ hl => .inr (.inr ⟨_, rfl, congrArg some hl.symm⟩))⟩

include hρa

/-- A node has a copy. -/
theorem answers_mapNode {source : NodeId} (h : Sound a ρ list none c) (hρ : ρ.nodes source) :
    Answers (mapNode source) c fun copy d => (source, copy) ∈ d.nodes ∧ Sound a ρ list none d ∧ c.Grows d ∧
      c.arena.Extends d.arena := by
  unfold mapNode
  refine answers_get ?_
  cases hl : c.nodes.lookup source with
  | some copy => exact answers_pure ⟨mem_of_lookup hl, h, .refl c, .refl _⟩
  | none =>
    obtain ⟨node, hnode⟩ := (hρa.nodes source hρ).node_ok
    refine answers_get (answers_lift (h.grown.node _ _ hnode) ?_)
    refine (answers_mapBody hstays hf h (hstays.node _ _ hnode hρ)).bind ?_
    rintro body d ⟨hbody, hd, hg, hx, hnodes, -⟩
    have hs : source ∉ d.nodes.map Prod.fst := hnodes ▸ not_mem_of_lookup hl
    refine answers_get (answers_set (answers_pure ⟨List.mem_cons_self, hd.addNode hs hρ hnode hbody, ?_, ?_⟩))
    · exact ⟨fun p hp => List.mem_cons_of_mem _ (hg.nodes hp), hg.lists, hg.repositories, hg.queue, hg.balance⟩
    · exact hx.trans (extends_allocNode _ _)

/-- Nodes have copies. -/
theorem answers_mapNodes {sources : List NodeId} (h : Sound a ρ list none c) (hρ : ∀ source ∈ sources, ρ.nodes source) :
    Answers (mapNodes sources) c fun copies d => List.Forall₂ (fun source copy => (source, copy) ∈ d.nodes) sources copies ∧
      Sound a ρ list none d ∧ c.Grows d := by
  induction sources generalizing c with
  | nil => exact answers_pure ⟨.nil, h, .refl c⟩
  | cons source rest ih =>
    unfold mapNodes
    refine (answers_mapNode hstays hρa hf h (hρ source List.mem_cons_self)).bind ?_
    rintro copy d ⟨hmem, hd, hg, -⟩
    refine (ih hd fun s hs => hρ s (List.mem_cons_of_mem _ hs)).bind ?_
    rintro copies e ⟨hall, he, hg'⟩
    exact answers_pure ⟨.cons (hg'.nodes hmem) hall, he, hg.trans hg'⟩

/-! ## The queue -/

/-- A list that was taken from the queue is filled. -/
theorem answers_fillList {source : ListId} (h : Sound a ρ (some source) none c) (hs : source ∈ c.lists.map Prod.fst) :
    Answers (fillList source) c fun _ d => Sound a ρ none none d ∧ c.Grows d := by
  obtain ⟨p, hp, rfl⟩ := List.mem_map.1 hs
  have hρ := h.lists.reached p hp
  obtain ⟨items, hitems⟩ := (hρa.lists p.1 hρ).list_ok
  unfold fillList
  refine answers_get (answers_lift (h.grown.list _ _ hitems) ?_)
  refine (answers_mapNodes hstays hρa hf h (hstays.list _ _ hitems hρ)).bind ?_
  rintro copies d ⟨hall, hd, hg⟩
  have hmem : (p.1, p.2) ∈ d.lists := hg.lists hp
  obtain ⟨m, hm⟩ := setList_ok (hd.hasList hmem).2 copies
  refine answers_get ?_
  rw [lookup_of_mem hd.lists hmem]
  refine answers_lift hm ?_
  exact ⟨⟨⟩, _, rfl, hd.fill hmem hitems hall hm, hg.nodes, hg.lists, hg.repositories, hg.queue, hg.balance⟩

omit hstays hρa hf in
/-- When a list has been taken from the queue and filled, the rest of the queue is emptied. -/
theorem drain_of_fillList {source : ListId} {queue : List ListId} {fuel : Nat} {u : Unit} (hq : c.queue = source :: queue)
    (hrun : (fillList source).run { c with queue } = .ok (u, d)) : (drain (fuel + 1)).run c = (drain fuel).run d := by
  have hget : (get : CopyM Copier).run c = .ok (c, c) := rfl
  have hset : (set { c with queue } : CopyM PUnit).run c = .ok (⟨⟩, { c with queue }) := rfl
  rw [drain, run_bind_of_ok hget, hq]
  exact (run_bind_of_ok hset).trans (run_bind_of_ok hrun)

/-- The queue is emptied, unless there is time for no more lists than the arena has. -/
theorem drain_cases {fuel : Nat} (h : Sound a ρ none none c) :
    ((drain fuel).run c = .error .endless ∧ fuel + c.lists.length ≤ a.lists.size + c.queue.length) ∨
      Answers (drain fuel) c fun _ d => Sound a ρ none none d ∧ d.queue = [] ∧ c.lists ⊆ d.lists ∧
        c.repositories ⊆ d.repositories := by
  induction fuel generalizing c with
  | zero =>
    have hle := h.length_lists_le hρa
    exact .inl ⟨rfl, by omega⟩
  | succ fuel ih =>
    cases hq : c.queue with
    | nil =>
      refine .inr ?_
      unfold drain
      refine answers_get ?_
      rw [hq]
      exact answers_pure ⟨h, hq, fun _ h => h, fun _ h => h⟩
    | cons source queue =>
      obtain ⟨_, d, hrun, hd, hg⟩ :=
        answers_fillList hstays hρa hf (h.pop hq) (h.queued source (hq ▸ List.mem_cons_self))
      have hstep : (drain (fuel + 1)).run c = (drain fuel).run d := drain_of_fillList hq hrun
      have hbalance := hg.balance
      simp only at hbalance
      rcases ih hd with ⟨hfault, hle⟩ | ⟨_, e, hrun', he, hqueue, hlists, hrepositories⟩
      · refine .inl ⟨hstep.trans hfault, ?_⟩
        rw [List.length_cons]
        omega
      · exact .inr ⟨_, e, hstep.trans hrun', he, hqueue, fun p hp => hlists (hg.lists hp),
          fun p hp => hrepositories (hg.repositories hp)⟩

end

/-! ## Parents -/

/-- Every copy is given the copy of its parent, when there is one, and nothing else is changed. -/
theorem linkParents_ok {nodes pairs : List (NodeId × NodeId)} {m : Arena} (hx : a.Extends m)
    (hsources : ∀ p ∈ pairs, a.HasNode p.1) (hcopies : ∀ p ∈ pairs, ¬a.HasNode p.2 ∧ m.HasNode p.2)
    (hnd : (pairs.map Prod.snd).Nodup) :
    ∃ b, linkParents nodes pairs m = .ok b ∧ a.Extends b ∧ b.lists = m.lists ∧ b.repositories = m.repositories ∧
      b.nodes.size = m.nodes.size ∧ (∀ id, id ∉ pairs.map Prod.snd → b.node id = m.node id) ∧
      ∀ p ∈ pairs, ∀ source copy, a.node p.1 = .ok source → m.node p.2 = .ok copy →
        b.node p.2 = .ok { copy with parent := source.parent.bind fun p => nodes.lookup p } := by
  induction pairs generalizing m with
  | nil => exact ⟨m, rfl, hx, rfl, rfl, rfl, fun _ _ => rfl, nofun⟩
  | cons pair rest ih =>
    obtain ⟨source, copy⟩ := pair
    obtain ⟨hnot, hnd'⟩ := List.nodup_cons.1 hnd
    obtain ⟨old, hold⟩ := (hsources _ List.mem_cons_self).node_ok
    obtain ⟨hnew, hhas⟩ := hcopies _ List.mem_cons_self
    obtain ⟨node, hnode⟩ := hhas.node_ok
    obtain ⟨n, hn⟩ := setNode_ok hhas { node with parent := old.parent.bind fun p => nodes.lookup p }
    obtain ⟨-, hl, hr, hsize, hput⟩ := setNode_eq_ok hn
    have hxn : a.Extends n := by
      refine ⟨fun id k hk => ?_, fun id items hi => ?_, fun id r hr' => ?_⟩
      · rw [hput, if_neg fun heq : id = copy => hnew (heq ▸ hasNode_of_node hk)]
        exact hx.node id k hk
      · rw [list_congr hl]
        exact hx.list id items hi
      · rw [repository_congr hr]
        exact hx.repository id r hr'
    have hcopies' : ∀ p ∈ rest, ¬a.HasNode p.2 ∧ n.HasNode p.2 := fun p hp => by
      rw [HasNode, HasNode, hsize]
      exact hcopies p (List.mem_cons_of_mem _ hp)
    obtain ⟨b, hb, hxb, hbl, hbr, hbsize, hothers, hlinked⟩ :=
      ih hxn (fun p hp => hsources p (List.mem_cons_of_mem _ hp)) hcopies' hnd'
    refine ⟨b, ?_, hxb, hbl.trans hl, hbr.trans hr, hbsize.trans hsize, ?_, ?_⟩
    · simp only [linkParents, setParent, hx.node _ _ hold, hnode, bind, Except.bind, hn]
      exact hb
    · intro id hid
      rw [List.map_cons, List.mem_cons, not_or] at hid
      rw [hothers id hid.2, hput, if_neg hid.1]
    · intro p hp k l hk hl'
      rcases List.mem_cons.1 hp with rfl | hp
      · rw [hold, Except.ok.injEq] at hk
        rw [hnode, Except.ok.injEq] at hl'
        rw [hothers copy hnot, hput, if_pos rfl, ← hk, ← hl']
      · have hne : p.2 ≠ copy := fun heq => hnot (List.mem_map.2 ⟨p, hp, heq⟩)
        refine hlinked p hp k l hk ?_
        rw [hput, if_neg hne]
        exact hl'

/-! ## The whole copy -/

/-- Copying up to the parents. -/
def gather (root : ListId) (repository : RepositoryId) : CopyM (ListId × RepositoryId) := do
  let root ← mapList root
  let repository ← mapRepository repository
  drain Arena.capacity
  return (root, repository)

/-- To copy is to gather and then to link parents. -/
theorem copyFrom_eq_gather (root : ListId) (repository : RepositoryId) :
    copyFrom root repository = gather root repository >>= fun ids => do
      let c ← get
      set { c with arena := ← linkParents c.nodes c.nodes c.arena }
      return ids := by
  simp only [copyFrom, gather, bind_assoc, pure_bind]

/-- A copy is made once its objects are gathered and its parents linked. -/
theorem copyFrom_of_gather {root : ListId} {repository : RepositoryId} {ids : ListId × RepositoryId}
    (hrun : (gather root repository).run c = .ok (ids, d)) (hb : linkParents d.nodes d.nodes d.arena = .ok b) :
    (copyFrom root repository).run c = .ok (ids, { d with arena := b }) := by
  have hget : (get : CopyM Copier).run d = .ok (d, d) := rfl
  have hlift : (liftM (linkParents d.nodes d.nodes d.arena) : CopyM Arena).run d = .ok (b, d) := by
    rw [hb]
    rfl
  rw [copyFrom_eq_gather, run_bind_of_ok hrun, run_bind_of_ok hget, run_bind_of_ok hlift]
  rfl

/-- Copying records and fills everything that it comes to, unless there are at least as many lists as ids. -/
theorem gather_cases (hstays : a.StaysIn ρ) (hρa : ρ.Within a.region) (hf : a.FiniteIn ρ) {root : ListId}
    {repository : RepositoryId} (hroot : ρ.lists root) (hrep : ρ.repositories repository) :
    ((gather root repository).run { arena := a } = .error .endless ∧ Arena.capacity ≤ a.lists.size) ∨
      Answers (gather root repository) { arena := a } fun ids c => Sound a ρ none none c ∧ c.queue = [] ∧
        (root, ids.1) ∈ c.lists ∧ (repository, ids.2) ∈ c.repositories := by
  obtain ⟨root', c₁, hrun₁, hmem₁, h₁, hg₁, -⟩ := answers_mapList (sound_start a ρ) hroot
  obtain ⟨repository', c₂, hrun₂, hmem₂, h₂, hg₂, -⟩ := answers_mapRepository hstays hf h₁ hrep
  have hbalance : c₂.lists.length = c₂.queue.length := by
    have := (hg₁.trans hg₂).balance
    simpa using this
  unfold gather Answers
  rw [run_bind_of_ok hrun₁, run_bind_of_ok hrun₂]
  rcases drain_cases hstays hρa hf h₂ with ⟨hfault, hle⟩ | ⟨_, c, hrun, h, hqueue, hlists, hrepositories⟩
  · exact .inl ⟨run_bind_of_error hfault, by omega⟩
  · rw [run_bind_of_ok hrun]
    exact .inr ⟨_, c, rfl, h, hqueue, hlists (hg₂.lists hmem₁), hrepositories hmem₂⟩

/-- Copying fills everything that it records and then sets the parents, unless there are at least as many lists as ids. -/
theorem copyFrom_cases (hstays : a.StaysIn ρ) (hρa : ρ.Within a.region) (hf : a.FiniteIn ρ) {root : ListId}
    {repository : RepositoryId} (hroot : ρ.lists root) (hrep : ρ.repositories repository) :
    ((copyFrom root repository).run { arena := a } = .error .endless ∧ Arena.capacity ≤ a.lists.size) ∨
      ∃ root' repository' c b, (copyFrom root repository).run { arena := a } =
          .ok ((root', repository'), { c with arena := b }) ∧
        Sound a ρ none none c ∧ c.queue = [] ∧ (root, root') ∈ c.lists ∧ (repository, repository') ∈ c.repositories ∧
        linkParents c.nodes c.nodes c.arena = .ok b := by
  rcases gather_cases hstays hρa hf hroot hrep with ⟨hfault, hle⟩ | ⟨⟨root', repository'⟩, c, hrun, h, hqueue, hmem, hmem'⟩
  · refine .inl ⟨?_, hle⟩
    rw [copyFrom_eq_gather, run_bind_of_error hfault]
  · obtain ⟨b, hb, -⟩ := linkParents_ok h.grown (fun p hp => hρa.nodes _ (h.nodes.reached p hp)) (fun p hp => h.hasNode hp)
      h.nodes.copies
    exact .inr ⟨root', repository', c, b, copyFrom_of_gather hrun hb, h, hqueue, hmem, hmem', hb⟩

end Copier

end GrammarLinker
