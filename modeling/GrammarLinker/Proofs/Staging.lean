import GrammarLinker.Proofs.LinkedSet.Due
import GrammarLinker.Proofs.Session

/-!
# Resolving in stages

The references of a set of grammars may be resolved in stages: some names now, some roots later, the references between a few of the
grammars in between, with errors or without (`Staging.Call`). A call sees only what it is given, and resolves only what would be
resolved in the end (`Staging.Call.run_ok`). So what was called before does not show once every grammar has resolved its own references
and the whole set the ones between them (`Session.resolve_staged`).
-/

namespace GrammarLinker

open Arena InterGrammar Linker

namespace Staging

/-- A call that resolves references of grammars. -/
inductive Call where
  /-- The names of a grammar. -/
  | entries (g : Grammar)
  /-- The `$self` of a grammar. -/
  | self (g : Grammar)
  /-- Both. -/
  | own (g : Grammar)
  /-- The references between grammars. -/
  | between (gs : List Grammar)

/-- The arena that a call leaves behind, with or without an error. -/
def Call.run (base : Option String) (a : Arena) : Call → Except Fault Arena
  | .entries g => (g.resolveEntries.start a).map Prod.snd
  | .self g => (g.resolveSelf.start a).map Prod.snd
  | .own g => (g.resolveLocal.start a).map Prod.snd
  | .between gs => ((resolve gs base).start a).map Prod.snd

/-- The arena that calls leave behind. -/
def run (base : Option String) (calls : List Call) (a : Arena) : Except Fault Arena := calls.foldlM (Call.run base) a

/-- A call is about grammars of a set, each of which it is given once. -/
def Call.Within (gs : List Grammar) : Call → Prop
  | .entries g | .self g | .own g => g ∈ gs
  | .between hs => hs.Subperm gs

/-- The calls that resolve a set completely. -/
def closing (gs : List Grammar) : List Call := gs.map .own ++ [.between gs]

variable {gs ls : List Grammar} {base : Option String} {a m b : Arena} {calls rest : List Call}

/-- Calls are run in two parts. -/
theorem run_append (base : Option String) (calls rest : List Call) (a : Arena) :
    run base (calls ++ rest) a = run base calls a >>= run base rest :=
  List.foldlM_append

theorem run_append_of_ok (h : run base calls a = .ok m) : run base (calls ++ rest) a = run base rest m := by
  rw [run_append, h]
  rfl

theorem run_cons_of_ok {call : Call} (h : call.run base a = .ok m) : run base (call :: rest) a = run base rest m := by
  rw [run, List.foldlM_cons, h]
  rfl

/-! ## What is due -/

section

variable (h : Ready gs a) (hnd : (gs.map Grammar.scopeName).Nodup)
include h

/-- The set can be resolved in every state on the way. -/
theorem ready_of_due (hm : ResolvesBy (Due gs gs base a) a m) : Ready gs m :=
  h.of_resolvesBy (fun _ _ hd => hd.hasList h h) hm

omit h in
/-- A call that resolves what is due now resolves what was due from the start. -/
theorem due_trans (hm : ResolvesBy (Due gs gs base a) a m) (hb : ResolvesBy (Due gs gs base m) m b) :
    ResolvesBy (Due gs gs base a) a b :=
  hm.trans (hb.mono fun _ _ hd => hd.of_resolvesBy hm fun _ _ hd => hd.edge)

include hnd

/-- A call resolves what is due. -/
theorem Call.run_ok (base : Option String) {call : Call} (hcall : call.Within gs) :
    ∃ b, call.run base a = .ok b ∧ ResolvesBy (Due gs gs base a) a b := by
  have hf := h.chains.finiteIn (.refl _)
  cases call with
  | entries g =>
    obtain ⟨answer, b, hrun, hr, -⟩ := g.registry.resolveEntries_ok h.closed hf (.refl _) (h.held g hcall).repository
      (h.held g hcall).includes
    refine ⟨b, ?_, hr.mono fun id list hn => .inl ⟨g, hcall, hn.1, .inl hn.2⟩⟩
    rw [Call.run, Grammar.resolveEntries, hrun]
    rfl
  | self g =>
    obtain ⟨n, b, hrun, hr, -⟩ := g.registry.resolveSelf_ok (h.held g hcall).includes g.root
    refine ⟨b, ?_, hr.mono fun id list hs => .inl ⟨g, hcall, hs.1, .inr hs.2⟩⟩
    rw [Call.run, Grammar.resolveSelf, hrun]
    rfl
  | own g =>
    obtain ⟨answer, b, hrun, hr, -⟩ := g.resolveLocal_ok h.closed hf (.refl _) (h.held g hcall).liesIn
    refine ⟨b, ?_, hr.mono fun id list ho => .inl ⟨g, hcall, ho⟩⟩
    rw [Call.run, hrun]
    rfl
  | between hs =>
    obtain ⟨answer, b, hrun, hends⟩ := resolve_ends (h.subperm hcall) base
    refine ⟨b, ?_, hends.resolvesBy.mono fun id list he => due_of_earns hnd hcall.subset he⟩
    rw [Call.run, hrun]
    rfl

/-- So do any calls. -/
theorem run_ok (base : Option String) (hcalls : ∀ call ∈ calls, call.Within gs) :
    ∃ b, run base calls a = .ok b ∧ ResolvesBy (Due gs gs base a) a b := by
  induction calls generalizing a with
  | nil => exact ⟨a, rfl, .refl _ a⟩
  | cons call rest ih =>
    obtain ⟨m, hrun, hm⟩ := Call.run_ok h hnd base (hcalls call List.mem_cons_self)
    obtain ⟨b, hrest, hb⟩ := ih (ready_of_due h hm) fun c hc => hcalls c (List.mem_cons_of_mem _ hc)
    exact ⟨b, (run_cons_of_ok hrun).trans hrest, due_trans hm hb⟩

omit hnd in
/-- When grammars have resolved their own references, none of these is left. -/
theorem run_own_ok (base : Option String) (hsub : ls ⊆ gs) :
    ∃ b, run base (ls.map .own) a = .ok b ∧ ResolvesBy (Due gs gs base a) a b ∧ OwnSettled ls b := by
  induction ls generalizing a with
  | nil => exact ⟨a, rfl, .refl _ a, ownSettled_nil a⟩
  | cons g rest ih =>
    have hg : g ∈ gs := hsub List.mem_cons_self
    obtain ⟨answer, m, hrun, hm, hall, -⟩ :=
      g.resolveLocal_ok h.closed (h.chains.finiteIn (.refl _)) (.refl _) (h.held g hg).liesIn
    have hcall : (Call.own g).run base a = .ok m := by
      rw [Call.run, hrun]
      rfl
    have hdue : ResolvesBy (Due gs gs base a) a m := hm.mono fun id list ho => .inl ⟨g, hg, ho⟩
    obtain ⟨b, hrest, hb, hsettled⟩ := ih (ready_of_due h hdue) fun k hk => hsub (List.mem_cons_of_mem _ hk)
    have hmb : ResolvesBy (Due gs gs base a) m b := hb.mono fun _ _ hd => hd.of_resolvesBy hdue fun _ _ hd => hd.edge
    exact ⟨b, (run_cons_of_ok hcall).trans hrest, hdue.trans hmb,
      ownSettled_cons hdue (fun id list ho => hall id list ho) hmb hsettled⟩

/-- The closing calls leave nothing of what was due from the start, whatever was resolved of it before. -/
theorem run_closing_ok (hm : ResolvesBy (Due gs gs base a) a m) :
    ∃ b, run base (closing gs) m = .ok b ∧ ResolvesBy (Due gs gs base a) a b ∧
      ∀ id list, Due gs gs base a id list → b.pending? id = none := by
  obtain ⟨n, hrun, hn, hown⟩ := run_own_ok (ready_of_due h hm) base (List.Subset.refl gs)
  have hn := due_trans hm hn
  have hready := ready_of_due h hn
  obtain ⟨answer, b, hbetween, hends⟩ := resolve_ends hready base
  have hcall : (Call.between gs).run base n = .ok b := by
    rw [Call.run, hbetween]
    rfl
  have hb := due_trans hn (hends.resolvesBy.mono fun id list he => due_of_earns hnd (List.Subset.refl gs) he)
  refine ⟨b, ?_, hb, fun id list hd => ?_⟩
  · rw [closing, run_append_of_ok hrun, run_cons_of_ok hcall]
    rfl
  · exact not_pending_of_due h.disjoint h.disjoint hb (hown.of_resolvesBy hends.resolvesBy) (stuck_of_ends hready hends) hd

/-- Whatever calls are made before the closing ones, the arena is the same after them. -/
theorem run_staged (hcalls : ∀ call ∈ calls, call.Within gs) :
    ∃ b, run base (calls ++ closing gs) a = .ok b ∧ run base (closing gs) a = .ok b := by
  obtain ⟨m, hrun, hm⟩ := run_ok h hnd base hcalls
  obtain ⟨b, hstaged, hb, hall⟩ := run_closing_ok h hnd hm
  obtain ⟨c, hdirect, hc, hall'⟩ := run_closing_ok h hnd (.refl (Due gs gs base a) a)
  obtain rfl : b = c := hb.eq_of_exhausted hc (fun _ _ _ hd hd' => hd.unique h.disjoint h.disjoint hd') hall hall'
  exact ⟨b, (run_append_of_ok hrun).trans hstaged, hdirect⟩

end

end Staging

namespace Session

open Staging

/-- In every session that is reached, calls that resolve references of grammars of distinct scope names do not change the arena in which
the closing calls end. -/
theorem resolve_staged {s : Session} (h : s.Reachable) {gs : List Grammar} (hgs : ∀ g ∈ gs, g ∈ s.grammars)
    (hnd : (gs.map Grammar.scopeName).Nodup) (base : Option String) {calls : List Call} (hcalls : ∀ call ∈ calls, call.Within gs) :
    ∃ b, run base (calls ++ closing gs) s.arena = .ok b ∧ run base (closing gs) s.arena = .ok b :=
  run_staged (h.sound.ready hnd.of_map hgs) hnd hcalls

/-- In the circle it does not matter that the second grammar was resolved without the first one, which it includes, before. -/
theorem resolve_staged_circle : Reachable ⟨circle, circleSet.reverse⟩ ∧ (circleSet.map Grammar.scopeName).Nodup ∧
    (∀ call ∈ [Call.between [circleSet[1]], .self circleSet[0]], call.Within circleSet) ∧
    ∃ b, run none ([.between [circleSet[1]], .self circleSet[0]] ++ closing circleSet) circle = .ok b ∧
      run none (closing circleSet) circle = .ok b := by
  have hnd : (circleSet.map Grammar.scopeName).Nodup := by decide
  have hcalls : ∀ call ∈ [Call.between [circleSet[1]], .self circleSet[0]], call.Within circleSet := by
    intro call hcall
    rcases List.mem_cons.1 hcall with rfl | hcall
    · exact (List.sublist_cons_self _ _).subperm
    · exact List.mem_singleton.1 hcall ▸ List.mem_cons_self
  exact ⟨reachable_circle, hnd, hcalls, resolve_staged reachable_circle (fun g hg => List.mem_reverse.2 hg) hnd none hcalls⟩

end Session

end GrammarLinker
