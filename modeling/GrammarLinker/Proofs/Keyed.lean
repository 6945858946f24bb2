import Mathlib.Data.List.Forall2
import GrammarLinker.Keyed

/-!
# What is made of pairs

A keyed list that is made of pairs has pairs of these only, and is the pairs themselves when no key is repeated
(`Keyed.ofPairs_of_nodup`). What is made of pairs with the same keys and related values has the same keys and related values
(`Keyed.Related.ofPairs`).
-/

namespace GrammarLinker.Keyed

variable {α β : Type} {R : α → β → Prop} {es : List (String × α)} {ps : List (String × β)}

/-- Two keyed lists have the same keys in order, with values that are related. -/
def Related (R : α → β → Prop) : List (String × α) → List (String × β) → Prop :=
  List.Forall₂ fun e p => p.1 = e.1 ∧ R e.2 p.2

theorem Related.put (h : Related R es ps) (key : String) {v : α} {w : β} (hv : R v w) :
    Related R (Keyed.put key v es) (Keyed.put key w ps) := by
  induction h with
  | nil => exact .cons ⟨rfl, hv⟩ .nil
  | @cons e p es ps hp hr ih =>
    obtain ⟨k, old⟩ := e
    obtain ⟨k', old'⟩ := p
    obtain ⟨rfl, hold⟩ := hp
    by_cases hk : k' = key
    · simp only [Keyed.put, if_pos hk]
      exact .cons ⟨rfl, hv⟩ hr
    · simp only [Keyed.put, if_neg hk]
      exact .cons ⟨rfl, hold⟩ ih

theorem Related.foldl (h : Related R es ps) {es' : List (String × α)} {ps' : List (String × β)} (h' : Related R es' ps') :
    Related R (es.foldl (fun entries (key, value) => Keyed.put key value entries) es')
      (ps.foldl (fun entries (key, value) => Keyed.put key value entries) ps') := by
  induction h generalizing es' ps' with
  | nil => exact h'
  | @cons e p es ps hp _ ih =>
    obtain ⟨k, v⟩ := e
    obtain ⟨k', w⟩ := p
    obtain ⟨rfl, hv⟩ := hp
    exact ih (h'.put k' hv)

theorem Related.ofPairs (h : Related R es ps) : Related R (Keyed.ofPairs es) (Keyed.ofPairs ps) :=
  h.foldl .nil

/-- A key that is found in one of two related lists is found in the other one. -/
theorem Related.find?_iff (h : Related R es ps) (key : String) :
    (Keyed.find? key es = none ∧ Keyed.find? key ps = none) ∨
      ∃ v w, Keyed.find? key es = some v ∧ Keyed.find? key ps = some w ∧ R v w := by
  induction h with
  | nil => exact .inl ⟨rfl, rfl⟩
  | @cons e p es ps hp _ ih =>
    obtain ⟨k, v⟩ := e
    obtain ⟨k', w⟩ := p
    obtain ⟨rfl, hv⟩ := hp
    by_cases hk : k' = key
    · exact .inr ⟨v, w, if_pos hk, if_pos hk, hv⟩
    · simp only [Keyed.find?, if_neg hk]
      exact ih

/-- The pairs of a map are among those that it was made of. -/
theorem mem_of_mem_ofPairs {p : String × α} (h : p ∈ Keyed.ofPairs es) : p ∈ es := by
  have key : ∀ acc : List (String × α), p ∈ es.foldl (fun entries (key, value) => Keyed.put key value entries) acc →
      p ∈ acc ∨ p ∈ es := by
    clear h
    induction es with
    | nil => exact fun acc h => .inl h
    | cons e rest ih =>
      intro acc h
      rcases ih _ h with h | h
      · rcases mem_put h with h | rfl
        · exact .inl h
        · exact .inr List.mem_cons_self
      · exact .inr (List.mem_cons_of_mem _ h)
  exact (key [] h).resolve_left List.not_mem_nil

/-- A map has the keys of the pairs that it was made of. -/
theorem mem_keys_ofPairs {key : String} : key ∈ keys (ofPairs es) ↔ key ∈ keys es := by
  have hput : ∀ acc : List (String × α), key ∈ keys (es.foldl (fun entries (key, value) => Keyed.put key value entries) acc) ↔
      key ∈ keys acc ∨ key ∈ keys es := by
    induction es with
    | nil => simp [keys]
    | cons e rest ih =>
      intro acc
      rw [List.foldl_cons, ih, keys_put]
      split
      · rename_i hmem
        simp only [keys, List.map_cons, List.mem_cons] at hmem ⊢
        refine ⟨fun h => h.imp_right .inr, ?_⟩
        rintro (h | rfl | h)
        · exact .inl h
        · exact .inl hmem
        · exact .inr h
      · simp only [keys, List.mem_append, List.map_cons, List.mem_cons, or_assoc, List.not_mem_nil, or_false]
  exact (hput []).trans ⟨fun h => h.resolve_left List.not_mem_nil, .inr⟩

/-- A key is found with the value that a function makes of the one it had. -/
theorem find?_map (f : α → β) (key : String) (es : List (String × α)) :
    find? key (es.map fun e => (e.1, f e.2)) = (find? key es).map f := by
  induction es with
  | nil => rfl
  | cons e rest ih =>
    by_cases hk : e.1 = key
    · simp only [List.map_cons, find?, if_pos hk, Option.map_some]
    · simp only [List.map_cons, find?, if_neg hk, ih]

/-- Writing goes along with a function on the values. -/
theorem put_map (f : α → β) (key : String) (value : α) (es : List (String × α)) :
    put key (f value) (es.map fun e => (e.1, f e.2)) = (put key value es).map fun e => (e.1, f e.2) := by
  induction es with
  | nil => rfl
  | cons e rest ih =>
    by_cases hk : e.1 = key
    · simp only [List.map_cons, put, if_pos hk]
    · simp only [List.map_cons, put, if_neg hk, ih]

/-- Where no key is repeated, a map has the pairs that it is made of. -/
theorem ofPairs_of_nodup (h : (keys es).Nodup) : ofPairs es = es := by
  have key : ∀ acc : List (String × α), (keys (acc ++ es)).Nodup →
      es.foldl (fun entries (key, value) => put key value entries) acc = acc ++ es := by
    clear h
    induction es with
    | nil => exact fun acc _ => (List.append_nil acc).symm
    | cons e rest ih =>
      obtain ⟨k, value⟩ := e
      intro acc hnd
      have hnot : k ∉ keys acc := by
        intro hk
        rw [keys, List.map_append, List.map_cons, List.nodup_append] at hnd
        exact hnd.2.2 k hk k List.mem_cons_self rfl
      have hrest := ih (acc ++ [(k, value)]) (by rwa [← List.append_cons])
      show List.foldl _ (put k value acc) rest = _
      rw [put_of_not_mem value hnot, hrest, ← List.append_cons]
  exact key [] h

end GrammarLinker.Keyed
