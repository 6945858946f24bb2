/-!
# Keyed lists

Repositories, captures and the records of a grammar file name their entries by text and keep them in the order in which the
keys were first seen. Such a map is a list of pairs: `Keyed.put` replaces the value of a key that is there and appends a pair
for a key that is not, so a repeated key keeps its first place and its last value. `Keyed.find?` reads the first pair of a key,
which is the only one in a list that `put` built (`Keyed.keys_put_nodup`).
-/

namespace GrammarLinker.Keyed

variable {α : Type}

/-- The keys in order. -/
def keys (entries : List (String × α)) : List String :=
  entries.map (·.1)

/-- The value of a key. -/
def find? (key : String) : List (String × α) → Option α
  | [] => none
  | (k, value) :: rest => if k = key then some value else find? key rest

/-- Gives a key a value: in place when the key is there, else at the end. -/
def put (key : String) (value : α) : List (String × α) → List (String × α)
  | [] => [(key, value)]
  | (k, old) :: rest => if k = key then (k, value) :: rest else (k, old) :: put key value rest

/-- The map of a list of pairs that may repeat keys. -/
def ofPairs (pairs : List (String × α)) : List (String × α) :=
  pairs.foldl (fun entries (key, value) => put key value entries) []

/-- Nothing is found among no entries. -/
@[simp] theorem find?_nil (key : String) : find? key ([] : List (String × α)) = none := rfl

/-- A key is found exactly when it is one of the keys. -/
theorem find?_isSome (key : String) (entries : List (String × α)) :
    (find? key entries).isSome = true ↔ key ∈ keys entries := by
  induction entries with
  | nil => simp [keys]
  | cons pair rest ih =>
    obtain ⟨k, value⟩ := pair
    by_cases h : k = key
    · simp [find?, keys, h]
    · have h' : ¬ key = k := fun e => h e.symm
      simp only [find?, h, if_false, ih]
      simp [keys, h']

/-- A value that is found stands in one of the pairs. -/
theorem mem_of_find? {key : String} {entries : List (String × α)} {value : α} (h : find? key entries = some value) :
    (key, value) ∈ entries := by
  induction entries with
  | nil => simp at h
  | cons pair rest ih =>
    obtain ⟨k, old⟩ := pair
    by_cases hk : k = key
    · simp [find?, hk] at h
      simp [hk, h]
    · simp only [find?, hk, if_false] at h
      exact List.mem_cons_of_mem _ (ih h)

/-- The pairs after writing a key are among the pairs before, and the one written. -/
theorem mem_put {key : String} {value : α} {entries : List (String × α)} {pair : String × α}
    (h : pair ∈ put key value entries) : pair ∈ entries ∨ pair = (key, value) := by
  induction entries with
  | nil => exact Or.inr (List.mem_singleton.1 h)
  | cons head rest ih =>
    obtain ⟨k, old⟩ := head
    by_cases hk : k = key
    · subst hk
      simp only [put, if_true, List.mem_cons] at h
      rcases h with rfl | h
      · exact Or.inr rfl
      · exact Or.inl (List.mem_cons_of_mem _ h)
    · simp only [put, hk, if_false, List.mem_cons] at h
      rcases h with rfl | h
      · exact Or.inl List.mem_cons_self
      · exact (ih h).imp (List.mem_cons_of_mem _) id

/-- Reading a key after writing one: the value written, or what was there. -/
theorem find?_put (key other : String) (value : α) (entries : List (String × α)) :
    find? other (put key value entries) = if key = other then some value else find? other entries := by
  induction entries with
  | nil => simp [put, find?]
  | cons pair rest ih =>
    obtain ⟨k, old⟩ := pair
    by_cases hk : k = key
    · subst hk
      by_cases ho : k = other <;> simp [put, find?, ho]
    · by_cases ho : key = other
      · subst ho
        simp [put, find?, hk, ih]
      · simp only [put, hk, if_false, find?, ih, ho]

/-- Writing a key keeps the keys, with the key at the end when it is new. -/
theorem keys_put (key : String) (value : α) (entries : List (String × α)) :
    keys (put key value entries) = if key ∈ keys entries then keys entries else keys entries ++ [key] := by
  induction entries with
  | nil => simp [put, keys]
  | cons pair rest ih =>
    obtain ⟨k, old⟩ := pair
    by_cases hk : k = key
    · simp [put, keys, hk]
    · have hk' : ¬ key = k := fun e => hk e.symm
      simp only [keys] at ih
      by_cases hm : key ∈ rest.map (·.1)
      · simp only [put, hk, if_false, keys, List.map_cons, ih, List.mem_cons, hm, or_true, if_true]
      · simp only [put, hk, if_false, keys, List.map_cons, ih, List.mem_cons, hm, hk', or_false, List.cons_append]

/-- Writing keeps the keys distinct. -/
theorem keys_put_nodup (key : String) (value : α) {entries : List (String × α)} (h : (keys entries).Nodup) :
    (keys (put key value entries)).Nodup := by
  rw [keys_put]
  split
  · exact h
  · rename_i hm
    rw [List.nodup_append]
    refine ⟨h, by simp, ?_⟩
    rintro a ha b hb rfl
    rw [List.mem_singleton] at hb
    exact hm (hb ▸ ha)

/-- A new key goes to the end. -/
theorem put_of_not_mem {key : String} (value : α) {entries : List (String × α)} (h : key ∉ keys entries) :
    put key value entries = entries ++ [(key, value)] := by
  induction entries with
  | nil => rfl
  | cons pair rest ih =>
    obtain ⟨k, old⟩ := pair
    simp only [keys, List.map_cons, List.mem_cons, not_or] at h
    have hk : ¬ k = key := fun e => h.1 e.symm
    simp only [put, hk, if_false, List.cons_append, ih h.2]

end GrammarLinker.Keyed
