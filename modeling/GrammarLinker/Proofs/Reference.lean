import Mathlib.Data.List.TakeWhile
import Mathlib.Data.Set.Function
import GrammarLinker.Reference

/-!
# References, read and written

A text reads as a reference exactly when it is the text of that reference and the names in it are well-formed (`Reference.WellFormed`).
No text is the text of two such references. A text that does not read fails with the first of five tests that it meets
(`Malformation.First`). A text without blanks has one of four shapes (`Reference.shapes`), and for each of them one equation says what
the reader does with it.
-/

namespace GrammarLinker

/-! ## What is well-formed -/

/-- The characters of a name that a reference may hold: there are some, and neither a `#` nor a blank is among them. -/
structure IsName (name : List Char) : Prop where
  nonempty : name ≠ []
  unmarked : '#' ∉ name
  solid : ∀ c ∈ name, isBlank c = false

/-- What may stand before the first `#` of a text: nothing, or characters that do not start with `$`. -/
structure IsHead (head : List Char) : Prop where
  unmarked : '#' ∉ head
  undollared : head.head? ≠ some '$'

/-- The characters of a scope that a reference may hold: those of a name that does not start with `$`. -/
structure IsScope (scope : List Char) : Prop extends IsName scope, IsHead scope

/-- Nothing may stand before a `#`. -/
theorem isHead_nil : IsHead [] :=
  ⟨List.not_mem_nil, nofun⟩

/-- Every name and every scope in a reference is one that it may hold. -/
def Reference.WellFormed : Reference → Prop
  | .entry name => IsName name.toList
  | .self => True
  | .base => True
  | .foreign scope => IsScope scope.toList
  | .foreignEntry scope name => IsScope scope.toList ∧ IsName name.toList

namespace Malformation

/-- The test of a reason, alone: whether a text meets it, whatever tests come before. -/
def Found (cs : List Char) : Malformation → Prop
  | empty => cs = []
  | blank => ∃ c ∈ cs, isBlank c = true
  | missingKey => ∃ head, IsHead head ∧ cs = head ++ ['#']
  | secondHash => ∃ head key, IsHead head ∧ cs = head ++ '#' :: key ∧ '#' ∈ key
  | unknownDollar => cs.head? = some '$' ∧ cs ≠ Reference.self.text.toList ∧ cs ≠ Reference.base.text.toList

/-- The place of a reason in the order of the tests. -/
def rank : Malformation → Nat
  | empty => 0
  | blank => 1
  | missingKey => 2
  | secondHash => 3
  | unknownDollar => 4

/-- The reason is that of the first test that a text meets. -/
def First (cs : List Char) (reason : Malformation) : Prop :=
  reason.Found cs ∧ ∀ other : Malformation, other.rank < reason.rank → ¬other.Found cs

/-- Of the tests that a text meets, one comes first. -/
theorem Found.exists_first {cs : List Char} {reason : Malformation} (h : Found cs reason) : ∃ first, First cs first := by
  induction hrank : reason.rank using Nat.strong_induction_on generalizing reason with
  | _ n ih =>
    by_cases hlower : ∃ other : Malformation, other.rank < reason.rank ∧ Found cs other
    · obtain ⟨other, hlt, hother⟩ := hlower
      exact ih other.rank (hrank ▸ hlt) hother rfl
    · exact ⟨reason, h, fun other hlt hother => hlower ⟨other, hlt, hother⟩⟩

end Malformation

namespace Reference

open Malformation (Found First)

variable {cs head key rest : List Char} {reference : Reference} {reason : Malformation}

/-! ## The shapes of a text -/

/-- The reference to an entry: in the repository of the include when nothing stands before the `#`, else in that of a scope. -/
def keyed : List Char → String → Reference
  | [], name => entry name
  | head, name => foreignEntry (String.ofList head) name

/-- With a scope before the `#`, the reference is to an entry of that scope. -/
theorem keyed_toList {scope name : String} (h : scope.toList ≠ []) : keyed scope.toList name = foreignEntry scope name := by
  unfold keyed
  split
  · exact absurd ‹_› h
  · rw [String.ofList_toList]

/-- A text is empty, starts with `$`, or is a head, with a first `#` after it or without. -/
theorem shapes (cs : List Char) :
    cs = [] ∨ (∃ rest, cs = '$' :: rest) ∨ (cs ≠ [] ∧ IsHead cs) ∨ ∃ head key, IsHead head ∧ cs = head ++ '#' :: key := by
  by_cases hdollar : cs.head? = some '$'
  · exact .inr (.inl (List.head?_eq_some_iff.1 hdollar))
  by_cases hmark : '#' ∈ cs
  · obtain ⟨head, key, rfl, hunmarked⟩ := List.eq_append_cons_of_mem hmark
    refine .inr (.inr (.inr ⟨head, key, ⟨hunmarked, fun h => hdollar ?_⟩, rfl⟩))
    rw [List.head?_append, h, Option.some_or]
  by_cases hnil : cs = []
  · exact .inl hnil
  · exact .inr (.inr (.inl ⟨hnil, hmark, hdollar⟩))

/-! ## What the reader does with each shape -/

/-- A text with a blank in it is no reference. -/
theorem read_of_blank (h : ∃ c ∈ cs, isBlank c = true) : read cs = .error .blank :=
  if_pos (List.any_eq_true.2 h)

/-- Two texts that start with `$` are references. -/
theorem read_dollar (hsolid : ∀ c ∈ '$' :: rest, isBlank c = false) :
    read ('$' :: rest) =
      if rest = ['s', 'e', 'l', 'f'] then .ok self
      else if rest = ['b', 'a', 's', 'e'] then .ok base
      else .error .unknownDollar :=
  if_neg (List.any_eq_true.not.2 (by simpa using hsolid))

/-- Of a text that starts with neither `#` nor `$`, the reader takes what stands before the first `#` as the scope. -/
theorem read_unprefixed (hsolid : ∀ c ∈ cs, isBlank c = false) (hne : cs ≠ []) (hmark : cs.head? ≠ some '#')
    (hdollar : cs.head? ≠ some '$') :
    read cs =
      match cs.dropWhile (· ≠ '#') with
      | [] => .ok (foreign (String.ofList (cs.takeWhile (· ≠ '#'))))
      | _ :: key => (readKey key).map (foreignEntry (String.ofList (cs.takeWhile (· ≠ '#')))) := by
  unfold read
  rw [if_neg (List.any_eq_true.not.2 (by simpa using hsolid))]
  split
  · exact absurd rfl hne
  · exact absurd rfl hmark
  · exact absurd rfl hdollar
  · rfl

/-- A text without a `#` is a scope. -/
theorem read_head (hsolid : ∀ c ∈ head, isBlank c = false) (hne : head ≠ []) (hhead : IsHead head) :
    read head = .ok (foreign (String.ofList head)) := by
  have hall : ∀ c ∈ head, decide (c ≠ '#') = true := fun c hc => decide_eq_true fun heq => hhead.unmarked (heq ▸ hc)
  rw [read_unprefixed hsolid hne (fun h => hhead.unmarked (List.mem_of_head? h)) hhead.undollared,
    List.dropWhile_eq_nil_iff.2 hall, List.takeWhile_eq_self_iff.2 hall]

/-- What stands behind the first `#` is read as a name. -/
theorem read_keyed (hsolid : ∀ c ∈ head ++ '#' :: key, isBlank c = false) (hhead : IsHead head) :
    read (head ++ '#' :: key) = (readKey key).map (keyed head) := by
  cases head with
  | nil => exact if_neg (List.any_eq_true.not.2 (by simpa using hsolid))
  | cons first others =>
    have hall : ∀ c ∈ first :: others, decide (c ≠ '#') = true := fun c hc => decide_eq_true fun heq => hhead.unmarked (heq ▸ hc)
    rw [read_unprefixed hsolid (by simp) (fun h => hhead.unmarked (List.mem_of_head? h)) hhead.undollared,
      List.dropWhile_append_of_pos hall, List.takeWhile_append_of_pos hall, List.takeWhile_cons_of_neg (by decide), List.append_nil]
    rfl

/-- A name has no second `#` in it. -/
theorem readKey_of_ne_nil (h : key ≠ []) : readKey key = if '#' ∈ key then .error .secondHash else .ok (String.ofList key) := by
  cases key with
  | nil => exact absurd rfl h
  | cons c others => rfl

/-! ## What is read, and what is not -/

/-- The text of a well-formed reference reads as the reference. -/
theorem read_text (h : reference.WellFormed) : read reference.text.toList = .ok reference := by
  cases reference with
  | entry name =>
    have htext : (entry name).text.toList = [] ++ '#' :: name.toList := String.toList_append
    rw [htext, read_keyed ?_ isHead_nil, readKey_of_ne_nil h.nonempty, if_neg h.unmarked, String.ofList_toList]
    · rfl
    · exact List.forall_mem_cons.2 ⟨by decide, h.solid⟩
  | self => decide +kernel
  | base => decide +kernel
  | foreign scope =>
    rw [text, read_head h.solid h.nonempty h.toIsHead, String.ofList_toList]
  | foreignEntry scope name =>
    obtain ⟨hscope, hname⟩ := h
    have htext : (foreignEntry scope name).text.toList = scope.toList ++ '#' :: name.toList := by
      simp [text]
    rw [htext, read_keyed ?_ hscope.toIsHead, readKey_of_ne_nil hname.nonempty, if_neg hname.unmarked, String.ofList_toList]
    · exact congrArg Except.ok (keyed_toList hscope.nonempty)
    · exact List.forall_mem_append.2 ⟨hscope.solid, List.forall_mem_cons.2 ⟨by decide, hname.solid⟩⟩

/-- A text that meets a test fails with the first that it meets. -/
theorem read_of_first (h : First cs reason) : read cs = .error reason := by
  have hsolid : Malformation.blank.rank < reason.rank → ∀ c ∈ cs, isBlank c = false := fun hlt c hc =>
    Bool.eq_false_iff.2 fun hblank => h.2 .blank hlt ⟨c, hc, hblank⟩
  obtain ⟨hfound, -⟩ := h
  cases reason with
  | empty =>
    obtain rfl : cs = [] := hfound
    rfl
  | blank => exact read_of_blank hfound
  | missingKey =>
    obtain ⟨head, hhead, rfl⟩ := hfound
    rw [read_keyed (hsolid (by decide)) hhead]
    rfl
  | secondHash =>
    obtain ⟨head, key, hhead, rfl, hmark⟩ := hfound
    rw [read_keyed (hsolid (by decide)) hhead]
    rw [readKey_of_ne_nil (List.ne_nil_of_mem hmark), if_pos hmark]
    rfl
  | unknownDollar =>
    obtain ⟨hdollar, hself, hbase⟩ := hfound
    obtain ⟨rest, rfl⟩ := List.head?_eq_some_iff.1 hdollar
    rw [read_dollar (hsolid (by decide)), if_neg fun h => hself (by rw [h]; decide), if_neg fun h => hbase (by rw [h]; decide)]

/-- Every text is that of a well-formed reference, or meets a test. -/
theorem wellFormed_or_found (cs : List Char) :
    (∃ reference : Reference, reference.WellFormed ∧ reference.text.toList = cs) ∨ ∃ reason, Found cs reason := by
  by_cases hblank : ∃ c ∈ cs, isBlank c = true
  · exact .inr ⟨.blank, hblank⟩
  have hsolid : ∀ c ∈ cs, isBlank c = false := fun c hc => Bool.eq_false_iff.2 fun h => hblank ⟨c, hc, h⟩
  rcases shapes cs with hnil | ⟨rest, hdollar⟩ | ⟨hne, hhead⟩ | ⟨head, key, hhead, rfl⟩
  · exact .inr ⟨.empty, hnil⟩
  · by_cases hself : cs = self.text.toList
    · exact .inl ⟨self, trivial, hself.symm⟩
    by_cases hbase : cs = base.text.toList
    · exact .inl ⟨base, trivial, hbase.symm⟩
    exact .inr ⟨.unknownDollar, List.head?_eq_some_iff.2 ⟨rest, hdollar⟩, hself, hbase⟩
  · refine .inl ⟨foreign (String.ofList cs), ?_, String.toList_ofList⟩
    change IsScope (String.ofList cs).toList
    rw [String.toList_ofList]
    exact { hhead with nonempty := hne, solid := hsolid }
  · by_cases hnil : key = []
    · exact .inr ⟨.missingKey, head, hhead, by rw [hnil]⟩
    by_cases hmark : '#' ∈ key
    · exact .inr ⟨.secondHash, head, key, hhead, rfl, hmark⟩
    obtain ⟨hscope, hkey⟩ := List.forall_mem_append.1 hsolid
    have hname : IsName key := ⟨hnil, hmark, (List.forall_mem_cons.1 hkey).2⟩
    refine .inl ⟨keyed head (String.ofList key), ?_, ?_⟩
    · cases head with
      | nil => simpa [keyed, WellFormed] using hname
      | cons c others => simpa [keyed, WellFormed] using ⟨{ hhead with nonempty := by simp, solid := hscope }, hname⟩
    · cases head <;> simp [keyed, text]

/-- Characters are read as a reference exactly when it is well formed and they are its text. -/
theorem read_eq_ok_iff : read cs = .ok reference ↔ reference.WellFormed ∧ reference.text.toList = cs := by
  constructor
  · intro hread
    rcases wellFormed_or_found cs with ⟨found, hfound, rfl⟩ | ⟨reason, hreason⟩
    · rw [read_text hfound] at hread
      obtain rfl := Except.ok.inj hread
      exact ⟨hfound, rfl⟩
    · obtain ⟨first, hfirst⟩ := hreason.exists_first
      rw [read_of_first hfirst] at hread
      cases hread
  · rintro ⟨hwell, rfl⟩
    exact read_text hwell

/-- Characters are refused for a reason exactly when its test is the first one that they meet. -/
theorem read_eq_error_iff : read cs = .error reason ↔ First cs reason := by
  refine ⟨fun hread => ?_, read_of_first⟩
  rcases wellFormed_or_found cs with ⟨found, hfound, rfl⟩ | ⟨reason, hreason⟩
  · rw [read_text hfound] at hread
    cases hread
  · obtain ⟨first, hfirst⟩ := hreason.exists_first
    rw [read_of_first hfirst] at hread
    exact Except.error.inj hread ▸ hfirst

/-! ## Texts -/

/-- A text is read as a reference exactly when it is well formed and the text is its own. -/
theorem parse_eq_ok_iff {text : String} : parse text = .ok reference ↔ reference.WellFormed ∧ reference.text = text := by
  rw [← String.toList_inj, ← read_eq_ok_iff]
  unfold parse
  cases read text.toList <;> simp [Except.mapError]

/-- A text is refused, whole, with the reason of the first test that it meets. -/
theorem parse_eq_error_iff {text : String} {e : Malformed} :
    parse text = .error e ↔ e.reference = text ∧ First text.toList e.reason := by
  obtain ⟨reference, reason⟩ := e
  rw [← read_eq_error_iff]
  unfold parse
  cases read text.toList <;> simp [Except.mapError, eq_comm]

/-- Two well-formed references have two texts. -/
theorem text_injOn : Set.InjOn text {reference | reference.WellFormed} := by
  intro reference h other hother heq
  have hread : parse other.text = .ok reference := parse_eq_ok_iff.2 ⟨h, heq⟩
  exact Except.ok.inj (hread.symm.trans (parse_eq_ok_iff.2 ⟨hother, rfl⟩))

/-- A text reads as a reference exactly when the reference is well-formed and has this text, no text is that of two well-formed
references, and a text does not read exactly when it meets a test, with itself and the first test that it meets in the error. -/
theorem parse_exact :
    (∀ text reference, parse text = .ok reference ↔ reference.WellFormed ∧ reference.text = text) ∧
      Set.InjOn text {reference | reference.WellFormed} ∧
      ∀ text e, parse text = .error e ↔ e.reference = text ∧ First text.toList e.reason :=
  ⟨fun _ _ => parse_eq_ok_iff, text_injOn, fun _ _ => parse_eq_error_iff⟩

-- A `$` may stand inside a name, and `$self` may not stand before a `#`.
example : parse "a$self#$base" = .ok (.foreignEntry "a$self" "$base") := by decide +kernel
example : parse "$self#a" = .error ⟨"$self#a", .unknownDollar⟩ := by decide +kernel

end Reference

end GrammarLinker
