import Mathlib.Order.Lex
import Mathlib.Data.List.Lex
import Mathlib.Data.List.Nodup
import Mathlib.Tactic.Linarith

/-! Ordered association lists: the entries of a map in increasing order of their
keys. An insertion keeps the order and replaces the value of a key that is there. -/

namespace CloudCryptFS.Util.SortedEntries

variable {κ α : Type*} [LinearOrder κ]

def find? (key : κ) : List (κ × α) → Option α
  | [] => none
  | entry :: rest => if entry.1 = key then some entry.2 else find? key rest

def set (key : κ) (value : α) : List (κ × α) → List (κ × α)
  | [] => [(key, value)]
  | entry :: rest =>
      if key < entry.1 then (key, value) :: entry :: rest
      else if entry.1 = key then (key, value) :: rest
      else entry :: set key value rest

def erase (key : κ) : List (κ × α) → List (κ × α)
  | [] => []
  | entry :: rest => if entry.1 = key then rest else entry :: erase key rest

def Sorted (entries : List (κ × α)) : Prop := (entries.map Prod.fst).Pairwise (· < ·)

theorem sorted_nil : Sorted ([] : List (κ × α)) := List.Pairwise.nil

theorem sorted_cons {entry : κ × α} {rest : List (κ × α)} :
    Sorted (entry :: rest) ↔ (∀ other ∈ rest, entry.1 < other.1) ∧ Sorted rest := by
  simp [Sorted]

theorem keys_nodup {entries : List (κ × α)} (sorted : Sorted entries) :
    (entries.map Prod.fst).Nodup :=
  List.Pairwise.imp (fun less => ne_of_lt less) sorted

theorem find?_eq_some_iff {entries : List (κ × α)} (sorted : Sorted entries) (key : κ) (value : α) :
    find? key entries = some value ↔ (key, value) ∈ entries := by
  induction entries with
  | nil => simp [find?]
  | cons entry rest ih =>
    rw [sorted_cons] at sorted
    rcases entry with ⟨first, held⟩
    by_cases same : first = key
    · subst same
      simp only [find?, if_true, Option.some.injEq, List.mem_cons, Prod.mk.injEq, true_and]
      constructor
      · exact fun equal => Or.inl equal.symm
      · rintro (equal | later)
        · exact equal.symm
        · exact absurd (sorted.1 _ later) (lt_irrefl _)
    · have different : ¬key = first := fun equal => same equal.symm
      simp [find?, same, different, ih sorted.2]

/-- Two maps that find the same have the same entries. -/
theorem eq_of_find? {entries others : List (κ × α)} (sorted : Sorted entries) (sorted' : Sorted others)
    (same : ∀ key, find? key entries = find? key others) : entries = others := by
  have mem : ∀ entry, entry ∈ entries ↔ entry ∈ others := by
    intro entry
    rw [← find?_eq_some_iff sorted entry.1 entry.2, same, find?_eq_some_iff sorted' entry.1 entry.2]
  have perm : entries.Perm others :=
    (List.perm_ext_iff_of_nodup (List.Nodup.of_map _ (keys_nodup sorted)) (List.Nodup.of_map _ (keys_nodup sorted'))).mpr mem
  unfold Sorted at sorted sorted'
  rw [List.pairwise_map] at sorted sorted'
  exact perm.eq_of_pairwise (fun _ _ _ _ less more => absurd less (lt_asymm more)) sorted sorted'

theorem find?_eq_none_iff (entries : List (κ × α)) (key : κ) :
    find? key entries = none ↔ ∀ entry ∈ entries, entry.1 ≠ key := by
  induction entries with
  | nil => simp [find?]
  | cons entry rest ih =>
    by_cases same : entry.1 = key
    · simp [find?, same]
    · simp [find?, same, ih]

theorem mem_of_find? {entries : List (κ × α)} {key : κ} {value : α}
    (found : find? key entries = some value) : (key, value) ∈ entries := by
  induction entries with
  | nil => simp [find?] at found
  | cons entry rest ih =>
    by_cases same : entry.1 = key
    · simp only [find?, if_pos same, Option.some.injEq] at found
      subst same found
      exact List.mem_cons_self
    · simp only [find?, if_neg same] at found
      exact List.mem_cons_of_mem _ (ih found)

@[simp]
theorem find?_set_self (key : κ) (value : α) (entries : List (κ × α)) :
    find? key (set key value entries) = some value := by
  induction entries with
  | nil => simp [set, find?]
  | cons entry rest ih =>
    simp only [set]
    split_ifs with before same
    · simp [find?]
    · simp [find?]
    · simp [find?, same, ih]

theorem find?_set_of_ne {key other : κ} (different : other ≠ key) (value : α)
    (entries : List (κ × α)) : find? other (set key value entries) = find? other entries := by
  induction entries with
  | nil => simp [set, find?, Ne.symm different]
  | cons entry rest ih =>
    simp only [set]
    split_ifs with before same
    · simp [find?, Ne.symm different]
    · simp [find?, same, Ne.symm different]
    · simp [find?, ih]

theorem find?_erase_self {key : κ} {entries : List (κ × α)} (sorted : Sorted entries) :
    find? key (erase key entries) = none := by
  induction entries with
  | nil => rfl
  | cons entry rest ih =>
    rw [sorted_cons] at sorted
    by_cases same : entry.1 = key
    · simp only [erase, if_pos same]
      rw [find?_eq_none_iff]
      intro other member equal
      exact absurd (sorted.1 other member) (by simp [same, equal])
    · simp only [erase, if_neg same, find?]
      exact ih sorted.2

theorem find?_erase_of_ne {key other : κ} (different : other ≠ key) (entries : List (κ × α)) :
    find? other (erase key entries) = find? other entries := by
  induction entries with
  | nil => rfl
  | cons entry rest ih =>
    by_cases same : entry.1 = key
    · simp [erase, find?, same, Ne.symm different]
    · simp [erase, find?, same, ih]

theorem mem_set {key : κ} {value : α} {entries : List (κ × α)} {entry : κ × α}
    (member : entry ∈ set key value entries) : entry = (key, value) ∨ entry ∈ entries := by
  induction entries with
  | nil => simpa [set] using member
  | cons first rest ih =>
    simp only [set] at member
    split_ifs at member with before same
    · simpa using member
    · rcases List.mem_cons.mp member with here | later
      · exact Or.inl here
      · exact Or.inr (List.mem_cons_of_mem _ later)
    · rcases List.mem_cons.mp member with here | later
      · exact Or.inr (here ▸ List.mem_cons_self)
      · exact (ih later).imp_right (List.mem_cons_of_mem _)

theorem mem_erase {key : κ} {entries : List (κ × α)} {entry : κ × α}
    (member : entry ∈ erase key entries) : entry ∈ entries := by
  induction entries with
  | nil => simp [erase] at member
  | cons first rest ih =>
    simp only [erase] at member
    split_ifs at member with same
    · exact List.mem_cons_of_mem _ member
    · rcases List.mem_cons.mp member with here | later
      · exact here ▸ List.mem_cons_self
      · exact List.mem_cons_of_mem _ (ih later)

theorem sorted_set {entries : List (κ × α)} (sorted : Sorted entries) (key : κ) (value : α) :
    Sorted (set key value entries) := by
  induction entries with
  | nil => simp [set, Sorted]
  | cons entry rest ih =>
    have parts := sorted_cons.mp sorted
    simp only [set]
    split_ifs with before same
    · refine sorted_cons.mpr ⟨?_, sorted⟩
      intro other member
      rcases List.mem_cons.mp member with here | later
      · exact here ▸ before
      · exact lt_trans before (parts.1 other later)
    · subst same
      exact sorted_cons.mpr parts
    · refine sorted_cons.mpr ⟨?_, ih parts.2⟩
      intro other member
      rcases mem_set member with here | later
      · subst here
        exact lt_of_le_of_ne (not_lt.mp before) same
      · exact parts.1 other later

theorem sorted_erase {entries : List (κ × α)} (sorted : Sorted entries) (key : κ) :
    Sorted (erase key entries) := by
  induction entries with
  | nil => exact sorted_nil
  | cons entry rest ih =>
    have parts := sorted_cons.mp sorted
    simp only [erase]
    split_ifs with same
    · exact parts.2
    · exact sorted_cons.mpr ⟨fun other member => parts.1 other (mem_erase member), ih parts.2⟩

/-- A key above all others goes to the end. -/
theorem set_append_of_lt {entries : List (κ × α)} {key : κ} (value : α)
    (above : ∀ entry ∈ entries, entry.1 < key) : set key value entries = entries ++ [(key, value)] := by
  induction entries with
  | nil => rfl
  | cons entry rest ih =>
    have less := above entry List.mem_cons_self
    simp only [set, if_neg (not_lt.mpr (le_of_lt less)), if_neg (ne_of_lt less), List.cons_append]
    rw [ih (fun other member => above other (List.mem_cons_of_mem _ member))]

section Related

variable {β : Type*} {R : κ × α → κ × β → Prop} (sameKey : ∀ first second, R first second → first.1 = second.1)
include sameKey

theorem forall₂_set {entries : List (κ × α)} {others : List (κ × β)} (related : List.Forall₂ R entries others)
    {key : κ} {value : α} {other : β} (pair : R (key, value) (key, other)) :
    List.Forall₂ R (set key value entries) (set key other others) := by
  induction related with
  | nil => exact List.Forall₂.cons pair List.Forall₂.nil
  | cons here later ih =>
    have same := sameKey _ _ here
    simp only [set, ← same]
    split_ifs
    · exact List.Forall₂.cons pair (List.Forall₂.cons here later)
    · exact List.Forall₂.cons pair later
    · exact List.Forall₂.cons here ih

theorem forall₂_erase {entries : List (κ × α)} {others : List (κ × β)} (related : List.Forall₂ R entries others) (key : κ) :
    List.Forall₂ R (erase key entries) (erase key others) := by
  induction related with
  | nil => exact List.Forall₂.nil
  | cons here later ih =>
    have same := sameKey _ _ here
    simp only [erase, ← same]
    split_ifs
    · exact later
    · exact List.Forall₂.cons here ih

end Related

section Map

variable {β : Type*} (f : α → β)

def mapValues (entries : List (κ × α)) : List (κ × β) := entries.map (fun entry => (entry.1, f entry.2))

theorem set_mapValues (key : κ) (value : α) (entries : List (κ × α)) :
    set key (f value) (mapValues f entries) = mapValues f (set key value entries) := by
  induction entries with
  | nil => rfl
  | cons entry rest ih =>
    simp only [mapValues, List.map_cons, set] at ih ⊢
    split_ifs <;> simp [ih]

theorem erase_mapValues (key : κ) (entries : List (κ × α)) :
    erase key (mapValues f entries) = mapValues f (erase key entries) := by
  induction entries with
  | nil => rfl
  | cons entry rest ih =>
    simp only [mapValues, List.map_cons, erase] at ih ⊢
    split_ifs <;> simp [ih]

theorem find?_mapValues (key : κ) (entries : List (κ × α)) :
    find? key (mapValues f entries) = (find? key entries).map f := by
  induction entries with
  | nil => rfl
  | cons entry rest ih =>
    simp only [mapValues, List.map_cons, find?] at ih ⊢
    split_ifs <;> simp [ih]

end Map

end CloudCryptFS.Util.SortedEntries
