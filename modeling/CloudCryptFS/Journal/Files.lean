import CloudCryptFS.Journal.Session

/-! Which files of a session are open, however often its counter has come round. -/

namespace CloudCryptFS.Journal.Session
open Util SortedEntries
variable {S : StreamCipher}

/-- Whether `getJournalFile` makes a new file. -/
def opens (thread : Nat) (s : Session S) : Bool :=
  match (s.jf thread).bind (fun n => (find? n s.files).map (fun f => (n, f))) with
  | some (_, myFile) => myFile.entries > 1024
  | none => true

/-- A file that an entry holds. -/
def Open (n : Nat) (s : Session S) : Prop := (find? n s.files).isSome

instance (n : Nat) (s : Session S) : Decidable (s.Open n) := inferInstanceAs (Decidable (_ = true))

/-- What holds of a session however often its counter has come round. -/
structure Sound (s : Session S) : Prop where
  sortedFiles : Sorted s.files
  sortedWrappers : Sorted s.wrappers
  owned : ∀ id w, find? id s.wrappers = some w → s.Open w.file
  numbers : ∀ n, s.Open n → n < s.nextJournalEntry

variable {s t : Session S}

theorem sound_start : Sound (start : Session S) where
  sortedFiles := sorted_nil
  sortedWrappers := sorted_nil
  owned _ _ found := by cases found
  numbers _ found := by cases found

theorem open_set {n m : Nat} {f : JournalFile S} {files : List (Nat × JournalFile S)} :
    (find? m (set n f files)).isSome ↔ m = n ∨ (find? m files).isSome := by
  by_cases here : m = n
  · subst here
    rw [find?_set_self]
    simp
  · rw [find?_set_of_ne here]
    simp [here]

theorem open_changeFile (n m : Nat) (change : JournalFile S → JournalFile S) (s : Session S) :
    (s.changeFile n change).Open m ↔ s.Open m := by
  unfold changeFile Open
  split
  · rename_i f found
    rw [open_set]
    constructor
    · rintro (rfl | there)
      · rw [found]
        rfl
      · exact there
    · exact Or.inr
  · exact Iff.rfl

theorem sorted_changeFile (n : Nat) (change : JournalFile S → JournalFile S) (sorted : Sorted s.files) :
    Sorted (s.changeFile n change).files := by
  unfold changeFile
  split
  · exact sorted_set sorted _ _
  · exact sorted

/-- The file of a thread is open after `getJournalFile`, and no other file comes or goes. -/
theorem getJournalFile_opens (thread : Nat) (header : StreamHeader) (s : Session S) :
    let result := getJournalFile thread header s
    (∀ m, result.2.Open m ↔ s.Open m ∨ s.opens thread = true ∧ m = s.nextJournalEntry) ∧
      result.2.Open result.1 ∧ result.2.wrappers = s.wrappers ∧
      result.2.nextJournalEntry = s.nextJournalEntry + (s.opens thread).toNat ∧
      (Sorted s.files → Sorted result.2.files) := by
  have created : ∀ m, (createFile thread header s).2.Open m ↔ s.Open m ∨ m = s.nextJournalEntry := fun m => open_set.trans or_comm
  unfold getJournalFile opens
  cases locked : (s.jf thread).bind (fun n => (find? n s.files).map (fun f => (n, f))) with
  | none => exact ⟨fun m => by simpa using created m, (created _).mpr (Or.inr rfl), rfl, rfl, fun sorted => sorted_set sorted _ _⟩
  | some held =>
    obtain ⟨n, f⟩ := held
    dsimp only
    by_cases full : f.entries > 1024
    · rw [if_pos full, decide_eq_true full]
      exact ⟨fun m => by simpa using created m, (created _).mpr (Or.inr rfl), rfl, rfl, fun sorted => sorted_set sorted _ _⟩
    · rw [if_neg full, decide_eq_false full]
      obtain ⟨m, _, mapped⟩ := Option.bind_eq_some_iff.mp locked
      obtain ⟨g, found, pair⟩ := Option.map_eq_some_iff.mp mapped
      cases pair
      refine ⟨fun m => by simp, ?_, rfl, rfl, id⟩
      unfold Open
      rw [found]
      rfl

/-- The number of the file that an entry is added to. -/
theorem add_spec (sound : s.Sound) (a : Addition) :
    (s.add a).Sound ∧ (∀ m, (s.add a).Open m ↔ s.Open m ∨ s.opens a.thread = true ∧ m = s.nextJournalEntry + 1) ∧
      (s.add a).nextJournalEntry = s.nextJournalEntry + 1 + (s.opens a.thread).toNat := by
  have same : ({ s with nextJournalEntry := s.nextJournalEntry + 1 } : Session S).opens a.thread = s.opens a.thread := rfl
  obtain ⟨files, here, wrappers, next, sorted⟩ := getJournalFile_opens a.thread a.header { s with nextJournalEntry := s.nextJournalEntry + 1 }
  obtain ⟨n, u, got⟩ : ∃ n u, getJournalFile a.thread a.header { s with nextJournalEntry := s.nextJournalEntry + 1 } = (n, u) := ⟨_, _, rfl⟩
  rw [got] at files here wrappers next sorted
  rw [same] at files next
  have shape : s.add a =
      { u.changeFile n (JournalFile.writeEntry (a.record s.nextJournalEntry).entry (a.record s.nextJournalEntry).name
          (a.record s.nextJournalEntry).data) with
        wrappers := set s.nextJournalEntry ⟨a.record s.nextJournalEntry, n⟩ u.wrappers } := by
    unfold add
    rw [got]
    dsimp only
    rw [(changeFile_spec _ _ _).1]
  have opened : ∀ m, (s.add a).Open m ↔ u.Open m := by
    intro m
    rw [shape]
    exact open_changeFile n m _ u
  have counted : (s.add a).nextJournalEntry = u.nextJournalEntry := by
    rw [shape]
    exact (changeFile_spec _ _ _).2
  have spread : ∀ m, (s.add a).Open m ↔ s.Open m ∨ s.opens a.thread = true ∧ m = s.nextJournalEntry + 1 :=
    fun m => (opened m).trans (files m)
  refine ⟨⟨?_, ?_, ?_, ?_⟩, spread, counted.trans next⟩
  · rw [shape]
    exact sorted_changeFile n _ (sorted sound.sortedFiles)
  · rw [shape]
    exact sorted_set (wrappers ▸ sound.sortedWrappers) _ _
  · intro id w found
    rw [shape] at found
    by_cases new : id = s.nextJournalEntry
    · subst new
      rw [find?_set_self] at found
      cases found
      exact (opened n).mpr here
    · rw [find?_set_of_ne new, wrappers] at found
      exact (spread w.file).mpr (Or.inl (sound.owned id w found))
  · intro m found
    rw [counted, next]
    obtain before | ⟨isNew, rfl⟩ := (spread m).mp found
    · have less := sound.numbers m before
      dsimp only
      omega
    · rw [isNew]
      exact Nat.lt_succ_self _

/-- A file only goes with the last entry in it. -/
theorem close_spec (sound : s.Sound) {id : Nat} (closed : s.close id = some t) :
    t.Sound ∧ t.nextJournalEntry = s.nextJournalEntry ∧
      ∃ w, find? id s.wrappers = some w ∧ ∀ m, t.Open m ↔ s.Open m ∧ (m ≠ w.file ∨ t.Open w.file) := by
  have next := close_next closed
  unfold close at closed
  cases held : find? id s.wrappers with
  | none =>
    rw [held] at closed
    cases closed
  | some w =>
    rw [held] at closed
    dsimp only at closed
    have sorted := sorted_changeFile w.file (JournalFile.deleteEntry w.inner.id) sound.sortedFiles
    have same := fun m => open_changeFile w.file m (JournalFile.deleteEntry w.inner.id) s
    have own := sound.owned id w held
    rw [(changeFile_spec _ _ _).1] at closed
    have wrappers : t.wrappers = erase id s.wrappers := by
      cases closed
      rfl
    have stays : (∃ id' w', find? id' t.wrappers = some w' ∧ w'.file = w.file) → t.Open w.file := by
      rintro ⟨id', w', found, inFile⟩
      rw [wrappers] at found
      have member := (find?_eq_some_iff (sorted_erase sound.sortedWrappers _) id' w').mp found
      cases closed
      unfold Open
      dsimp only
      rw [if_pos (List.any_eq_true.mpr ⟨_, member, decide_eq_true inFile⟩)]
      exact (same w.file).mpr own
    have opened : ∀ m, t.Open m ↔ s.Open m ∧ (m ≠ w.file ∨ t.Open w.file) := by
      intro m
      cases closed
      unfold Open at same own ⊢
      dsimp only
      split
      · rw [same m]
        exact ⟨fun here => ⟨here, Or.inr ((same w.file).mpr own)⟩, And.left⟩
      · rw [find?_erase_self sorted]
        by_cases here : m = w.file
        · rw [here, find?_erase_self sorted]
          simp
        · rw [find?_erase_of_ne here, same m]
          simp [here]
    refine ⟨⟨?_, ?_, ?_, ?_⟩, next, w, rfl, opened⟩
    · cases closed
      dsimp only
      split
      · exact sorted
      · exact sorted_erase sorted _
    · rw [wrappers]
      exact sorted_erase sound.sortedWrappers _
    · intro id' w' found
      have before : find? id' s.wrappers = some w' := by
        rw [wrappers] at found
        by_cases here : id' = id
        · rw [here, find?_erase_self sound.sortedWrappers] at found
          cases found
        · rwa [find?_erase_of_ne here] at found
      refine (opened w'.file).mpr ⟨sound.owned id' w' before, ?_⟩
      by_cases inFile : w'.file = w.file
      · exact Or.inr (stays ⟨id', w', found, inFile⟩)
      · exact Or.inl inFile
    · intro m found
      rw [next]
      exact sound.numbers m ((opened m).mp found).1

end CloudCryptFS.Journal.Session
