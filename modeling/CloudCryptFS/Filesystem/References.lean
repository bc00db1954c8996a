import CloudCryptFS.Filesystem.StorageContent
import CloudCryptFS.Filesystem.Directory

/-! The references of files that are written to, rewritten and deleted. Which chunks the hashes
stand for plays no part in it, and so the sums need not tell chunks apart. -/

namespace CloudCryptFS.Filesystem
open Util Script Script.Lexer Script.Json BucketIndex

namespace Storage
variable {sha : Chunk → Sha256} {s t : Storage} {o : Nat} {je : Bool} {held : List Nat}

section Writing

/-- A write refers once more to each hash that it puts in place of another. -/
theorem writeLoop_counted {offset : Nat} {hashes after : List Nat} {replaced : List (Nat × Nat)} {buf : Str} {fileOffset : Nat}
    (counted : s.Counted sha held) (ran : writeLoop (hashOps sha je) offset hashes buf fileOffset s = some ((after, replaced), t)) :
    t.Counted sha (replaced.map Prod.snd ++ held) := by
  induction hashes generalizing s held after replaced buf fileOffset with
  | nil =>
    obtain ⟨_, _, asserted, rest⟩ := Run.bind_eq_some.mp ran
    obtain ⟨_, rfl⟩ := Run.assert_eq_some.mp asserted
    cases rest
    exact counted
  | cons writeHash hashes ih =>
    rw [writeLoop] at ran
    split at ran
    · obtain ⟨newHsh, mid, wrote, rest⟩ := Run.bind_eq_some.mp ran
      obtain ⟨counted₁, live⟩ := writeHash_counted counted wrote
      cases newHsh with
      | some newHsh =>
        obtain ⟨_, mid₂, inc, rest⟩ := Run.bind_eq_some.mp rest
        obtain ⟨⟨after₁, replaced₁⟩, last, looped, rest⟩ := Run.bind_eq_some.mp rest
        cases rest
        have counted₂ : mid₂.Counted sha (newHsh :: held) := incRefCnt_counted counted₁ (live newHsh rfl) inc
        have order : (replaced₁.map Prod.snd ++ newHsh :: held).Perm (newHsh :: (replaced₁.map Prod.snd ++ held)) := List.perm_middle
        exact (ih counted₂ looped).congr (fun o => (order.count_eq o).symm)
      | none =>
        obtain ⟨⟨after₁, replaced₁⟩, last, looped, rest⟩ := Run.bind_eq_some.mp rest
        cases rest
        exact ih counted₁ looped
    · obtain ⟨⟨after₁, replaced₁⟩, last, looped, rest⟩ := Run.bind_eq_some.mp ran
      cases rest
      exact ih counted looped

theorem count_windowOf (list : List Nat) (length offset o : Nat) : list.count o = (list.take (offset / chunkSize)).count o +
    ((windowOf list length offset).count o + (list.drop (offset / chunkSize + numHashesInWrite length offset)).count o) := by
  rw [windowOf, ← List.count_append, ← List.count_append, ← List.drop_drop, List.take_append_drop, List.take_append_drop]

/-- After a write the counts stand for the new list of hashes. -/
theorem writeData_counted {file after : FileData Nat} {buf : Str} {offset n : Nat} {others : List Nat}
    (counted : s.Counted sha (file.hashList ++ others)) (ran : writeData (hashOps sha je) file buf offset s = some ((after, n), t)) :
    t.Counted sha (after.hashList ++ others) := by
  rw [writeData_eq] at ran
  obtain ⟨_, _, asserted, rest⟩ := Run.bind_eq_some.mp ran
  obtain ⟨_, rfl⟩ := Run.assert_eq_some.mp asserted
  obtain ⟨_, s₁, paid, rest⟩ := Run.bind_eq_some.mp rest
  obtain ⟨_, _, asserted, rest⟩ := Run.bind_eq_some.mp rest
  obtain ⟨_, rfl⟩ := Run.assert_eq_some.mp asserted
  obtain ⟨⟨new, replaced⟩, s₂, looped, rest⟩ := Run.bind_eq_some.mp rest
  obtain ⟨_, s₃, dropped, rest⟩ := Run.bind_eq_some.mp rest
  obtain ⟨_, _, attached, rest⟩ := Run.bind_eq_some.mp rest
  cases rest
  obtain ⟨list, listShape⟩ : ∃ l, l = grown zeroHash file.hashList (numHashes file.size (List.length buf) offset) := ⟨_, rfl⟩
  change writeLoop (hashOps sha je) offset (windowOf (grown zeroHash file.hashList _) _ offset) buf _ s₁ = _ at looped
  change t.Counted sha ((grown zeroHash file.hashList _).take _ ++ new ++ (grown zeroHash file.hashList _).drop _ ++ others)
  rw [← listShape] at looped ⊢
  have listed : s₁.Counted sha (list ++ others) := by
    refine (growList_counted counted paid).1.congr (fun o => ?_)
    simp only [listShape, grown, List.count_append]
    omega
  have exchanged := (writeLoop_counted listed looped).congr
    (l := replaced.map Prod.fst ++ (list.take (offset / chunkSize) ++ new ++
      list.drop (offset / chunkSize + numHashesInWrite (List.length buf) offset) ++ others)) (fun o => by
    have loop := writeLoop_counts looped o
    have pieces := count_windowOf list (List.length buf) offset o
    simp only [List.count_append]
    omega)
  have given := forM_counted (fun _ _ _ _ counted ran => decRefCnt_counted counted ran) exchanged dropped
  exact (attach_counted given attached).1

theorem swapLoop_counted {fuel : Nat} {newContent : Str} {list : List Nat} (counted : s.Counted sha held)
    (ran : swapLoop (hashOps sha je) fuel newContent s = some (list, t)) : t.Counted sha (list ++ held) := by
  induction fuel generalizing s held newContent list with
  | zero =>
    cases ran
    exact counted
  | succ fuel ih =>
    rw [swapLoop] at ran
    split at ran
    · cases ran
      exact counted
    · obtain ⟨newHsh, mid, wrote, rest⟩ := Run.bind_eq_some.mp ran
      obtain ⟨counted₁, live⟩ := writeHash_counted counted wrote
      cases newHsh with
      | none => cases rest
      | some newHsh =>
        obtain ⟨_, mid₂, inc, rest⟩ := Run.bind_eq_some.mp rest
        obtain ⟨newList, last, looped, rest⟩ := Run.bind_eq_some.mp rest
        cases rest
        have counted₂ : mid₂.Counted sha (newHsh :: held) := incRefCnt_counted counted₁ (live newHsh rfl) inc
        have order : (newList ++ newHsh :: held).Perm (newHsh :: (newList ++ held)) := List.perm_middle
        exact (ih counted₂ looped).congr (fun o => (order.count_eq o).symm)

/-- What is swapped in is referred to before the references to the old content go. -/
theorem swapContent_counted {file after : FileData Nat} {newContent : Str} {others : List Nat}
    (counted : s.Counted sha (file.hashList ++ others)) (ran : swapContent (hashOps sha je) file newContent s = some (after, t)) :
    t.Counted sha (after.hashList ++ others) := by
  obtain ⟨newList, mid, looped, rest⟩ := Run.bind_eq_some.mp ran
  obtain ⟨_, mid₂, dropped, rest⟩ := Run.bind_eq_some.mp rest
  obtain ⟨_, last, attached, rest⟩ := Run.bind_eq_some.mp rest
  cases rest
  have both := (swapLoop_counted counted looped).congr (l := file.hashList.map id ++ (newList ++ others)) (fun o => by
    simp only [List.count_append, List.map_id]
    omega)
  have given := forM_counted (fun _ _ _ _ counted ran => decRefCnt_counted counted ran) both dropped
  exact given.of_still (addChange_still je _ _ _ _ attached) (addChange_within je _ _ _ _ attached)

theorem readHash_counted (o offset size : Nat) : Run.Within (Run.Keeping (Counted sha held)) (readHash o offset size) := by
  intro s text t ran counted
  refine counted.of_still (readHash_still o offset size _ _ _ ran) (readHash_within o offset size _ _ _ ran)

/-- To read does not refer. -/
theorem readDirectoryContent_counted {F : Type} [FloatLib F] (file : FileData Nat) :
    Run.Within (Run.Keeping (Counted sha held)) (readDirectoryContent (F := F) (hashOps sha je) file) :=
  readDirectoryContent_within (fun h offset size => readHash_counted h offset size) file

end Writing

section Resting

theorem restHashes_counted {list : List Nat} (counted : s.Counted sha held) (ran : restHashes (hashOps sha je) list s = some ((), t)) : t.Counted sha held :=
  counted.of_still (restHashes_spec ran).1 (restHashes_within (hashOps_within je) list _ _ _ ran)

theorem storeAll_counted (ids : List Nat) : Run.Within (Run.Keeping (Counted sha held)) (DataFs.storeAll ids) := by
  apply Run.Within.forM
  intro id s _ t ran counted
  exact counted.of_still (Still.of_sameOn (store_spec ran)) (store_spec ran).advance

end Resting

section Releasing

/-- What becomes of hashes when the references of a list are given up: each count goes down by
its places in the list, and the indexes of the hashes that come to zero are posted. -/
structure Released (s t : Storage) (list : List Nat) (posted : List BucketIndex) : Prop where
  refcnt : ∀ o, (t.objects o).refcnt = (s.objects o).refcnt - list.count o
  distinct : posted.Nodup
  members : ∀ d, d ∈ posted ↔ ∃ o ∈ list, o ≠ zeroHash ∧ (s.objects o).bucketIndex = d ∧ (t.objects o).refcnt = 0
  accounting : s.accounting.postAll posted = some t.accounting

/-- One reference is given up. -/
theorem decRefCnt_released (counted : s.Counted sha (o :: held)) (ran : decRefCnt o s = some ((), t)) :
    (∀ o', (t.objects o').refcnt = (s.objects o').refcnt - [o].count o') ∧ (∀ o', (t.objects o').bucketIndex = (s.objects o').bucketIndex) ∧
      (t.accounting = s.accounting ∧ (o ≠ zeroHash → 0 < held.count o) ∨
        o ≠ zeroHash ∧ held.count o = 0 ∧ s.accounting.post (s.objects o).bucketIndex = some t.accounting) := by
  have live := counted.live o List.mem_cons_self
  have loose : o ≠ zeroHash → (s.objects o).fixed = false := by
    intro other
    by_contra fixed
    exact other (counted.rep.fixed o (Bool.eq_true_of_not_eq_false fixed))
  have amount : (s.objects o).fixed = false → (s.objects o).refcnt = held.count o + 1 := by
    intro loose
    rw [counted.refcnt o live loose, List.count_cons_self]
    exact Int.natCast_succ _
  cases decRefCnt_still ran with
  | inl stays =>
    obtain ⟨still, more⟩ := stays
    refine ⟨fun o' => ?_, fun o' => ?_, Or.inl ⟨still.accounting, fun other => ?_⟩⟩
    · rw [still.refcnt]
      by_cases same : o' = o
      · subst same
        rw [refcnt_recount_self, List.count_singleton_self]
        omega
      · rw [refcnt_recount_of_ne same, List.count_singleton, if_neg (by simpa using Ne.symm same)]
        omega
    · rw [still.bucketIndex]
      unfold recount
      by_cases same : o' = o
      · rw [same, objects_setObject_self]
      · rw [objects_setObject_of_ne same]
    · have before := amount (loose other)
      have used := more (loose other) live
      omega
  | inr goes =>
    obtain ⟨loose, _, one, a, posted, still⟩ := goes
    have other : o ≠ zeroHash := by
      rintro rfl
      cases loose.symm.trans counted.rep.zero.2.1
    have last := amount loose
    refine ⟨fun o' => ?_, fun o' => ?_, Or.inr ⟨other, by omega, still.accounting ▸ posted⟩⟩
    · rw [still.refcnt]
      unfold dropped
      by_cases same : o' = o
      · subst same
        dsimp only
        rw [objects_setObject_self, List.count_singleton_self, one]
        rfl
      · dsimp only
        rw [objects_setObject_of_ne same, List.count_singleton, if_neg (by simpa using Ne.symm same)]
        omega
    · rw [still.bucketIndex]
      unfold dropped
      by_cases same : o' = o
      · dsimp only
        rw [same, objects_setObject_self]
      · dsimp only
        rw [objects_setObject_of_ne same]

/-- All references of a list are given up, one after the other. -/
theorem forM_released {list : List Nat} (counted : s.Counted sha (list ++ held))
    (ran : (list.forM (fun o => do
      decRefCnt o
      clearData o) : StorageM PUnit) s = some (⟨⟩, t)) : t.Counted sha held ∧ ∃ posted, Released s t list posted := by
  suffices facts : t.Counted sha held ∧ (∀ o, (t.objects o).refcnt = (s.objects o).refcnt - list.count o) ∧ ∃ posted : List BucketIndex,
      posted.Nodup ∧ (∀ d, d ∈ posted ↔ ∃ o ∈ list, o ≠ zeroHash ∧ (s.objects o).bucketIndex = d ∧ held.count o = 0) ∧
        s.accounting.postAll posted = some t.accounting by
    obtain ⟨counted', refcnt, posted, distinct, members, accounting⟩ := facts
    refine ⟨counted', posted, refcnt, distinct, fun d => (members d).trans ?_, accounting⟩
    apply exists_congr
    intro o
    apply and_congr_right
    intro member
    apply and_congr_right
    intro other
    apply and_congr_right
    intro _
    have loose : (s.objects o).fixed = false := by
      by_contra fixed
      exact other (counted.rep.fixed o (Bool.eq_true_of_not_eq_false fixed))
    have before := counted.refcnt o (counted.live o (List.mem_append_left held member)) loose
    have after := refcnt o
    rw [List.count_append] at before
    omega
  induction list generalizing s with
  | nil =>
    cases ran
    refine ⟨counted, fun o => ?_, [], List.nodup_nil, fun d => ?_, rfl⟩
    · rw [List.count_nil]
      omega
    · simp only [List.not_mem_nil, false_and, exists_false]
  | cons h list ih =>
    rw [List.forM_eq_forM, List.forM_cons] at ran
    obtain ⟨_, mid, body, rest⟩ := Run.bind_eq_some.mp ran
    obtain ⟨_, mid₁, given, cleared⟩ := Run.bind_eq_some.mp body
    have still : Still mid₁ mid := clearData_still h _ _ _ cleared
    have parted : s.Counted sha (h :: (list ++ held)) := counted
    obtain ⟨one, indexes, goes⟩ := decRefCnt_released parted given
    have counted₁ := (decRefCnt_counted parted given).of_still still (clearData_within h _ _ _ cleared)
    obtain ⟨counted', refcnt, posted, distinct, members, accounting⟩ := ih counted₁ rest
    have index : ∀ o, (mid.objects o).bucketIndex = (s.objects o).bucketIndex := fun o => (still.bucketIndex o).trans (indexes o)
    simp only [index] at members
    refine ⟨counted', fun o => ?_, ?_⟩
    · have places : (h :: list).count o = [h].count o + list.count o := by rw [← List.count_append, List.singleton_append]
      rw [refcnt o, still.refcnt o, one o, places]
      omega
    · rw [still.accounting] at accounting
      cases goes with
      | inl stays =>
        obtain ⟨same, again⟩ := stays
        rw [same] at accounting
        refine ⟨posted, distinct, fun d => (members d).trans ?_, accounting⟩
        constructor
        · exact fun ⟨o, member, facts⟩ => ⟨o, List.mem_cons_of_mem h member, facts⟩
        · rintro ⟨o, member, other, place, none⟩
          refine ⟨o, ?_, other, place, none⟩
          -- its count has not come to zero here, so there is one more place for it
          cases List.mem_cons.mp member with
          | inl here =>
            subst here
            have more := again other
            rw [List.count_append] at more
            exact List.count_pos_iff.mp (by omega)
          | inr there => exact there
      | inr last =>
        obtain ⟨other, none, posts⟩ := last
        rw [List.count_append] at none
        have absent : h ∉ list := List.count_eq_zero.mp (by omega)
        refine ⟨(s.objects h).bucketIndex :: posted, List.nodup_cons.mpr ⟨fun again => ?_, distinct⟩, fun d => ?_, ?_⟩
        · obtain ⟨o, member, _, place, _⟩ := (members _).mp again
          have same := counted.rep.distinct (counted.live o (List.mem_cons_of_mem h (List.mem_append_left held member)))
            (counted.live h List.mem_cons_self) place
          exact absent (same ▸ member)
        · rw [List.mem_cons, members d]
          constructor
          · rintro (here | ⟨o, member, facts⟩)
            · exact ⟨h, List.mem_cons_self, other, here.symm, by omega⟩
            · exact ⟨o, List.mem_cons_of_mem h member, facts⟩
          · rintro ⟨o, member, facts⟩
            cases List.mem_cons.mp member with
            | inl here => exact Or.inl (here ▸ facts.2.1.symm)
            | inr there => exact Or.inr ⟨o, there, facts⟩
        · rw [Accounting.postAll, posts]
          exact accounting

/-- Nothing else becomes free. -/
theorem Released.free {list : List Nat} {posted : List BucketIndex} (released : Released s t list posted) (rep : s.Rep sha)
    (live : ∀ o ∈ list, s.Live o) (d : BucketIndex) : t.accounting.Free d ↔ s.accounting.Free d ∨ d ∈ posted := by
  have own : ∀ d ∈ posted, ∃ o, s.Live o ∧ (s.objects o).bucketIndex = d := by
    intro d member
    obtain ⟨o, inside, _, place, _⟩ := (released.members d).mp member
    exact ⟨o, live o inside, place⟩
  refine (Accounting.postAll_spec rep.accounting released.distinct (fun d member => ?_) (fun d member => ?_) released.accounting).2 d
  · obtain ⟨o, alive, rfl⟩ := own d member
    exact rep.positive o alive
  · obtain ⟨o, alive, rfl⟩ := own d member
    exact rep.unavailable o alive

/-- To cut a file off at its beginning gives up all its references. -/
theorem truncateData_released {file after : FileData Nat} {others : List Nat} (counted : s.Counted sha (file.hashList ++ others))
    (ran : truncateData (hashOps sha false) file 0 s = some (after, t)) :
    after = ⟨0, []⟩ ∧ t.Counted sha others ∧ ∃ posted, Released s t file.hashList posted := by
  unfold truncateData at ran
  rw [numChunks_zero] at ran
  dsimp only at ran
  split at ran
  · obtain ⟨_, mid, given, rest⟩ := Run.bind_eq_some.mp ran
    obtain ⟨_, _, attached, rest⟩ := Run.bind_eq_some.mp rest
    cases attached
    cases rest
    exact ⟨rfl, forM_released counted given⟩
  · rename_i empty
    rw [if_neg (Nat.not_lt_zero _)] at ran
    cases ran
    have none : file.hashList = [] := List.eq_nil_of_length_eq_zero (Nat.eq_zero_of_not_pos empty)
    rw [none] at counted ⊢
    have nothing : [].forM (fun o => do
        decRefCnt o
        clearData o : Nat → StorageM PUnit) s = some (⟨⟩, s) := rfl
    exact ⟨rfl, forM_released counted nothing⟩

end Releasing

end Storage

end CloudCryptFS.Filesystem
