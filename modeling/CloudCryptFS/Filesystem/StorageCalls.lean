import CloudCryptFS.Filesystem.StorageRoom
import CloudCryptFS.Filesystem.Throwing

/-! Writes and truncates of files over the storage, from the assertion about the list to the
rest at their end. What they fetch and post, and what is left of the references to the zero hash,
is told from the state before; so is whether they return. -/

namespace CloudCryptFS.Filesystem
open Util Script.Lexer BucketIndex

namespace Storage
variable {sha : Chunk → Sha256} {s t u : Storage} {o : Nat} {je : Bool} {held left : List Nat} {base : Int}

section Drops

/-- The hashes of a list that nothing refers to any more when only these references are left,
each where the list has it last. -/
def lastOf (left list : List Nat) : List Nat := (list.filter (fun o => o ≠ zeroHash ∧ left.count o = 0)).dedup

theorem lastOf_cons (left list : List Nat) (o : Nat) :
    lastOf left (o :: list) = if o ≠ zeroHash ∧ (list ++ left).count o = 0 then o :: lastOf left list else lastOf left list := by
  have whole : (list ++ left).count o = 0 ↔ o ∉ list ∧ left.count o = 0 := by
    rw [List.count_append, Nat.add_eq_zero_iff, List.count_eq_zero]
  unfold lastOf
  by_cases gone : o ≠ zeroHash ∧ left.count o = 0
  · rw [List.filter_cons_of_pos (by simpa using gone)]
    by_cases again : o ∈ list
    · rw [List.dedup_cons_of_mem (List.mem_filter.mpr ⟨again, by simpa using gone⟩), if_neg (fun both => (whole.mp both.2).1 again)]
    · rw [List.dedup_cons_of_notMem (fun member => again (List.mem_filter.mp member).1), if_pos ⟨gone.1, whole.mpr ⟨again, gone.2⟩⟩]
  · rw [List.filter_cons_of_neg (by simpa using gone), if_neg (fun both => gone ⟨both.1, (whole.mp both.2).2⟩)]

/-- Nothing that concerns references is done. -/
def QuietAt (sha : Chunk → Sha256) (run : StorageM PUnit) : Prop :=
  ∀ s, ∃ t, run s = some (⟨⟩, t) ∧ Still s t ∧ t.loaded = s.loaded ∧ Advance sha s t

theorem quiet_clearData (o : Nat) : QuietAt sha (clearData o) := by
  intro s
  obtain ⟨t, ran⟩ : ∃ t, clearData o s = some ((), t) := ⟨_, rfl⟩
  exact ⟨t, ran, clearData_still o _ _ _ ran, clearData_loaded ran, clearData_within o _ _ _ ran⟩

theorem quiet_pure : QuietAt sha (pure ⟨⟩) := fun s => ⟨s, rfl, Still.refl s, rfl, Advance.refl sha s⟩

variable {α : Type} {f : α → Nat} {after : α → StorageM PUnit}

/-- What one round of a loop that gives up references does. -/
theorem drop_step {a : α} (steady : s.Steady sha base (f a :: held)) (quiet : ∀ a, QuietAt sha (after a))
    (room : f a ≠ zeroHash → held.count (f a) = 0 → (s.accounting.post (s.objects (f a)).bucketIndex).isSome) :
    ∃ t, (do decRefCnt (f a); after a : StorageM PUnit) s = some (⟨⟩, t) ∧ t.Steady sha base held ∧ Calm 2 s t := by
  obtain ⟨mid, ran, steady', calm⟩ := decRefCnt_runs steady room
  obtain ⟨t, rest, still, loaded, advance⟩ := quiet a mid
  have calm' : Calm 0 mid t := Calm.of_loaded loaded
  refine ⟨t, ?_, steady'.of_still still advance (fun id => (calm' id).tidy (steady'.tidy id)), calm.trans calm'⟩
  rw [Run.bind_of_some ran]
  exact rest

/-- What is known after it. -/
theorem drop_spec {a : α} (steady : s.Steady sha base (f a :: held)) (quiet : ∀ a, QuietAt sha (after a))
    (ran : (do decRefCnt (f a); after a : StorageM PUnit) s = some (⟨⟩, t)) :
    (∀ o, (t.objects o).bucketIndex = (s.objects o).bucketIndex) ∧
      (if f a ≠ zeroHash ∧ held.count (f a) = 0 then s.accounting.post (s.objects (f a)).bucketIndex = some t.accounting
        else t.accounting = s.accounting) := by
  obtain ⟨_, mid, given, rest⟩ := Run.bind_eq_some.mp ran
  obtain ⟨_, indexes, goes⟩ := decRefCnt_released steady.counted given
  obtain ⟨t', rest', still, _, _⟩ := quiet a mid
  cases rest.symm.trans rest'
  refine ⟨fun o => (still.bucketIndex o).trans (indexes o), ?_⟩
  rw [still.accounting]
  cases goes with
  | inl stays =>
    rw [if_neg]
    · exact stays.1
    · rintro ⟨other, none⟩
      have more := stays.2 other
      omega
  | inr posts =>
    rw [if_pos ⟨posts.1, posts.2.1⟩]
    exact posts.2.2

/-- A loop that gives up the references of a list gets to its end where there is room for the
indexes of the hashes that nothing refers to any more. -/
theorem drops_run (quiet : ∀ a, QuietAt sha (after a)) {list : List α} (steady : s.Steady sha base (list.map f ++ held))
    (room : (s.accounting.postAll ((lastOf held (list.map f)).map (fun o => (s.objects o).bucketIndex))).isSome) :
    ∃ t, (list.forM (fun a => do decRefCnt (f a); after a) : StorageM PUnit) s = some (⟨⟩, t) ∧ t.Steady sha base held ∧
      Calm (2 * list.length) s t := by
  induction list generalizing s with
  | nil => exact ⟨s, rfl, steady, Calm.refl s⟩
  | cons a list ih =>
    have parted : s.Steady sha base (f a :: (list.map f ++ held)) := steady
    rw [List.map_cons, lastOf_cons] at room
    have here : f a ≠ zeroHash → (list.map f ++ held).count (f a) = 0 → (s.accounting.post (s.objects (f a)).bucketIndex).isSome := by
      intro other none
      rw [if_pos ⟨other, none⟩, List.map_cons, Accounting.postAll] at room
      exact Option.isSome_of_isSome_bind room
    obtain ⟨mid, first, steady', calm⟩ := drop_step parted quiet here
    obtain ⟨indexes, accounting⟩ := drop_spec parted quiet first
    have later : (mid.accounting.postAll ((lastOf held (list.map f)).map (fun o => (mid.objects o).bucketIndex))).isSome := by
      simp only [indexes]
      split at accounting
      · rename_i gone
        rw [if_pos gone, List.map_cons, Accounting.postAll, accounting, Option.bind_some] at room
        exact room
      · rename_i stays
        rw [if_neg stays] at room
        rw [accounting]
        exact room
    obtain ⟨t, rest, steady'', calm'⟩ := ih steady' later
    refine ⟨t, ?_, steady'', (calm.trans calm').mono (by rw [List.length_cons]; omega)⟩
    rw [List.forM_eq_forM, List.forM_cons, Run.bind_of_some first]
    exact rest

/-- And only there. -/
theorem drops_room (quiet : ∀ a, QuietAt sha (after a)) {list : List α} (steady : s.Steady sha base (list.map f ++ held))
    (ran : (list.forM (fun a => do decRefCnt (f a); after a) : StorageM PUnit) s = some (⟨⟩, t)) :
    (s.accounting.postAll ((lastOf held (list.map f)).map (fun o => (s.objects o).bucketIndex))).isSome := by
  induction list generalizing s with
  | nil => rfl
  | cons a list ih =>
    have parted : s.Steady sha base (f a :: (list.map f ++ held)) := steady
    rw [List.forM_eq_forM, List.forM_cons] at ran
    obtain ⟨_, mid, first, rest⟩ := Run.bind_eq_some.mp ran
    have here : f a ≠ zeroHash → (list.map f ++ held).count (f a) = 0 → (s.accounting.post (s.objects (f a)).bucketIndex).isSome := by
      obtain ⟨_, _, given, _⟩ := Run.bind_eq_some.mp first
      exact decRefCnt_room parted given
    obtain ⟨mid', again, steady', _⟩ := drop_step parted quiet here
    cases first.symm.trans again
    obtain ⟨indexes, accounting⟩ := drop_spec parted quiet first
    have later := ih steady' rest
    simp only [indexes] at later
    rw [List.map_cons, lastOf_cons]
    split at accounting
    · rename_i gone
      rw [if_pos gone, List.map_cons, Accounting.postAll, accounting, Option.bind_some]
      exact later
    · rename_i stays
      rw [if_neg stays, ← accounting]
      exact later

end Drops

section Room

/-- The indexes that are posted when the references of a list are given up, and hashes with these
sums are referred to. -/
def freed (s : Storage) (list : List Nat) (sums : List Sha256) : List BucketIndex :=
  ((list.filter (fun o => o ≠ zeroHash ∧ (s.objects o).refcnt = list.count o ∧ (s.objects o).sum ∉ sums)).dedup).map
    (fun o => (s.objects o).bucketIndex)

/-- The zero hash still has references when so many places of it stand in the list of a file in
place of those in this one. -/
def Rests (s : Storage) (list : List Nat) (zeros : Nat) : Prop :=
  zeros ≠ 0 → 0 < (s.objects zeroHash).refcnt - list.count zeroHash + zeros

theorem freed_eq {list : List Nat} (steady : s.Steady sha base (list ++ left)) :
    (lastOf left list).map (fun o => (s.objects o).bucketIndex) = s.freed list [] := by
  have same : list.filter (fun o => o ≠ zeroHash ∧ left.count o = 0) =
      list.filter (fun o => o ≠ zeroHash ∧ (s.objects o).refcnt = list.count o ∧ (s.objects o).sum ∉ ([] : List Sha256)) := by
    apply List.filter_congr
    intro o member
    have count := steady.refcnt (steady.counted.live o (List.mem_append_left left member))
    rw [List.count_append] at count
    simp only [List.not_mem_nil, not_false_eq_true, and_true, decide_eq_decide]
    apply and_congr_right
    intro other
    rw [if_neg other] at count
    omega
  rw [lastOf, same, freed]

/-- The hashes of a list are all referred to when the zero hash is. -/
theorem Steady.rests_iff {list others : List Nat} (steady : t.Steady sha base (list ++ others)) :
    (∀ o ∈ list, 0 < (t.objects o).refcnt) ↔ (list.count zeroHash ≠ 0 → 0 < ((list ++ others).count zeroHash : Int) + base) := by
  constructor
  · intro alive some
    rw [← steady.zero]
    exact alive zeroHash (List.count_pos_iff.mp (by omega))
  · intro enough o member
    have positive := List.count_pos_iff.mpr member
    rw [steady.refcnt (steady.counted.live o (List.mem_append_left others member))]
    split
    · rename_i same
      subst same
      exact enough (by omega)
    · rw [List.count_append]
      omega

/-- Putting a file to rest changes nothing that is counted. -/
theorem Steady.rested {list : List Nat} (steady : s.Steady sha base held) (ran : restHashes (hashOps sha je) list s = some ((), t)) :
    t.Steady sha base held ∧ Calm 0 s t := by
  obtain ⟨still, loaded, _⟩ := restHashes_spec ran
  have calm := Calm.of_loaded loaded
  exact ⟨steady.of_still still (restHashes_within (hashOps_within je) _ _ _ _ ran) (fun id => (calm id).tidy (steady.tidy id)), calm⟩

/-- Whether a file can be put to rest, from the state before its list was changed. -/
theorem rests_of_steady {list list' others : List Nat} (before : s.Steady sha base (list ++ others)) (after : t.Steady sha base (list' ++ others)) :
    (∀ o ∈ list', 0 < (t.objects o).refcnt) ↔ s.Rests list (list'.count zeroHash) := by
  have zero := before.zero
  rw [after.rests_iff, Rests]
  rw [List.count_append] at zero ⊢
  apply imp_congr_right
  intro _
  omega

end Room

section Truncates
variable {file after : FileData Nat} {newSize : Nat} {others : List Nat}

/-- How many changes a truncate counts in a bucket at most. -/
def truncateChanges (file : FileData Nat) : Nat := 2 * file.hashList.length + 1

theorem addChange_runs (steady : s.Steady sha base held) (room : ∀ id, (s.bucketAt id).Room 0) (hashes : List Nat) :
    ∃ t, addChange je hashes s = some ((), t) ∧ t.Steady sha base held ∧ (je = false → Calm 0 s t) := by
  obtain ⟨t, ran, tidy⟩ := addChange_total je hashes room
  refine ⟨t, ran, steady.of_still (addChange_still je _ _ _ _ ran) (addChange_within je _ _ _ _ ran) (fun id => tidy id (steady.tidy id)), ?_⟩
  rintro rfl
  cases ran
  exact Calm.refl _

/-- A list that is cut gives up the references past the end of the new one. -/
theorem Steady.cut (steady : s.Steady sha base (file.hashList ++ others)) (n : Nat) :
    s.Steady sha base ((file.hashList.drop n).map id ++ (file.hashList.take n ++ others)) := by
  apply steady.congr
  intro o
  have pieces := congrArg (List.count o) (List.take_append_drop n file.hashList)
  simp only [List.count_append, List.map_id] at pieces ⊢
  omega

theorem freed_cut (steady : s.Steady sha base (file.hashList ++ others)) (n : Nat) :
    (lastOf (file.hashList.take n ++ others) ((file.hashList.drop n).map id)).map (fun o => (s.objects o).bucketIndex) =
      s.freed (file.hashList.drop n) [] := by
  have parted := steady.cut n
  rw [List.map_id] at parted ⊢
  exact freed_eq parted

theorem truncateData_runs (steady : s.Steady sha base (file.hashList ++ others)) (wide : ∀ id, (s.bucketAt id).Room (truncateChanges file))
    (room : (s.accounting.postAll (s.freed (file.hashList.drop (numChunks newSize)) [])).isSome) :
    ∃ t, truncateData (hashOps sha je) file newSize s = some (⟨newSize, resized zeroHash file.hashList (numChunks newSize)⟩, t) ∧
      t.Steady sha base (resized zeroHash file.hashList (numChunks newSize) ++ others) ∧ (je = false → Calm (truncateChanges file) s t) := by
  unfold truncateData resized
  dsimp only
  split
  · rename_i shorter
    have none : numChunks newSize - file.hashList.length = 0 := by omega
    rw [none, List.replicate_zero, List.append_nil]
    rw [← freed_cut steady] at room
    obtain ⟨mid, dropped, steady₁, calm⟩ := drops_run (fun o => quiet_clearData o) (steady.cut _) room
    have length : (file.hashList.drop (numChunks newSize)).length ≤ file.hashList.length := by
      rw [List.length_drop]
      omega
    obtain ⟨t, attached, steady₂, quiet⟩ := @addChange_runs sha mid je _ base steady₁
      (fun id => (calm id).room 0 (DataBucket.Room.mono (by rw [truncateChanges]; omega) (wide id))) (file.hashList.drop (numChunks newSize))
    have loop : ((file.hashList.drop (numChunks newSize)).forM (fun deleteHash => do
        (hashOps sha je).decRefCnt deleteHash
        (hashOps sha je).rest deleteHash) : StorageM PUnit) s = some (⟨⟩, mid) := dropped
    have handed : (hashOps sha je).addChange (file.hashList.drop (numChunks newSize)) mid = some ((), t) := attached
    refine ⟨t, ?_, steady₂, fun off => (calm.trans (quiet off)).mono (by rw [truncateChanges]; omega)⟩
    rw [Run.bind_of_some loop, Run.bind_of_some handed, Run.pure_apply]
  · split
    · obtain ⟨mid, inc, steady₁, calm, _⟩ := incRefCnt_runs steady steady.counted.rep.zero.1 (numChunks newSize - file.hashList.length)
      obtain ⟨t, attached, steady₂, quiet⟩ := @addChange_runs sha mid je _ base steady₁
        (fun id => (calm id).room 0 (DataBucket.Room.mono (by rw [truncateChanges]; omega) (wide id))) [zeroHash]
      refine ⟨t, ?_, steady₂.congr (fun o => ?_), fun off => (calm.trans (quiet off)).mono (by rw [truncateChanges]; omega)⟩
      · have paid : (hashOps sha je).incRefCnt (hashOps sha je).zeroHash (numChunks newSize - file.hashList.length) s = some ((), mid) := inc
        have handed : (hashOps sha je).addChange [(hashOps sha je).zeroHash] mid = some ((), t) := attached
        rw [Run.bind_of_some paid, Run.bind_of_some handed, Run.pure_apply, List.take_of_length_le (by omega)]
        rfl
      · rw [List.take_of_length_le (by omega)]
        simp only [List.count_append]
        omega
    · have none : numChunks newSize - file.hashList.length = 0 := by omega
      rw [none, List.replicate_zero, List.append_nil, List.take_of_length_le (by omega)]
      exact ⟨s, rfl, steady, fun _ => (Calm.refl s).mono (Nat.zero_le _)⟩

theorem truncateData_room (steady : s.Steady sha base (file.hashList ++ others)) (ran : truncateData (hashOps sha je) file newSize s = some (after, t)) :
    (s.accounting.postAll (s.freed (file.hashList.drop (numChunks newSize)) [])).isSome := by
  unfold truncateData at ran
  dsimp only at ran
  split at ran
  · obtain ⟨_, mid, dropped, _⟩ := Run.bind_eq_some.mp ran
    rw [← freed_cut steady]
    exact drops_room (fun o => quiet_clearData o) (steady.cut _) dropped
  · rw [List.drop_of_length_le (by omega)]
    rfl

/-- A truncate returns just when there is room for the indexes of the hashes that it frees, and the
zero hash still has references if it is left in the list. -/
theorem truncateInner_iff {f : OpenFile Nat} (steady : s.Steady sha base (f.data.hashList ++ others))
    (wide : ∀ id, (s.bucketAt id).Room (truncateChanges f.data)) :
    (∃ after t, truncateInner (hashOps sha je) f newSize s = some (after, t)) ↔
      (s.accounting.postAll (s.freed (f.data.hashList.drop (numChunks newSize)) [])).isSome ∧
        s.Rests f.data.hashList ((resized zeroHash f.data.hashList (numChunks newSize)).count zeroHash) := by
  constructor
  · rintro ⟨after, t, ran⟩
    obtain ⟨data, mid, cutOff, rest⟩ := Run.bind_eq_some.mp ran
    have room := truncateData_room steady cutOff
    obtain ⟨mid', again, steady', _⟩ := @truncateData_runs sha s je base f.data newSize others steady wide room
    cases cutOff.symm.trans again
    obtain ⟨_, _, rested, _⟩ := Run.bind_eq_some.mp rest
    exact ⟨room, (rests_of_steady steady steady').mp (restHashes_iff.mp ⟨_, rested⟩)⟩
  · rintro ⟨room, rests⟩
    obtain ⟨mid, cutOff, steady', _⟩ := @truncateData_runs sha s je base f.data newSize others steady wide room
    obtain ⟨t, rested⟩ := (@restHashes_iff sha mid je _).mpr ((rests_of_steady steady steady').mpr rests)
    refine ⟨{ f with data := ⟨newSize, resized zeroHash f.data.hashList (numChunks newSize)⟩ }, t, ?_⟩
    rw [truncateInner, Run.bind_of_some cutOff, Run.bind_of_some rested, Run.pure_apply]

/-- Another size keeps the first bytes and reads as zeros after them. The truncate returns, and what
is stored past the new end is zero, just when the bytes cut off of the last chunk are, the indexes of
the hashes that it frees can be posted, and the file can be put to rest. -/
theorem truncateInner_resizes (f : OpenFile Nat) (newSize : Nat) (je : Bool) (steady : s.Steady sha base (f.data.hashList ++ others))
    (long : numChunks f.data.size ≤ f.data.hashList.length) (blank : (s.contents f.data).Blank)
    (wide : ∀ id, (s.bucketAt id).Room (truncateChanges f.data)) :
    ∃ cut : FileData Chunk, cut.size = newSize ∧
      cut.text = (s.contents f.data).text.take newSize ++ List.replicate (newSize - f.data.size) 0 ∧
      (∀ after t, truncateInner (hashOps sha je) f newSize s = some (after, t) → t.contents after.data = cut) ∧
      ((∃ after t, truncateInner (hashOps sha je) f newSize s = some (after, t) ∧ (t.contents after.data).Blank) ↔
        (∀ b ∈ ((s.contents f.data).text.drop newSize).take (numChunks newSize * chunkSize - newSize), b = 0) ∧
          (s.accounting.postAll (s.freed (f.data.hashList.drop (numChunks newSize)) [])).isSome ∧
          s.Rests f.data.hashList ((resized zeroHash f.data.hashList (numChunks newSize)).count zeroHash)) := by
  have length : (s.contents f.data).hashList.length = f.data.hashList.length := List.length_map _
  obtain ⟨text, slack⟩ := @resized_text (s.contents f.data) newSize (length ▸ long) blank
  have found : ∀ after t, truncateInner (hashOps sha je) f newSize s = some (after, t) →
      t.contents after.data = ⟨newSize, resized .zero (s.contents f.data).hashList (numChunks newSize)⟩ := by
    intro after t ran
    obtain ⟨data, mid, cutOff, rest⟩ := Run.bind_eq_some.mp ran
    obtain ⟨_, _, rested, rest⟩ := Run.bind_eq_some.mp rest
    cases rest
    obtain ⟨counted, _, same⟩ := truncateData_simulates steady.counted cutOff
    rw [← same]
    have advance : Advance sha mid t := restHashes_within (hashOps_within je) _ _ _ _ rested
    have still := (restHashes_spec rested).1
    have kept := map_content counted advance (fun o member => List.mem_append_left others member)
      (fun o member => (still.live o).mpr (counted.live o (List.mem_append_left others member)))
    exact congrArg (FileData.mk _) kept
  refine ⟨_, rfl, text, found, ?_⟩
  rw [← slack, ← truncateInner_iff steady wide]
  constructor
  · rintro ⟨after, t, ran, blank'⟩
    exact ⟨found after t ran ▸ blank', after, t, ran⟩
  · rintro ⟨blank', after, t, ran⟩
    exact ⟨after, t, ran, (found after t ran).symm ▸ blank'⟩

end Truncates

section Loops

/-- The hashes that a write takes out of its window, each with the sum of the chunk that comes in
its place. -/
def replacements (sha : Chunk → Sha256) (s : Storage) (offset : Nat) : List Nat → Str → (fileOffset : Nat) → List (Nat × Sha256)
  | [], _, _ => []
  | writeHash :: hashes, buf, fileOffset =>
    if offset < fileOffset + chunkSize ∧ buf ≠ [] then
      let newSize := min buf.length (chunkSize - (offset - fileOffset))
      let later := replacements sha s offset hashes (buf.drop newSize) (fileOffset + chunkSize)
      match (s.content writeHash).write (offset - fileOffset) (buf.take newSize) with
      | some d => if sha d = (s.objects writeHash).sum then later else (writeHash, sha d) :: later
      | none => later
    else replacements sha s offset hashes buf (fileOffset + chunkSize)

theorem replacements_congr {offset : Nat} {hashes : List Nat} (same : ∀ o ∈ hashes, t.content o = s.content o ∧ (t.objects o).sum = (s.objects o).sum)
    (buf : Str) (fileOffset : Nat) : replacements sha t offset hashes buf fileOffset = replacements sha s offset hashes buf fileOffset := by
  induction hashes generalizing buf fileOffset with
  | nil => rfl
  | cons writeHash hashes ih =>
    have later := fun buf fileOffset => ih (fun o member => same o (List.mem_cons_of_mem _ member)) buf fileOffset
    obtain ⟨content, sum⟩ := same writeHash List.mem_cons_self
    rw [replacements, replacements, later, content, sum]
    simp only [later]

/-- What is kept of the hashes that are live all along. -/
theorem Adds.same {sums : List Sha256} (adds : Adds s t sums) (rep : s.Rep sha) (advance : Advance sha s t) {hashes : List Nat}
    (before : ∀ o ∈ hashes, s.Live o) (live : ∀ o ∈ hashes, t.Live o) :
    ∀ o ∈ hashes, t.content o = s.content o ∧ (t.objects o).sum = (s.objects o).sum :=
  fun o member => ⟨(advance.content rep o (rep.made o (before o member)) (live o member)).2, (adds.kept o (rep.made o (before o member))).1⟩

/-- The loop of a write gets to its end. -/
theorem writeLoop_runs {offset : Nat} {hashes : List Nat} {buf : Str} {fileOffset : Nat} (steady : s.Steady sha base held)
    (sub : ∀ o ∈ hashes, o ∈ held) (fits : offset - fileOffset + buf.length ≤ hashes.length * chunkSize) :
    ∃ after replaced t, writeLoop (hashOps sha je) offset hashes buf fileOffset s = some ((after, replaced), t) ∧
      t.Steady sha base (replaced.map Prod.snd ++ held) ∧ Calm (2 * hashes.length) s t ∧
      replaced.map (fun pair => (pair.1, (t.objects pair.2).sum)) = replacements sha s offset hashes buf fileOffset ∧
      Adds s t ((replacements sha s offset hashes buf fileOffset).map Prod.snd) ∧ after.length = hashes.length := by
  induction hashes generalizing s held buf fileOffset with
  | nil =>
    have empty : buf = [] := List.length_eq_zero_iff.mp (by rw [List.length_nil] at fits; omega)
    refine ⟨[], [], s, ?_, steady, Calm.refl s, rfl, Adds.of_still (Still.refl s), rfl⟩
    rw [writeLoop, Run.bind_of_some (Run.assert_eq_some.mpr ⟨empty, rfl⟩), Run.pure_apply]
  | cons writeHash hashes ih =>
    have member := sub writeHash List.mem_cons_self
    have others : ∀ o ∈ hashes, o ∈ held := fun o inside => sub o (List.mem_cons_of_mem _ inside)
    rw [List.length_cons, Nat.succ_mul] at fits
    rw [writeLoop, replacements]
    split
    · rename_i here
      dsimp only
      obtain ⟨n, amount⟩ : ∃ n, n = min buf.length (chunkSize - (offset - fileOffset)) := ⟨_, rfl⟩
      rw [← amount]
      have size : (buf.take n).length = n := by
        rw [List.length_take]
        omega
      have rest : (buf.drop n).length = buf.length - n := List.length_drop
      obtain ⟨d, r, mid, written, wrote, steady₁, calm₁, shape⟩ := @writeHash_runs sha s writeHash held base steady (steady.counted.live _ member)
        (offset - fileOffset) (buf.take n) (by omega)
      have advance₁ : Advance sha s mid := writeHash_within _ _ _ _ _ _ wrote
      have plain : (hashOps sha je).write writeHash (offset - fileOffset) (buf.take n) s = some (r, mid) := wrote
      rw [Run.bind_of_some plain, written]
      dsimp only
      by_cases unchanged : sha d = (s.objects writeHash).sum
      · rw [if_pos unchanged] at shape ⊢
        obtain ⟨rfl, adds₁⟩ := shape
        have same := adds₁.same steady.counted.rep advance₁ (fun o inside => steady.counted.live o (others o inside)) (fun o inside => steady₁.counted.live o (others o inside))
        obtain ⟨after, replaced, t, ran, steady₂, calm₂, pairs, adds₂, long⟩ :=
          @ih mid held (buf.drop n) (fileOffset + chunkSize) steady₁ others (by omega)
        rw [replacements_congr same] at pairs adds₂
        refine ⟨writeHash :: after, replaced, t, ?_, steady₂, (calm₁.trans calm₂).mono (by rw [List.length_cons]; omega), pairs, ?_, ?_⟩
        · dsimp only
          rw [Run.bind_of_some ran, Run.pure_apply]
        · exact adds₁.trans adds₂
        · rw [List.length_cons, List.length_cons, long]
      · rw [if_neg unchanged] at shape ⊢
        obtain ⟨newHsh, rfl, live, sum, adds₁⟩ := shape
        obtain ⟨mid₂, inc, steady₂, calm₂, still⟩ := incRefCnt_runs steady₁ live 1
        have advance₂ : Advance sha mid mid₂ := incRefCnt_within newHsh 1 _ _ _ inc
        have adds₂ : Adds s mid₂ [sha d] := adds₁.trans (Adds.of_recount still)
        have alive := steady₂.counted.live newHsh List.mem_cons_self
        have same := adds₂.same steady.counted.rep (advance₁.trans advance₂) (fun o inside => steady.counted.live o (others o inside))
          (fun o inside => steady₂.counted.live o (List.mem_cons_of_mem newHsh (others o inside)))
        obtain ⟨after, replaced, t, ran, steady₃, calm₃, pairs, adds₃, long⟩ := @ih mid₂ (newHsh :: held) (buf.drop n) (fileOffset + chunkSize)
          steady₂ (fun o inside => List.mem_cons_of_mem newHsh (others o inside)) (by omega)
        rw [replacements_congr same] at pairs adds₃
        have own : (t.objects newHsh).sum = sha d :=
          calc (t.objects newHsh).sum
              = (mid₂.objects newHsh).sum := (adds₃.kept newHsh (steady₂.counted.rep.made newHsh alive)).1
            _ = (mid.objects newHsh).sum := ((Adds.of_recount still).kept newHsh (steady₁.counted.rep.made newHsh live)).1
            _ = sha d := sum
        have order : (replaced.map Prod.snd ++ newHsh :: held).Perm (newHsh :: (replaced.map Prod.snd ++ held)) := List.perm_middle
        have paid : (hashOps sha je).incRefCnt newHsh 1 mid = some ((), mid₂) := inc
        refine ⟨newHsh :: after, (writeHash, newHsh) :: replaced, t, ?_, steady₃.congr (fun o => (order.count_eq o).symm),
          ((calm₁.trans calm₂).trans calm₃).mono (by rw [List.length_cons]; omega), ?_, adds₂.trans adds₃, ?_⟩
        · dsimp only
          rw [Run.bind_of_some paid, Run.bind_of_some ran, Run.pure_apply]
        · rw [List.map_cons, own, pairs]
        · rw [List.length_cons, List.length_cons, long]
    · rename_i elsewhere
      have skip : buf.length = 0 ∨ fileOffset + chunkSize ≤ offset := by
        by_contra inside
        push Not at inside
        exact elsewhere ⟨inside.2, fun empty => inside.1 (congrArg List.length empty)⟩
      obtain ⟨after, replaced, t, ran, steady', calm, pairs, adds, long⟩ := @ih s held buf (fileOffset + chunkSize) steady others (by omega)
      refine ⟨writeHash :: after, replaced, t, ?_, steady', calm.mono (by rw [List.length_cons]; omega), pairs, adds, ?_⟩
      · rw [Run.bind_of_some ran]
        dsimp only
        rw [Run.pure_apply]
      · rw [List.length_cons, List.length_cons, long]

/-- They are taken out of the window. -/
theorem replacements_sublist (offset : Nat) (hashes : List Nat) (buf : Str) (fileOffset : Nat) :
    ((replacements sha s offset hashes buf fileOffset).map Prod.fst).Sublist hashes := by
  induction hashes generalizing buf fileOffset with
  | nil => exact List.Sublist.refl []
  | cons writeHash hashes ih =>
    rw [replacements]
    split
    · dsimp only
      split
      · split
        · exact (ih _ _).cons writeHash
        · exact (ih _ _).cons_cons writeHash
      · exact (ih _ _).cons writeHash
    · exact (ih _ _).cons writeHash

end Loops

section Writes
variable {file after : FileData Nat} {buf : Str} {offset n : Nat} {others : List Nat}

/-- What a write replaces in a file. -/
def written (sha : Chunk → Sha256) (s : Storage) (file : FileData Nat) (buf : Str) (offset : Nat) : List (Nat × Sha256) :=
  replacements sha s offset (windowOf (grown zeroHash file.hashList (numHashes file.size buf.length offset)) buf.length offset) buf
    (offset / chunkSize * chunkSize)

/-- The accounting has room for what a write fetches and posts. -/
def HasRoom (s : Storage) (pairs : List (Nat × Sha256)) : Prop :=
  ((s.accounting.fetchAll (s.unknown (pairs.map Prod.snd))).bind
    (fun a => a.postAll (s.freed (pairs.map Prod.fst) (pairs.map Prod.snd)))).isSome

/-- The places of the zero hash in the list of a file after a write. -/
def zerosAfter (s : Storage) (file : FileData Nat) (buf : Str) (offset : Nat) (pairs : List (Nat × Sha256)) : Nat :=
  (grown zeroHash file.hashList (numHashes file.size buf.length offset)).count zeroHash + (pairs.map Prod.snd).count (s.objects zeroHash).sum -
    (pairs.map Prod.fst).count zeroHash

/-- How many changes a write counts in a bucket at most. -/
def writeChanges (buf : Str) (offset : Nat) : Nat := 4 * numHashesInWrite buf.length offset + 1

theorem Rep.eq_of_sum {o' : Nat} (rep : s.Rep sha) (live : s.Live o) (live' : s.Live o') (same : (s.objects o).sum = (s.objects o').sum) : o = o' := by
  have first := rep.index o live
  rw [same, rep.index o' live'] at first
  exact (Option.some.inj first).symm

theorem Rep.count_sum {l : List Nat} (rep : s.Rep sha) (live : ∀ n ∈ l, s.Live n) (own : s.Live o) :
    (l.map (fun n => (s.objects n).sum)).count (s.objects o).sum = l.count o := by
  rw [List.count, List.countP_map, List.count]
  apply List.countP_congr
  intro n member
  simp only [Function.comp_apply, beq_iff_eq]
  constructor
  · exact rep.eq_of_sum (live n member) own
  · intro same
    rw [same]

/-- The list of a file once its loop is done. -/
def replacedList (list new : List Nat) (length offset : Nat) : List Nat :=
  list.take (offset / chunkSize) ++ new ++ list.drop (offset / chunkSize + numHashesInWrite length offset)

/-- Where a write stands before it gives up references. -/
structure Looped (sha : Chunk → Sha256) (base : Int) (others : List Nat) (s t : Storage) (list new : List Nat) (replaced : List (Nat × Nat))
    (length offset : Nat) (pairs : List (Nat × Sha256)) : Prop where
  steady : t.Steady sha base (replaced.map Prod.fst ++ (replacedList list new length offset ++ others))
  calm : Calm (2 * numHashesInWrite length offset + 1) s t
  count : replaced.length = pairs.length
  accounting : s.accounting.fetchAll (s.unknown (pairs.map Prod.snd)) = some t.accounting
  posts : (lastOf (replacedList list new length offset ++ others) (replaced.map Prod.fst)).map (fun o => (t.objects o).bucketIndex) =
    s.freed (pairs.map Prod.fst) (pairs.map Prod.snd)
  zeros : (replacedList list new length offset).count zeroHash =
    list.count zeroHash + (pairs.map Prod.snd).count (s.objects zeroHash).sum - (pairs.map Prod.fst).count zeroHash
  few : replaced.length ≤ numHashesInWrite length offset
  length : new.length = numHashesInWrite length offset

theorem growList_runs (steady : s.Steady sha base held) (n : Nat) :
    ∃ t, growList (hashOps sha je) n s = some ((), t) ∧ t.Steady sha base (List.replicate n zeroHash ++ held) ∧ Calm 1 s t ∧ Adds s t [] := by
  unfold growList
  split
  · obtain ⟨t, ran, steady', calm, still⟩ := incRefCnt_runs steady steady.counted.rep.zero.1 n
    exact ⟨t, ran, steady', calm, Adds.of_recount still⟩
  · have none : n = 0 := by omega
    rw [none]
    exact ⟨s, rfl, steady, (Calm.refl s).mono (Nat.zero_le 1), Adds.of_still (Still.refl s)⟩

/-- A write gets so far whenever the list is not too long. -/
theorem writeData_looped (steady : s.Steady sha base (file.hashList ++ others)) (grows : file.hashList.length ≤ numHashes file.size buf.length offset) :
    ∃ s₁ new replaced s₂, growList (hashOps sha je) (numHashes file.size buf.length offset - file.hashList.length) s = some ((), s₁) ∧
      writeLoop (hashOps sha je) offset (windowOf (grown zeroHash file.hashList (numHashes file.size buf.length offset)) buf.length offset) buf
        (offset / chunkSize * chunkSize) s₁ = some ((new, replaced), s₂) ∧
      Looped sha base others s s₂ (grown zeroHash file.hashList (numHashes file.size buf.length offset)) new replaced buf.length offset
        (written sha s file buf offset) := by
  obtain ⟨list, listShape⟩ : ∃ l, l = grown zeroHash file.hashList (numHashes file.size buf.length offset) := ⟨_, rfl⟩
  have long : list.length = numHashes file.size buf.length offset := listShape ▸ length_grown _ grows
  have size := length_windowOf long
  obtain ⟨s₁, paid, steady₁, calm₁, adds₁⟩ := @growList_runs sha s je _ base steady (numHashes file.size buf.length offset - file.hashList.length)
  have advance₁ : Advance sha s s₁ := (growList_counted steady.counted paid).2.1
  have listed : s₁.Steady sha base (list ++ others) := by
    apply steady₁.congr
    intro o
    rw [listShape, grown, List.count_append, List.count_append, List.count_append, List.count_append]
    omega
  have inWindow : ∀ o ∈ windowOf list buf.length offset, o ∈ list := fun o member => List.mem_of_mem_drop (List.mem_of_mem_take member)
  obtain ⟨new, replaced, s₂, ran, steady₂, calm₂, pairs, adds₂, count⟩ := @writeLoop_runs sha s₁ je (list ++ others) base offset
    (windowOf list buf.length offset) buf (offset / chunkSize * chunkSize) listed (fun o member => List.mem_append_left others (inWindow o member))
    (by rw [offset_in_chunk, size]; exact window_fits _ _)
  rw [size] at calm₂ count
  have before : ∀ o ∈ list, s.Live o := by
    intro o member
    rw [listShape, grown] at member
    cases List.mem_append.mp member with
    | inl old => exact steady.counted.live o (List.mem_append_left others old)
    | inr new => exact List.eq_of_mem_replicate new ▸ steady.counted.rep.zero.1
  have same := adds₁.same steady.counted.rep advance₁ (fun o member => before o (inWindow o member))
    (fun o member => listed.counted.live o (List.mem_append_left others (inWindow o member)))
  rw [replacements_congr same] at pairs adds₂
  have adds : Adds s s₂ ((written sha s file buf offset).map Prod.snd) := by
    unfold written
    rw [← listShape]
    exact adds₁.trans adds₂
  have whole : replaced.map (fun pair => (pair.1, (s₂.objects pair.2).sum)) = written sha s file buf offset := by
    unfold written
    rw [← listShape]
    exact pairs
  have olds : (written sha s file buf offset).map Prod.fst = replaced.map Prod.fst := by
    rw [← whole, List.map_map]
    rfl
  have sums : (written sha s file buf offset).map Prod.snd = (replaced.map Prod.snd).map (fun n => (s₂.objects n).sum) := by
    rw [← whole, List.map_map, List.map_map]
    rfl
  have sub : (replaced.map Prod.fst).Sublist (windowOf list buf.length offset) := by
    rw [← olds, written, ← listShape]
    exact replacements_sublist _ _ _ _
  have counts : ∀ o, (replacedList list new buf.length offset).count o + (replaced.map Prod.fst).count o =
      list.count o + (replaced.map Prod.snd).count o ∧ (replaced.map Prod.fst).count o ≤ list.count o := by
    intro o
    have loop := writeLoop_counts ran o
    have pieces := count_windowOf list buf.length offset o
    have few := sub.count_le o
    simp only [replacedList, List.count_append]
    omega
  have exchanged : s₂.Steady sha base (replaced.map Prod.fst ++ (replacedList list new buf.length offset ++ others)) := by
    apply steady₂.congr
    intro o
    have balance := (counts o).1
    simp only [List.count_append]
    omega
  have news : ∀ n ∈ replaced.map Prod.snd, s₂.Live n := fun n member => steady₂.counted.live n (List.mem_append_left _ member)
  have again : ∀ o, s.Live o → s₂.Live o →
      ((written sha s file buf offset).map Prod.snd).count (s.objects o).sum = (replaced.map Prod.snd).count o := by
    intro o live live'
    rw [sums, ← (adds.kept o (steady.counted.rep.made o live)).1]
    exact steady₂.counted.rep.count_sum news live'
  refine ⟨s₁, new, replaced, s₂, paid, by rw [← listShape]; exact ran, ?_⟩
  rw [← listShape]
  refine ⟨exchanged, (calm₁.trans calm₂).mono (by omega), ?_, adds.accounting, ?_, ?_, ?_, count⟩
  · rw [← whole, List.length_map]
  · unfold lastOf freed
    rw [olds]
    have filters : (replaced.map Prod.fst).filter (fun o => o ≠ zeroHash ∧ (replacedList list new buf.length offset ++ others).count o = 0) =
        (replaced.map Prod.fst).filter (fun o => o ≠ zeroHash ∧ (s.objects o).refcnt = (replaced.map Prod.fst).count o ∧
          (s.objects o).sum ∉ (written sha s file buf offset).map Prod.snd) := by
      apply List.filter_congr
      intro o member
      have live := before o (inWindow o (sub.subset member))
      have live' := exchanged.counted.live o (List.mem_append_left _ member)
      have found := again o live live'
      obtain ⟨balance, few⟩ := counts o
      simp only [decide_eq_decide]
      apply and_congr_right
      intro other
      have refcnt := steady.refcnt live
      have places : list.count o = file.hashList.count o := by
        rw [listShape, grown, List.count_append, List.count_replicate, if_neg (by simpa using Ne.symm other), Nat.add_zero]
      rw [if_neg other, List.count_append] at refcnt
      rw [← List.count_eq_zero, found, List.count_append]
      omega
    rw [filters]
    apply List.map_congr_left
    intro o member
    have inside := sub.subset (List.mem_filter.mp (List.mem_dedup.mp member)).1
    exact (adds.kept o (steady.counted.rep.made o (before o (inWindow o inside)))).2
  · have zero := again zeroHash steady.counted.rep.zero.1 steady₂.counted.rep.zero.1
    have balance := (counts zeroHash).1
    rw [zero, olds]
    omega
  · have less := sub.length_le
    rw [List.length_map, size] at less
    exact less

theorem drops_eq (replaced : List (Nat × Nat)) : (replaced.forM (fun pair => (hashOps sha je).decRefCnt pair.1) : StorageM PUnit) =
    replaced.forM (fun pair => do
      decRefCnt pair.1
      pure ⟨⟩) := by
  congr 1
  funext pair
  exact (bind_pure_unit).symm

theorem attach_runs (steady : s.Steady sha base held) (room : ∀ id, (s.bucketAt id).Room 0) (replaced : List (Nat × Nat)) :
    ∃ t, attach (hashOps sha je) replaced s = some ((), t) ∧ t.Steady sha base held ∧ (je = false → Calm 0 s t) := by
  unfold attach
  split
  · exact addChange_runs steady room _
  · exact ⟨s, rfl, steady, fun _ => Calm.refl s⟩

theorem writeData_parts : writeData (hashOps sha je) file buf offset = (do
    Run.assert (file.hashList.length ≤ numHashes file.size buf.length offset)
    growList (hashOps sha je) (numHashes file.size buf.length offset - file.hashList.length)
    let list := grown zeroHash file.hashList (numHashes file.size buf.length offset)
    Run.assert ((windowOf list buf.length offset).length = numHashesInWrite buf.length offset)
    let result ← writeLoop (hashOps sha je) offset (windowOf list buf.length offset) buf (offset / chunkSize * chunkSize)
    result.2.forM (fun pair => do
      decRefCnt pair.1
      pure ⟨⟩)
    attach (hashOps sha je) result.2
    pure (⟨max file.size (offset + buf.length), replacedList list result.1 buf.length offset⟩, result.2.length)) := by
  rw [writeData_eq]
  simp only [drops_eq]
  rfl

/-- A write returns where there is room for what it fetches and posts. -/
theorem writeData_runs (steady : s.Steady sha base (file.hashList ++ others)) (grows : file.hashList.length ≤ numHashes file.size buf.length offset)
    (wide : ∀ id, (s.bucketAt id).Room (writeChanges buf offset)) (room : s.HasRoom (written sha s file buf offset)) :
    ∃ after t, writeData (hashOps sha je) file buf offset s = some ((after, (written sha s file buf offset).length), t) ∧
      t.Steady sha base (after.hashList ++ others) ∧ after.size = max file.size (offset + buf.length) ∧
      after.hashList.length = numHashes file.size buf.length offset ∧
      after.hashList.count zeroHash = s.zerosAfter file buf offset (written sha s file buf offset) ∧ (je = false → Calm (writeChanges buf offset) s t) := by
  obtain ⟨s₁, new, replaced, s₂, paid, ran, looped⟩ := @writeData_looped sha s je base file buf offset others steady grows
  have long := length_grown zeroHash grows
  have size := length_windowOf long
  rw [HasRoom, looped.accounting, Option.bind_some, ← looped.posts] at room
  obtain ⟨s₃, dropped, steady₃, calm₃⟩ := drops_run (fun _ => quiet_pure) looped.steady room
  have few := looped.few
  obtain ⟨t, attached, steady₄, quiet⟩ := @attach_runs sha s₃ je _ base steady₃
    (fun id => ((looped.calm.trans calm₃) id).room 0 ((wide id).mono (by rw [writeChanges]; omega))) replaced
  refine ⟨⟨max file.size (offset + buf.length), replacedList (grown zeroHash file.hashList (numHashes file.size buf.length offset)) new
    buf.length offset⟩, t, ?_, steady₄, rfl, length_replaced long looped.length, looped.zeros, fun off => ?_⟩
  · rw [writeData_parts, Run.bind_of_some (Run.assert_eq_some.mpr ⟨grows, rfl⟩), Run.bind_of_some paid]
    rw [Run.bind_of_some (Run.assert_eq_some.mpr ⟨size, rfl⟩), Run.bind_of_some ran]
    dsimp only
    rw [Run.bind_of_some dropped, Run.bind_of_some attached, looped.count, Run.pure_apply]
  · exact ((looped.calm.trans calm₃).trans (quiet off)).mono (by rw [writeChanges]; omega)

/-- And only there. -/
theorem writeData_room (steady : s.Steady sha base (file.hashList ++ others)) (ran : writeData (hashOps sha je) file buf offset s = some ((after, n), t)) :
    file.hashList.length ≤ numHashes file.size buf.length offset ∧ s.HasRoom (written sha s file buf offset) := by
  rw [writeData_parts] at ran
  obtain ⟨_, _, asserted, rest⟩ := Run.bind_eq_some.mp ran
  obtain ⟨grows, rfl⟩ := Run.assert_eq_some.mp asserted
  obtain ⟨s₁, new, replaced, s₂, paid, loop, looped⟩ := @writeData_looped sha s je base file buf offset others steady grows
  rw [Run.bind_of_some paid] at rest
  obtain ⟨_, _, asserted, rest⟩ := Run.bind_eq_some.mp rest
  obtain ⟨_, rfl⟩ := Run.assert_eq_some.mp asserted
  rw [Run.bind_of_some loop] at rest
  obtain ⟨_, s₃, dropped, _⟩ := Run.bind_eq_some.mp rest
  refine ⟨grows, ?_⟩
  rw [HasRoom, looped.accounting, Option.bind_some, ← looped.posts]
  exact drops_room (fun _ => quiet_pure) looped.steady dropped

/-- A write returns just when the list is not too long, there is room for what it fetches and posts,
and the zero hash still has references if the write puts the file to rest with it. -/
theorem writeInner_iff {f : OpenFile Nat} (steady : s.Steady sha base (f.data.hashList ++ others))
    (wide : ∀ id, (s.bucketAt id).Room (writeChanges buf offset)) :
    (∃ after t, writeInner (hashOps sha je) f buf offset s = some (after, t)) ↔
      f.data.hashList.length ≤ numHashes f.data.size buf.length offset ∧ s.HasRoom (written sha s f.data buf offset) ∧
        (f.numHashWrites + (written sha s f.data buf offset).length > chunksInBucket * 5 →
          s.Rests f.data.hashList (s.zerosAfter f.data buf offset (written sha s f.data buf offset))) := by
  constructor
  · rintro ⟨after, t, ran⟩
    obtain ⟨⟨data, n⟩, mid, wrote, rest⟩ := Run.bind_eq_some.mp ran
    obtain ⟨grows, room⟩ := writeData_room steady wrote
    obtain ⟨data', mid', again, steady', _, _, zeros, _⟩ := @writeData_runs sha s je base f.data buf offset others steady grows wide room
    cases wrote.symm.trans again
    refine ⟨grows, room, fun many => ?_⟩
    dsimp only at rest
    rw [if_pos many] at rest
    obtain ⟨_, _, rested, _⟩ := Run.bind_eq_some.mp rest
    rw [← zeros]
    exact (rests_of_steady steady steady').mp (restHashes_iff.mp ⟨_, rested⟩)
  · rintro ⟨grows, room, rests⟩
    obtain ⟨data, mid, wrote, steady', _, _, zeros, _⟩ := @writeData_runs sha s je base f.data buf offset others steady grows wide room
    rw [writeInner, Run.bind_of_some wrote]
    dsimp only
    split
    · rename_i many
      rw [← zeros] at rests
      obtain ⟨t, rested⟩ := (@restHashes_iff sha mid je _).mpr ((rests_of_steady steady steady').mpr (rests many))
      refine ⟨{ f with data := data, numHashWrites := 0 }, t, ?_⟩
      rw [Run.bind_of_some rested, Run.pure_apply]
    · exact ⟨_, mid, rfl⟩

/-- A write that is not stopped by an exception is the write over buckets that can all be read. -/
theorem writeInner_unthrown {unreadable : Nat → Bool} {f : OpenFile Nat}
    (quiet : ¬∃ after t, Throwing.tryWrite sha unreadable je f buf offset s = some ((after, none), t)) :
    Throwing.writeInner sha unreadable je f buf offset s =
      (writeInner (hashOps sha je) f buf offset s).map (fun result => ((result.1, buf.length), result.2)) := by
  cases plain : writeData (hashOps sha je) f.data buf offset s with
  | none =>
    have stops : Throwing.tryWrite sha unreadable je f buf offset s = none := by
      cases ran : Throwing.tryWrite sha unreadable je f buf offset s with
      | none => rfl
      | some result =>
        obtain ⟨⟨after, answer⟩, t⟩ := result
        cases answer with
        | none => exact absurd ⟨after, t, ran⟩ quiet
        | some k =>
          obtain ⟨_, n, wrote, _⟩ := Throwing.tryWrite_returns ran
          cases wrote.symm.trans plain
    rw [Throwing.writeInner, writeInner, Run.bind_apply, Run.bind_apply, stops, plain]
    rfl
  | some result =>
    obtain ⟨⟨data, n⟩, t⟩ := result
    have returned := (Throwing.tryWrite_follows plain).resolve_right quiet
    rw [Throwing.writeInner, writeInner, Run.bind_of_some returned, Run.bind_of_some plain]
    dsimp only
    split
    · rw [Run.bind_apply, Run.bind_apply]
      cases restHashes (hashOps sha je) data.hashList t <;> rfl
    · rfl

/-- A write returns the number of bytes that it was given, and puts them in their place: what is
missing before them is filled with zeros, and what is stored past the end stays zero. When nothing
throws it does so just when there is room for what it fetches and posts, and the zero hash still has
references if the write puts the file to rest with it. -/
theorem writeInner_places {K : Set Chunk} (injective : Set.InjOn sha K) (f : OpenFile Nat) (buf : Str) (offset : Nat)
    (steady : s.Steady sha base (f.data.hashList ++ others)) (known : s.Known K) (long : numChunks f.data.size ≤ f.data.hashList.length)
    (blank : (s.contents f.data).Blank) (grows : f.data.hashList.length ≤ numHashes f.data.size buf.length offset)
    (wide : ∀ id, (s.bucketAt id).Room (writeChanges buf offset)) :
    ∃ placed n, writeData quietOps (s.contents f.data) buf offset () = some ((placed, n), ()) ∧ placed.size = max f.data.size (offset + buf.length) ∧
      placed.text = splice ((s.contents f.data).text ++ List.replicate (offset - f.data.size) 0) offset buf ∧ placed.Blank ∧
      ((∀ d ∈ placed.hashList, d ∈ K) → ∀ unreadable je,
        (¬∃ after t, Throwing.tryWrite sha unreadable je f buf offset s = some ((after, none), t)) →
          (∀ after k t, Throwing.writeInner sha unreadable je f buf offset s = some ((after, k), t) →
            k = buf.length ∧ t.contents after.data = placed) ∧
          ((∃ after t, Throwing.writeInner sha unreadable je f buf offset s = some ((after, buf.length), t) ∧ t.contents after.data = placed) ↔
            s.HasRoom (written sha s f.data buf offset) ∧
              (f.numHashWrites + (written sha s f.data buf offset).length > chunksInBucket * 5 →
                s.Rests f.data.hashList (s.zerosAfter f.data buf offset (written sha s f.data buf offset))))) := by
  have length : (s.contents f.data).hashList.length = f.data.hashList.length := List.length_map _
  obtain ⟨placed, n, ran, size, _, spliced⟩ := @writeData_bytes Unit (s.contents f.data) buf offset (length ▸ grows) ()
  obtain ⟨text, blank'⟩ := writeData_text (length ▸ long) blank (length ▸ grows) size spliced
  refine ⟨placed, n, ran, size, text, blank', fun within unreadable je quiet => ?_⟩
  have found : ∀ after k t, Throwing.writeInner sha unreadable je f buf offset s = some ((after, k), t) →
      k = buf.length ∧ t.contents after.data = placed := by
    intro after k t tried
    rw [writeInner_unthrown quiet] at tried
    obtain ⟨⟨after', t'⟩, plain, shape⟩ := Option.map_eq_some_iff.mp tried
    cases shape
    refine ⟨rfl, ?_⟩
    obtain ⟨⟨data, m⟩, mid, wrote, rest⟩ := Run.bind_eq_some.mp plain
    obtain ⟨counted, _, same⟩ := writeData_simulates injective steady.counted known ran within wrote
    dsimp only at rest
    split at rest
    · obtain ⟨_, last, rested, ended⟩ := Run.bind_eq_some.mp rest
      obtain ⟨rfl, rfl⟩ := Prod.mk.inj (Option.some.inj ended)
      rw [← same]
      have advance : Advance sha mid last := restHashes_within (hashOps_within je) _ _ _ _ rested
      have still := (restHashes_spec rested).1
      have kept := map_content counted advance (fun o member => List.mem_append_left others member)
        (fun o member => (still.live o).mpr (counted.live o (List.mem_append_left others member)))
      exact congrArg (FileData.mk _) kept
    · cases rest
      exact same
  refine ⟨found, ?_⟩
  have returns := @writeInner_iff sha s je base buf offset others f steady wide
  constructor
  · rintro ⟨after, t, tried, _⟩
    rw [writeInner_unthrown quiet] at tried
    obtain ⟨result, plain, _⟩ := Option.map_eq_some_iff.mp tried
    exact (returns.mp ⟨_, _, plain⟩).2
  · intro room
    obtain ⟨after, t, plain⟩ := returns.mpr ⟨grows, room⟩
    have tried : Throwing.writeInner sha unreadable je f buf offset s = some ((after, buf.length), t) := by
      rw [writeInner_unthrown quiet, plain]
      rfl
    exact ⟨after, t, tried, (found after _ t tried).2⟩

end Writes

section Runs
open DataFs

theorem bucketAt_zeroOnly {id : Nat} (other : id ≠ 1) : zeroOnly.bucketAt id = {} := by
  have absent : zeroOnly.loaded id = none := by
    simp only [zeroOnly, Function.update_of_ne other]
  rw [bucketAt, absent, Option.getD_none]

/-- After a mount the zero hash counts one reference, whatever the files have. -/
theorem steady_zeroOnly (n : Nat) : zeroOnly.Steady prefixSum (1 - n) (List.replicate n zeroHash) := by
  have counted : zeroOnly.Counted prefixSum (List.replicate n zeroHash) := by
    apply counted_zeroOnly.congr_of_ne
    intro o other
    rw [List.count_nil, List.count_eq_zero]
    exact fun member => other (List.eq_of_mem_replicate member)
  refine ⟨counted, ?_, fun id => ?_, Or.inl (by decide)⟩
  · rw [List.count_replicate_self]
    change (1 : Int) = _
    omega
  · by_cases one : id = 1
    · subst one
      exact fun _ => rfl
    · rw [bucketAt_zeroOnly one]
      exact fun chunks => chunks

theorem contents_zeros (size n : Nat) :
    zeroOnly.contents ⟨size, List.replicate n zeroHash⟩ = ⟨size, List.replicate n .zero⟩ := by
  unfold contents
  rw [List.map_replicate, content_zeroHash rep_zeroOnly]

theorem room_zeroOnly (n id : Nat) : (zeroOnly.bucketAt id).Room n := by
  left
  by_cases one : id = 1
  · subst one
    decide
  · rw [bucketAt_zeroOnly one]
    decide

/-- One byte after the first chunk of an empty file, by a write that puts the file to rest. -/
theorem writeInner_places_one : ∃ after t,
    Throwing.writeInner prefixSum (fun _ => false) false ⟨⟨0, []⟩, 0, chunksInBucket * 5⟩ [1] chunkSize zeroOnly = some ((after, 1), t) ∧
      (t.contents after.data).text = List.replicate chunkSize 0 ++ [1] := by
  have injective : Set.InjOn prefixSum {.zero, oneChunk} := by
    rintro c (rfl | rfl) d (rfl | rfl) same
    · rfl
    · exact absurd same (by decide)
    · exact absurd same (by decide)
    · rfl
  have known : zeroOnly.Known {.zero, oneChunk} := by
    intro o live
    rw [live_zeroOnly live]
    exact Or.inl rfl
  obtain ⟨placed, n, plain, size, text, _, spec⟩ := writeInner_places injective ⟨⟨0, []⟩, 0, chunksInBucket * 5⟩ [1] chunkSize (steady_zeroOnly 0) known
    (by decide) (fun b member => absurd member List.not_mem_nil) (by decide) (fun id => room_zeroOnly _ id)
  have shape : writeData quietOps ⟨0, []⟩ [1] chunkSize () = some ((⟨chunkSize + 1, [.zero, oneChunk]⟩, 1), ()) := rfl
  cases plain.symm.trans shape
  have quiet : ¬∃ after t, Throwing.tryWrite prefixSum (fun _ => false) false ⟨⟨0, []⟩, 0, chunksInBucket * 5⟩ [1] chunkSize zeroOnly = some ((after, none), t) := by
    rintro ⟨after, t, ran⟩
    have outcome : (Throwing.tryWrite prefixSum (fun _ => false) false ⟨⟨0, []⟩, 0, chunksInBucket * 5⟩ [1] chunkSize zeroOnly).map (fun r => r.1.2) =
        some (some 1) := by decide +kernel
    rw [ran] at outcome
    cases outcome
  have room : zeroOnly.HasRoom (written prefixSum zeroOnly ⟨0, []⟩ [1] chunkSize) := by
    unfold HasRoom
    decide +kernel
  have within : ∀ d ∈ [Chunk.zero, oneChunk], d ∈ ({.zero, oneChunk} : Set Chunk) := by
    intro d member
    simpa using member
  obtain ⟨after, t, ran, same⟩ := (spec within (fun _ => false) false quiet).2.mpr ⟨room, fun _ _ => by decide +kernel⟩
  refine ⟨after, t, ran, ?_⟩
  rw [same, text]
  have empty : (zeroOnly.contents ⟨0, []⟩).text = [] := rfl
  have zeros : (List.replicate chunkSize (0 : Byte)).length ≤ chunkSize := by rw [List.length_replicate]
  have last := splice_append_right [] [(1 : Byte)] zeros
  rw [List.length_replicate, List.append_nil, Nat.sub_self] at last
  rw [empty]
  exact last

def onesChunk : Chunk := ⟨List.replicate chunkSize 1, List.length_replicate⟩

theorem numChunks_chunks (n : Nat) : numChunks (n * chunkSize) = n := by
  unfold numChunks chunkSize
  split <;> omega

theorem unaligned_zero : unaligned 0 = 0 := rfl

/-- Every chunk that is filled with ones takes the place of a zero hash. -/
theorem replacements_zeros (n fileOffset : Nat) :
    replacements prefixSum zeroOnly 0 (List.replicate n zeroHash) (List.replicate (n * chunkSize) 1) fileOffset =
      List.replicate n (zeroHash, prefixSum onesChunk) := by
  induction n generalizing fileOffset with
  | zero => rfl
  | succ n ih =>
    have size : (n + 1) * chunkSize = chunkSize + n * chunkSize := by rw [Nat.succ_mul, Nat.add_comm]
    have ones : List.replicate ((n + 1) * chunkSize) (1 : Byte) = List.replicate chunkSize 1 ++ List.replicate (n * chunkSize) 1 := by
      rw [size, List.replicate_add]
    have length : (List.replicate chunkSize (1 : Byte)).length = chunkSize := List.length_replicate
    have some : (List.replicate ((n + 1) * chunkSize) (1 : Byte)) ≠ [] := by
      intro none
      have zero := congrArg List.length none
      rw [List.length_replicate, size, List.length_nil] at zero
      have positive : 0 < chunkSize := by decide
      omega
    have amount : min (List.replicate ((n + 1) * chunkSize) (1 : Byte)).length (chunkSize - 0) = chunkSize := by
      rw [List.length_replicate, size]
      omega
    have positive : 0 < fileOffset + chunkSize := Nat.add_pos_right fileOffset (by decide)
    have content : zeroOnly.content zeroHash = .zero := content_zeroHash rep_zeroOnly
    have filled : Chunk.zero.write 0 (List.replicate chunkSize 1) = Option.some onesChunk := by
      have fits : 0 + (List.replicate chunkSize (1 : Byte)).length ≤ chunkSize := by rw [length, Nat.zero_add]
      have data : Chunk.zero.data.take 0 ++ List.replicate chunkSize 1 ++ Chunk.zero.data.drop (0 + (List.replicate chunkSize (1 : Byte)).length) =
          List.replicate chunkSize 1 := by
        rw [List.take_zero, List.nil_append, List.drop_of_length_le (by rw [length, Chunk.zero.size_eq, Nat.zero_add]), List.append_nil]
      rw [Chunk.write, dif_pos fits]
      simp only [data, onesChunk]
    rw [List.replicate_succ, replacements, if_pos ⟨positive, some⟩]
    dsimp only
    rw [Nat.zero_sub, amount, ones, List.take_left' length, List.drop_left' length, ih, content, filled]
    dsimp only
    rw [if_neg]
    · rfl
    · decide +kernel

theorem written_zeros (n : Nat) : written prefixSum zeroOnly ⟨(n + 1) * chunkSize, List.replicate (n + 1) zeroHash⟩ (List.replicate (n * chunkSize) 1) 0 =
    List.replicate n (zeroHash, prefixSum onesChunk) := by
  have window : windowOf (grown zeroHash (List.replicate (n + 1) zeroHash) (numHashes ((n + 1) * chunkSize) (n * chunkSize) 0)) (n * chunkSize) 0 =
      List.replicate n zeroHash := by
    have size : max ((n + 1) * chunkSize) (0 + n * chunkSize) = (n + 1) * chunkSize := by
      rw [Nat.succ_mul]
      omega
    rw [windowOf, numHashesInWrite, numHashes, size, numChunks_chunks, numChunks_chunks, unaligned_zero, grown, List.length_replicate, Nat.add_zero,
      Nat.add_zero, Nat.sub_self, List.replicate_zero, List.append_nil, Nat.zero_div, List.drop_zero, List.take_replicate, Nat.min_eq_left (Nat.le_succ n)]
  rw [written, List.length_replicate, window]
  exact replacements_zeros n 0

/-- A sparse file that all chunks but one of are written after a mount: more than 1280 hashes are
replaced, the last chunk keeps the zero hash, and its count is below zero. -/
theorem sparse_aborts {n : Nat} (many : chunksInBucket * 5 < n) : ¬∃ after t, Throwing.writeInner prefixSum (fun _ => false) false
    ⟨⟨(n + 1) * chunkSize, List.replicate (n + 1) zeroHash⟩, 0, 0⟩ (List.replicate (n * chunkSize) 1) 0 zeroOnly = some ((after, n * chunkSize), t) := by
  rintro ⟨after, t, ran⟩
  have quiet : ¬∃ after t, Throwing.tryWrite prefixSum (fun _ => false) false ⟨⟨(n + 1) * chunkSize, List.replicate (n + 1) zeroHash⟩, 0, 0⟩
      (List.replicate (n * chunkSize) 1) 0 zeroOnly = some ((after, none), t) := by
    rintro ⟨after', t', thrown⟩
    obtain ⟨⟨_, _⟩, _, tried, rest⟩ := Run.bind_eq_some.mp ran
    cases thrown.symm.trans tried
    obtain ⟨same, _⟩ := Prod.mk.inj (Option.some.inj rest)
    have count : 0 = n * chunkSize := (Prod.mk.inj same).2
    unfold chunkSize at count
    omega
  rw [writeInner_unthrown quiet] at ran
  obtain ⟨result, plain, _⟩ := Option.map_eq_some_iff.mp ran
  have steady := steady_zeroOnly (n + 1)
  rw [← List.append_nil (List.replicate (n + 1) zeroHash)] at steady
  have returns := (@writeInner_iff prefixSum zeroOnly false _ (List.replicate (n * chunkSize) 1) 0 []
    ⟨⟨(n + 1) * chunkSize, List.replicate (n + 1) zeroHash⟩, 0, 0⟩ steady (fun id => room_zeroOnly _ id)).mp ⟨_, _, plain⟩
  have rests := returns.2.2
  dsimp only at rests
  rw [written_zeros, List.length_replicate, Nat.zero_add] at rests
  have other : (List.replicate n (prefixSum onesChunk)).count (zeroOnly.objects zeroHash).sum = 0 := by
    rw [List.count_eq_zero]
    intro member
    have same := List.eq_of_mem_replicate member
    revert same
    decide +kernel
  have zeros : zeroOnly.zerosAfter ⟨(n + 1) * chunkSize, List.replicate (n + 1) zeroHash⟩ (List.replicate (n * chunkSize) 1) 0
      (List.replicate n (zeroHash, prefixSum onesChunk)) = 1 := by
    have size : max ((n + 1) * chunkSize) (0 + n * chunkSize) = (n + 1) * chunkSize := by
      rw [Nat.succ_mul]
      omega
    rw [zerosAfter, numHashes, List.length_replicate, size, numChunks_chunks, unaligned_zero, List.map_replicate, List.map_replicate, other, grown,
      List.length_replicate, Nat.add_zero, Nat.sub_self, List.replicate_zero, List.append_nil, List.count_replicate_self, List.count_replicate_self]
    omega
  have enough := rests many
  rw [zeros, Rests, List.count_replicate_self] at enough
  have positive := enough Nat.one_ne_zero
  have one : (zeroOnly.objects zeroHash).refcnt = 1 := rfl
  rw [one] at positive
  unfold chunksInBucket at many
  omega

/-- So does the write of 1281 chunks. -/
theorem write_rests_aborts : ¬∃ after t, Throwing.writeInner prefixSum (fun _ => false) false
    ⟨⟨1282 * chunkSize, List.replicate 1282 zeroHash⟩, 0, 0⟩ (List.replicate (1281 * chunkSize) 1) 0 zeroOnly = some ((after, 1281 * chunkSize), t) :=
  sparse_aborts (by decide)

/-- The file of one zero chunk is cut to one byte. -/
theorem truncateInner_resizes_zeros : ∃ after t, truncateInner (hashOps prefixSum true) ⟨⟨chunkSize, [zeroHash]⟩, 0, 0⟩ 1 zeroOnly = some (after, t) ∧
    (t.contents after.data).Blank := by
  have zeros : bytes (zeroOnly.contents ⟨chunkSize, [zeroHash]⟩).hashList = List.replicate (1 * chunkSize) 0 :=
    (congrArg (fun file => bytes (FileData.hashList file)) (contents_zeros chunkSize 1)).trans (bytes_replicate 1)
  obtain ⟨cut, _, _, _, returns⟩ := @truncateInner_resizes prefixSum zeroOnly _ [] ⟨⟨chunkSize, [zeroHash]⟩, 0, 0⟩ 1 true (steady_zeroOnly 1) (by decide)
    (fun b member => List.eq_of_mem_replicate (zeros ▸ List.mem_of_mem_drop member)) (fun id => room_zeroOnly _ id)
  refine returns.mpr ⟨fun b member => ?_, by decide, fun _ => by decide⟩
  have inside := List.mem_of_mem_take (List.mem_of_mem_drop (List.mem_of_mem_take member))
  exact List.eq_of_mem_replicate (zeros ▸ inside)

/-- What is cut off inside of a chunk is read again when the file grows. -/
theorem cut_shows_again : ∃ f t, (do
    let f ← writeInner (hashOps prefixSum false) ⟨⟨0, []⟩, 0, 0⟩ [1, 1] 0
    let f ← truncateInner (hashOps prefixSum false) f 1
    let f ← truncateInner (hashOps prefixSum false) f 2
    Filesystem.read (hashOps prefixSum false) f 2 0 : StorageM (Str × OpenFile Nat)) zeroOnly = some (([1, 1], f), t) := ⟨_, _, rfl⟩

end Runs
end Storage
end CloudCryptFS.Filesystem
