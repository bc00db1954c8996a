import CloudCryptFS.Filesystem.References

/-! That the operations on hashes come to an end. Two things can stop them: a post that finds no
room in the accounting, and a journal entry for a bucket whose log is full and whose count of
changes has wrapped around, which is tried for ever. Both can be told from the state before. -/

namespace CloudCryptFS.Filesystem
open Util Script.Lexer BucketIndex

namespace DataBucket
variable {b b' b'' : DataBucket} {c d n : Nat}

/-- A bucket with chunks has its hashes. -/
def Tidy (b : DataBucket) : Prop := b.chunks.isSome → b.hashes.isSome

/-- After so many more changes the log still takes an entry, at the latest when the bucket has
been stored. -/
def Room (n : Nat) (b : DataBucket) : Prop :=
  b.changes < Storage.maxChanges ∨ b.hashes.isSome ∧ 0 ≤ b.hashChangesSinceLoad ∧ b.hashChangesSinceLoad + n < 2 ^ 31 - 1

theorem Room.mono {m : Nat} (fewer : m ≤ n) (room : b.Room n) : b.Room m := by
  cases room with
  | inl free => exact Or.inl free
  | inr wide =>
    obtain ⟨loaded, positive, small⟩ := wide
    exact Or.inr ⟨loaded, positive, by omega⟩

/-- What a bucket becomes with `c` changes at most. -/
structure Follows (c : Nat) (b b' : DataBucket) : Prop where
  tidy : b.Tidy → b'.Tidy
  room : ∀ n, b.Room (n + c) → b'.Room n

namespace Follows

theorem refl (b : DataBucket) : Follows 0 b b := ⟨id, fun _ => id⟩

theorem trans (first : Follows c b b') (second : Follows d b' b'') : Follows (c + d) b b'' := by
  refine ⟨second.tidy ∘ first.tidy, fun n room => second.room n (first.room (n + d) ?_)⟩
  rwa [Nat.add_assoc, Nat.add_comm d c]

theorem mono (few : c ≤ d) (follows : Follows c b b') : Follows d b b' :=
  ⟨follows.tidy, fun n room => follows.room n (room.mono (Nat.add_le_add_left few n))⟩

/-- The log stays as it is, and so many changes are counted at most. -/
theorem of_count (tidy : b.Tidy → b'.Tidy) (changes : b'.changes = b.changes)
    (count : b.hashes.isSome → 0 ≤ b.hashChangesSinceLoad → b.hashChangesSinceLoad + c < 2 ^ 31 - 1 →
      b'.hashes.isSome ∧ 0 ≤ b'.hashChangesSinceLoad ∧ b'.hashChangesSinceLoad ≤ b.hashChangesSinceLoad + c) : Follows c b b' := by
  refine ⟨tidy, fun n room => ?_⟩
  cases room with
  | inl free =>
    left
    rwa [changes]
  | inr wide =>
    obtain ⟨loaded, positive, small⟩ := wide
    obtain ⟨loaded', positive', more⟩ := count loaded positive (by omega)
    exact Or.inr ⟨loaded', positive', by omega⟩

theorem of_same (chunks : b'.chunks = b.chunks) (hashes : b'.hashes = b.hashes) (changes : b'.changes = b.changes)
    (count : b'.hashChangesSinceLoad = b.hashChangesSinceLoad) : Follows 0 b b' := by
  apply of_count
  · intro tidy
    rwa [Tidy, chunks, hashes]
  · exact changes
  · intro loaded positive _
    rw [hashes, count]
    exact ⟨loaded, positive, by omega⟩

/-- One change is counted in a bucket. -/
theorem of_increment (tidy : b.Tidy → b'.Tidy) (changes : b'.changes = b.changes) (loaded : b.hashes.isSome → b'.hashes.isSome)
    (count : b'.hashChangesSinceLoad = Bucket.increment b.hashChangesSinceLoad) : Follows 1 b b' := by
  apply of_count tidy changes
  intro before positive small
  have more := Bucket.increment_eq positive (by omega)
  rw [count, more]
  exact ⟨loaded before, by omega, by omega⟩

/-- An empty log. -/
theorem of_empty (tidy : b'.Tidy) (empty : b'.changes = 0) : Follows 0 b b' := by
  refine ⟨fun _ => tidy, fun n _ => Or.inl ?_⟩
  rw [empty]
  decide

end Follows

end DataBucket

namespace Storage
variable {sha : Chunk → Sha256} {s t u : Storage} {o id : Nat} {je : Bool} {held : List Nat} {c d : Nat}

section Buckets

/-- A bucket as `getBucket` hands it out. -/
def bucketAt (s : Storage) (id : Nat) : DataBucket := (s.loaded id).getD {}

theorem bucketAt_setBucket_self (id : Nat) (b : DataBucket) (s : Storage) : (s.setBucket id b).bucketAt id = b := by
  rw [bucketAt, loaded_setBucket_self, Option.getD_some]

theorem bucketAt_setBucket_of_ne {j : Nat} (different : j ≠ id) (b : DataBucket) (s : Storage) : (s.setBucket id b).bucketAt j = s.bucketAt j := by
  rw [bucketAt, loaded_setBucket_of_ne different, bucketAt]

theorem bucketAt_of_loaded (loaded : t.loaded = s.loaded) (id : Nat) : t.bucketAt id = s.bucketAt id := by
  rw [bucketAt, loaded, bucketAt]

theorem getBucket_eq (id : Nat) (s : Storage) : getBucket id s = some (s.bucketAt id, s.setBucket id (s.bucketAt id)) := by
  unfold getBucket bucketAt
  cases here : s.loaded id with
  | none => rfl
  | some b =>
    have same : s.setBucket id b = s := by
      unfold setBucket
      rw [← here, Function.update_eq_self]
    dsimp only [Option.getD_some]
    rw [same]

/-- Every bucket counts so many changes at most. -/
def Calm (c : Nat) (s t : Storage) : Prop := ∀ id, DataBucket.Follows c (s.bucketAt id) (t.bucketAt id)

namespace Calm

theorem refl (s : Storage) : Calm 0 s s := fun id => .refl (s.bucketAt id)

theorem trans (first : Calm c s t) (second : Calm d t u) : Calm (c + d) s u := fun id => (first id).trans (second id)

theorem mono (few : c ≤ d) (calm : Calm c s t) : Calm d s t := fun id => (calm id).mono few

theorem after (first : Calm 0 s t) (second : Calm c t u) : Calm c s u := (first.trans second).mono (Nat.zero_add c).le

theorem of_loaded (loaded : t.loaded = s.loaded) : Calm 0 s t := by
  intro id
  rw [bucketAt_of_loaded loaded]
  exact .refl _

theorem of_setBucket {b : DataBucket} (follows : DataBucket.Follows c (s.bucketAt id) b) : Calm c s (s.setBucket id b) := by
  intro j
  by_cases same : j = id
  · subst same
    rwa [bucketAt_setBucket_self]
  · rw [bucketAt_setBucket_of_ne same]
    exact (DataBucket.Follows.refl _).mono (Nat.zero_le c)

theorem getBucket (id : Nat) (s : Storage) : Calm 0 s (s.setBucket id (s.bucketAt id)) := of_setBucket (.refl _)

end Calm

theorem loadHashes_total (id : Nat) (s : Storage) : ∃ H t, loadHashes id s = some (H, t) ∧ Calm 0 s t ∧ (t.bucketAt id).hashes = some H := by
  have own := bucketAt_setBucket_self id (s.bucketAt id) s
  have calm := Calm.getBucket id s
  unfold loadHashes
  rw [Run.bind_of_some (getBucket_eq id s)]
  generalize s.setBucket id (s.bucketAt id) = s₁ at own calm
  cases hashes : (s.bucketAt id).hashes with
  | some H => exact ⟨H, s₁, rfl, calm, by rw [own, hashes]⟩
  | none =>
    refine ⟨_, _, rfl, calm.after (Calm.of_setBucket (DataBucket.Follows.of_count (fun _ _ => rfl) ?_ ?_)), ?_⟩
    · rw [own]
    · intro loaded
      rw [own, hashes] at loaded
      cases loaded
    · rw [bucketAt_setBucket_self]

/-- Chunks are loaded into a bucket that has its hashes. -/
theorem loadChunks_calm {C : SlotIndex → Chunk} (loaded : (s.bucketAt id).hashes.isSome) (ran : loadChunks id s = some (C, t)) :
    Calm 0 s t ∧ (t.bucketAt id).hashes = (s.bucketAt id).hashes := by
  have own := bucketAt_setBucket_self id (s.bucketAt id) s
  have calm := Calm.getBucket id s
  unfold loadChunks at ran
  rw [Run.bind_of_some (getBucket_eq id s)] at ran
  generalize s.setBucket id (s.bucketAt id) = s₁ at own calm ran
  cases chunks : (s.bucketAt id).chunks with
  | some C' =>
    rw [chunks] at ran
    cases ran
    exact ⟨calm, by rw [own]⟩
  | none =>
    rw [chunks] at ran
    cases ran
    refine ⟨calm.after (Calm.of_setBucket (DataBucket.Follows.of_count (fun _ _ => loaded) ?_ ?_)), ?_⟩
    · rw [own]
    · intro _ positive _
      rw [own] at positive ⊢
      exact ⟨loaded, positive, by dsimp only; omega⟩
    · rw [bucketAt_setBucket_self]

theorem putHashAndChunk_total (i : BucketIndex) (h : HashSlot) (chunk : Chunk) (s : Storage) :
    ∃ t, putHashAndChunk i h chunk s = some ((), t) ∧ Calm 1 s t := by
  obtain ⟨H, s₁, hashes, calm₁, here⟩ := loadHashes_total (bucket i) s
  obtain ⟨C, s₂, chunks⟩ := loadChunks_total (bucket i) s₁
  obtain ⟨calm₂, _⟩ := loadChunks_calm (by rw [here]; rfl) chunks
  have own := bucketAt_setBucket_self (bucket i) (s₂.bucketAt (bucket i)) s₂
  have calm₃ := Calm.getBucket (bucket i) s₂
  unfold putHashAndChunk
  rw [Run.bind_of_some hashes, Run.bind_of_some chunks, Run.bind_of_some (getBucket_eq (bucket i) s₂)]
  generalize s₂.setBucket (bucket i) (s₂.bucketAt (bucket i)) = s₃ at own calm₃ ⊢
  refine ⟨_, rfl, ((calm₁.after calm₂).after calm₃).after (Calm.of_setBucket (DataBucket.Follows.of_increment (fun _ _ => rfl) ?_ (fun _ => rfl) ?_))⟩
  · rw [own]
  · rw [own]

theorem hashChanged_total (id : Nat) (s : Storage) : ∃ t, hashChanged id s = some ((), t) ∧ Calm 1 s t := by
  have own := bucketAt_setBucket_self id (s.bucketAt id) s
  have calm := Calm.getBucket id s
  unfold hashChanged
  rw [Run.bind_of_some (getBucket_eq id s)]
  generalize s.setBucket id (s.bucketAt id) = s₁ at own calm ⊢
  refine ⟨_, rfl, calm.after (Calm.of_setBucket ?_)⟩
  rw [own]
  exact DataBucket.Follows.of_increment (fun tidy => tidy) rfl (fun loaded => loaded) rfl

theorem writeFiles_total (id : Nat) (C : Option (SlotIndex → Chunk)) (H : SlotIndex → HashSlot) (s : Storage) :
    ∃ t, writeFiles id C H s = some ((), t) ∧ t.loaded = s.loaded := by
  unfold writeFiles
  rw [Run.bind_of_some (Run.get_apply s)]
  dsimp only
  split
  · exact ⟨_, rfl, rfl⟩
  · exact ⟨_, rfl, rfl⟩

/-- A bucket with its hashes can be stored, and its log is empty after that. -/
theorem store_total (loaded : (s.bucketAt id).hashes.isSome) : ∃ t, store id false s = some ((), t) ∧ Calm 0 s t ∧
    (∀ j, j ≠ id → t.bucketAt j = s.bucketAt j) ∧ ((s.bucketAt id).hashChangesSinceLoad > 0 → (t.bucketAt id).changes = 0) := by
  obtain ⟨H, hashes⟩ := Option.isSome_iff_exists.mp loaded
  have own := bucketAt_setBucket_self id (s.bucketAt id) s
  have calm := Calm.getBucket id s
  have others : ∀ j, j ≠ id → (s.setBucket id (s.bucketAt id)).bucketAt j = s.bucketAt j := fun j different => bucketAt_setBucket_of_ne different _ s
  unfold store
  rw [Run.bind_of_some (getBucket_eq id s)]
  generalize s.setBucket id (s.bucketAt id) = s₁ at own calm others ⊢
  split
  · obtain ⟨b, shape⟩ : ∃ b : DataBucket, b = { s.bucketAt id with
      chunks := if false = true then none else (s.bucketAt id).chunks
      hashChangesSinceLoad := 0
      chunkChangesSinceLoad := 0
      changes := 0 } := ⟨_, rfl⟩
    obtain ⟨t, wrote, same⟩ := writeFiles_total id (s.bucketAt id).chunks H (s₁.setBucket id b)
    refine ⟨t, ?_, calm.after (Calm.after ?_ (Calm.of_loaded same)), fun j different => ?_, fun _ => ?_⟩
    · rw [← shape, Run.bind_of_some (Run.modify_apply _ _), hashes]
      exact wrote
    · exact Calm.of_setBucket (DataBucket.Follows.of_empty (fun _ => shape ▸ loaded) (shape ▸ rfl))
    · rw [bucketAt_of_loaded same, bucketAt_setBucket_of_ne different, others j different]
    · rw [bucketAt_of_loaded same, bucketAt_setBucket_self, shape]
  · rename_i clean
    exact ⟨s₁, rfl, calm, others, fun dirty => absurd (Or.inl dirty) clean⟩

theorem removeBucket_total (tidy : (s.bucketAt id).Tidy) : ∃ t, removeBucket id s = some ((), t) ∧ Calm 0 s t := by
  unfold removeBucket
  cases here : s.loaded id with
  | none => exact ⟨s, rfl, Calm.refl s⟩
  | some b =>
    have same : s.bucketAt id = b := by rw [bucketAt, here, Option.getD_some]
    obtain ⟨mid, stored, calm⟩ : ∃ mid, (if b.chunks.isSome ∨ b.hashes.isSome then store id false else pure ()) s = some ((), mid) ∧ Calm 0 s mid := by
      split
      · rename_i filled
        rw [← same] at filled
        obtain ⟨mid, stored, calm, _⟩ := store_total (filled.elim tidy (fun loaded => loaded))
        exact ⟨mid, stored, calm⟩
      · exact ⟨s, rfl, Calm.refl s⟩
    dsimp only
    rw [stored]
    refine ⟨_, rfl, calm.after (fun j => ?_)⟩
    unfold bucketAt
    dsimp only
    by_cases there : j = id
    · rw [there, Function.update_self]
      exact DataBucket.Follows.of_empty (fun chunks => chunks) rfl
    · rw [Function.update_of_ne there]
      exact DataBucket.Follows.refl _

theorem removeBuckets_total (tidy : ∀ id, (s.bucketAt id).Tidy) (ids : List Nat) : ∃ t, ids.forM removeBucket s = some (⟨⟩, t) ∧ Calm 0 s t := by
  induction ids generalizing s with
  | nil => exact ⟨s, rfl, Calm.refl s⟩
  | cons id ids ih =>
    obtain ⟨mid, first, calm⟩ := removeBucket_total (tidy id)
    obtain ⟨t, rest, calm'⟩ := ih (fun id => (calm id).tidy (tidy id))
    refine ⟨t, ?_, calm.after calm'⟩
    rw [List.forM_eq_forM, List.forM_cons, Run.bind_of_some first]
    exact rest

/-- A post goes through where the accounting has room for it. -/
theorem post_total {i : BucketIndex} (tidy : ∀ id, (s.bucketAt id).Tidy) (room : (s.accounting.post i).isSome) :
    ∃ t, post i s = some ((), t) ∧ Calm 0 s t := by
  obtain ⟨a, posted⟩ := Option.isSome_iff_exists.mp room
  obtain ⟨u, removed, calm⟩ := removeBuckets_total tidy ((s.accounting.bucketsInUse \ a.bucketsInUse).sort (· ≤ ·))
  refine ⟨{ u with accounting := a }, ?_, calm.after (Calm.of_loaded rfl)⟩
  unfold post
  rw [posted]
  dsimp only
  exact Option.bind_eq_some_iff.mpr ⟨((), u), removed, rfl⟩

/-- What a journal entry changes: the log of one bucket. -/
structure Logs (id : Nat) (s t : Storage) : Prop where
  tidy : ∀ j, (s.bucketAt j).Tidy → (t.bucketAt j).Tidy
  others : ∀ j, j ≠ id → t.bucketAt j = s.bucketAt j

namespace Logs

theorem trans (first : Logs id s t) (second : Logs id t u) : Logs id s u :=
  ⟨fun j => second.tidy j ∘ first.tidy j, fun j different => (second.others j different).trans (first.others j different)⟩

theorem of_setBucket {b : DataBucket} (tidy : (s.bucketAt id).Tidy → b.Tidy) : Logs id s (s.setBucket id b) := by
  refine ⟨fun j before => ?_, fun j different => bucketAt_setBucket_of_ne different b s⟩
  by_cases same : j = id
  · subst same
    rw [bucketAt_setBucket_self]
    exact tidy before
  · rwa [bucketAt_setBucket_of_ne same]

end Logs

/-- The log takes an entry, once its bucket has been stored if it is full. -/
theorem addChangeTo_total (room : (s.bucketAt id).Room 0) : ∃ t, addChangeTo id s = some ((), t) ∧ Logs id s t := by
  have own := bucketAt_setBucket_self id (s.bucketAt id) s
  have first : Logs id s (s.setBucket id (s.bucketAt id)) := Logs.of_setBucket (fun tidy => tidy)
  unfold addChangeTo
  rw [Run.bind_of_some (getBucket_eq id s)]
  generalize s.setBucket id (s.bucketAt id) = s₁ at own first ⊢
  split
  · refine ⟨_, rfl, first.trans (Logs.of_setBucket ?_)⟩
    rw [own]
    exact fun tidy => tidy
  · rename_i full
    obtain ⟨loaded, positive, small⟩ := room.resolve_left full
    have more := Bucket.increment_eq positive (by omega)
    obtain ⟨b, shape⟩ : ∃ b : DataBucket, b = { s.bucketAt id with
      hashChangesSinceLoad := Bucket.increment (s.bucketAt id).hashChangesSinceLoad
      chunkChangesSinceLoad := Bucket.increment (s.bucketAt id).chunkChangesSinceLoad } := ⟨_, rfl⟩
    have dirty : b.hashChangesSinceLoad > 0 := by
      rw [shape]
      dsimp only
      omega
    have second : Logs id s₁ (s₁.setBucket id b) := by
      apply Logs.of_setBucket
      rw [own, shape]
      exact fun tidy => tidy
    have now := bucketAt_setBucket_self id b s₁
    have ready : ((s₁.setBucket id b).bucketAt id).hashes.isSome := by
      rw [now, shape]
      exact loaded
    obtain ⟨t, stored, calm, others, emptied⟩ := store_total ready
    rw [now] at emptied
    have empty := emptied dirty
    have third : Logs id (s₁.setBucket id b) t := ⟨fun j => (calm j).tidy, others⟩
    have fourth : Logs id t (t.setBucket id (t.bucketAt id)) := Logs.of_setBucket (fun tidy => tidy)
    have last := bucketAt_setBucket_self id (t.bucketAt id) t
    rw [← shape, Run.bind_of_some (Run.modify_apply _ _), Run.bind_of_some stored, Run.bind_of_some (getBucket_eq id t)]
    generalize t.setBucket id (t.bucketAt id) = t₁ at fourth last ⊢
    rw [if_pos (by rw [empty]; decide)]
    refine ⟨_, rfl, (((first.trans second).trans third).trans fourth).trans (Logs.of_setBucket ?_)⟩
    rw [last]
    exact fun tidy => tidy

theorem addChangesTo_total {ids : List Nat} (distinct : ids.Nodup) (room : ∀ id ∈ ids, (s.bucketAt id).Room 0) :
    ∃ t, ids.forM addChangeTo s = some (⟨⟩, t) ∧ ∀ j, (s.bucketAt j).Tidy → (t.bucketAt j).Tidy := by
  induction ids generalizing s with
  | nil => exact ⟨s, rfl, fun _ tidy => tidy⟩
  | cons id ids ih =>
    obtain ⟨notAgain, distinct⟩ := List.nodup_cons.mp distinct
    obtain ⟨mid, first, logs⟩ := addChangeTo_total (room id List.mem_cons_self)
    have later : ∀ j ∈ ids, (mid.bucketAt j).Room 0 := by
      intro j member
      have different : j ≠ id := fun same => notAgain (same ▸ member)
      rw [logs.others j different]
      exact room j (List.mem_cons_of_mem id member)
    obtain ⟨t, rest, tidy⟩ := ih distinct later
    refine ⟨t, ?_, fun j before => tidy j (logs.tidy j before)⟩
    rw [List.forM_eq_forM, List.forM_cons, Run.bind_of_some first]
    exact rest

/-- A journal entry is handed to all buckets that it is for. -/
theorem addChange_total (je : Bool) (hashes : List Nat) (room : ∀ id, (s.bucketAt id).Room 0) :
    ∃ t, addChange je hashes s = some ((), t) ∧ ∀ j, (s.bucketAt j).Tidy → (t.bucketAt j).Tidy := by
  unfold addChange
  split
  · exact addChangesTo_total (Finset.sort_nodup _ _) (fun id _ => room id)
  · exact ⟨s, rfl, fun _ tidy => tidy⟩

end Buckets

section Sums

/-- How many of these sums the index does not have. -/
def unknown (s : Storage) (sums : List Sha256) : Nat := (sums.toFinset.filter (fun sum => s.hashesIndex sum = none)).card

/-- Hash objects are made for sums that the index does not have; those that there were keep their
places. -/
structure Adds (s t : Storage) (sums : List Sha256) : Prop where
  accounting : s.accounting.fetchAll (s.unknown sums) = some t.accounting
  index : ∀ sum, t.hashesIndex sum = none ↔ s.hashesIndex sum = none ∧ sum ∉ sums
  created : s.created ≤ t.created
  kept : ∀ o, o < s.created → (t.objects o).sum = (s.objects o).sum ∧ (t.objects o).bucketIndex = (s.objects o).bucketIndex

namespace Adds

theorem of_still (still : Still s t) : Adds s t [] := by
  refine ⟨?_, fun sum => ?_, still.created.ge, fun o _ => ⟨still.sum o, still.bucketIndex o⟩⟩
  · rw [still.accounting]
    rfl
  · rw [still.hashesIndex]
    simp only [List.not_mem_nil, not_false_eq_true, and_true]

theorem of_recount {n : Int} (still : Still (s.recount o n) t) : Adds s t [] := by
  have same : ∀ o', ((s.recount o n).objects o').sum = (s.objects o').sum ∧ ((s.recount o n).objects o').bucketIndex = (s.objects o').bucketIndex := by
    intro o'
    unfold recount
    by_cases here : o' = o
    · rw [here, objects_setObject_self]
      exact ⟨rfl, rfl⟩
    · rw [objects_setObject_of_ne here]
      exact ⟨rfl, rfl⟩
  obtain ⟨accounting, index, created, kept⟩ := of_still still
  refine ⟨accounting, index, created, fun o' made => ?_⟩
  rw [← (same o').1, ← (same o').2]
  exact kept o' made

theorem trans {sums sums' : List Sha256} (first : Adds s t sums) (second : Adds t u sums') : Adds s u (sums ++ sums') := by
  have count : s.unknown (sums ++ sums') = s.unknown sums + t.unknown sums' := by
    have parts : (sums ++ sums').toFinset.filter (fun sum => s.hashesIndex sum = none) =
        sums.toFinset.filter (fun sum => s.hashesIndex sum = none) ∪ sums'.toFinset.filter (fun sum => t.hashesIndex sum = none) := by
      ext sum
      simp only [Finset.mem_filter, Finset.mem_union, List.mem_toFinset, List.mem_append, first.index]
      tauto
    have apart : Disjoint (sums.toFinset.filter (fun sum => s.hashesIndex sum = none)) (sums'.toFinset.filter (fun sum => t.hashesIndex sum = none)) := by
      rw [Finset.disjoint_left]
      intro sum here there
      simp only [Finset.mem_filter, List.mem_toFinset, first.index] at here there
      exact there.2.2 here.1
    rw [unknown, parts, Finset.card_union_of_disjoint apart, unknown, unknown]
  refine ⟨?_, fun sum => ?_, first.created.trans second.created, fun o made => ?_⟩
  · rw [count, Accounting.fetchAll_add, first.accounting, Option.bind_some, second.accounting]
  · rw [second.index, first.index, List.mem_append]
    tauto
  · obtain ⟨sum, index⟩ := first.kept o made
    obtain ⟨sum', index'⟩ := second.kept o (made.trans_le first.created)
    exact ⟨sum'.trans sum, index'.trans index⟩

end Adds

end Sums

section Hashes

theorem Rep.loose (rep : s.Rep sha) (other : o ≠ zeroHash) : (s.objects o).fixed = false := by
  by_contra fixed
  exact other (rep.fixed o (Bool.eq_true_of_not_eq_false fixed))

/-- The bucket of a live hash object has its hashes. -/
theorem Rep.hashes_isSome (rep : s.Rep sha) (live : s.Live o) : (s.bucketAt (bucket (s.objects o).bucketIndex)).hashes.isSome := by
  obtain ⟨b, H, here, hashes, _⟩ := rep.holds o live
  rw [bucketAt, here, Option.getD_some, hashes]
  rfl

/-- A storage in which the zero hash has so many references more than these, the others just
these, and from which another index can be fetched. -/
structure Steady (sha : Chunk → Sha256) (base : Int) (held : List Nat) (s : Storage) : Prop where
  counted : s.Counted sha held
  zero : (s.objects zeroHash).refcnt = held.count zeroHash + base
  tidy : ∀ id, (s.bucketAt id).Tidy
  records : s.accounting.availableList ≠ [] ∨ s.accounting.freeList ≠ []

namespace Steady
variable {base : Int} {l : List Nat}

theorem congr (steady : s.Steady sha base held) (same : ∀ o, l.count o = held.count o) : s.Steady sha base l := by
  refine ⟨steady.counted.congr same, ?_, steady.tidy, steady.records⟩
  rw [same]
  exact steady.zero

theorem of_still (steady : s.Steady sha base held) (still : Still s t) (advance : Advance sha s t) (tidy : ∀ id, (t.bucketAt id).Tidy) :
    t.Steady sha base held := by
  refine ⟨steady.counted.of_still still advance, ?_, tidy, ?_⟩
  · rw [still.refcnt]
    exact steady.zero
  · rw [still.accounting]
    exact steady.records

theorem refcnt (steady : s.Steady sha base held) (live : s.Live o) : (s.objects o).refcnt = held.count o + if o = zeroHash then base else 0 := by
  split
  · rename_i same
    rw [same]
    exact steady.zero
  · rename_i other
    rw [steady.counted.refcnt o live (steady.counted.rep.loose other), Int.add_zero]

end Steady

variable {base : Int}

theorem data_calm {chunk : Chunk} (loaded : (s.bucketAt (bucket (s.objects o).bucketIndex)).hashes.isSome) (ran : data o s = some (chunk, t)) :
    Calm 0 s t := by
  obtain ⟨_, _, got, rest⟩ := Run.bind_eq_some.mp ran
  cases got
  cases there : (s.objects o).data with
  | some _ =>
    simp only [there] at rest
    cases rest
    exact Calm.refl s
  | none =>
    simp only [there] at rest
    split at rest
    · cases rest
    · obtain ⟨_, mid, got, rest⟩ := Run.bind_eq_some.mp rest
      obtain ⟨_, _, changed, rest⟩ := Run.bind_eq_some.mp rest
      cases changed
      cases rest
      obtain ⟨C, _, chunks, rest⟩ := Run.bind_eq_some.mp got
      cases rest
      exact (loadChunks_calm loaded chunks).1.after (Calm.of_loaded rfl)

/-- The chunk of a hash object that is referred to is at hand. -/
theorem data_runs (steady : s.Steady sha base held) (live : s.Live o) :
    ∃ t, data o s = some (s.content o, t) ∧ t.Steady sha base held ∧ Calm 0 s t ∧ Still s t := by
  obtain ⟨t, ran⟩ := data_total steady.counted.rep live
  have calm := data_calm (steady.counted.rep.hashes_isSome live) ran
  have still := data_still o _ _ _ ran
  exact ⟨t, ran, steady.of_still still (data_spec ran).1 (fun id => (calm id).tidy (steady.tidy id)), calm, still⟩

theorem incRefCnt_runs (steady : s.Steady sha base held) (live : s.Live o) (n : Nat) :
    ∃ t, incRefCnt o n s = some ((), t) ∧ t.Steady sha base (List.replicate n o ++ held) ∧ Calm 1 s t ∧ Still (s.recount o n) t := by
  obtain ⟨t, ran, calm⟩ : ∃ t, incRefCnt o n s = some ((), t) ∧ Calm 1 s t := by
    have first : Calm 0 s (s.recount o n) := Calm.of_loaded rfl
    have alive : ((s.recount o n).objects o).deleted = false := by
      rw [deleted_recount]
      exact live
    unfold incRefCnt
    rw [Run.bind_of_some (Run.modify_apply _ _), Run.bind_of_some (Run.get_apply _)]
    generalize s.recount o n = s₁ at first alive ⊢
    split
    · rw [Run.bind_of_some (Run.assert_eq_some.mpr ⟨alive, rfl⟩)]
      obtain ⟨t, ran, calm⟩ := hashChanged_total (bucket (s₁.objects o).bucketIndex) s₁
      exact ⟨t, ran, first.after calm⟩
    · exact ⟨s₁, rfl, first.mono (Nat.zero_le 1)⟩
  have still := incRefCnt_still ran
  refine ⟨t, ran, ⟨incRefCnt_counted steady.counted live ran, ?_, fun id => (calm id).tidy (steady.tidy id), ?_⟩, calm, still⟩
  · have zero := incRefCnt_zero ran
    rw [zero, steady.zero, List.count_append]
    omega
  · rw [still.accounting]
    exact steady.records

theorem addHash_total (sum : Sha256) (chunk : Chunk) (i : BucketIndex) (s : Storage) : ∃ n t, addHash sum chunk i s = some (n, t) ∧ Calm 1 s t := by
  unfold addHash
  rw [Run.bind_of_some (Run.get_apply s)]
  have first : Calm 0 s { s.setObject s.created ⟨sum, i, 0, some chunk, false, false⟩ with created := s.created + 1 } := Calm.of_loaded rfl
  rw [Run.bind_of_some (Run.modify_apply _ _)]
  generalize ({ s.setObject s.created ⟨sum, i, 0, some chunk, false, false⟩ with created := s.created + 1 } : Storage) = s₁ at first ⊢
  obtain ⟨mid, put, calm⟩ := putHashAndChunk_total i (.object s.created) chunk s₁
  rw [Run.bind_of_some put, Run.bind_of_some (Run.modify_apply _ _)]
  exact ⟨_, _, rfl, (first.after calm).trans (Calm.of_loaded rfl)⟩

/-- A hash for a chunk is found or made. -/
theorem newHash_runs (steady : s.Steady sha base held) (chunk : Chunk) :
    ∃ n t, newHash (sha chunk) chunk s = some (n, t) ∧ t.Steady sha base held ∧ Calm 1 s t ∧ t.Live n ∧ (t.objects n).sum = sha chunk ∧
      Adds s t [sha chunk] := by
  obtain ⟨n, t, ran, calm⟩ : ∃ n t, newHash (sha chunk) chunk s = some (n, t) ∧ Calm 1 s t := by
    unfold newHash
    rw [Run.bind_of_some (Run.get_apply s)]
    cases there : s.hashesIndex (sha chunk) with
    | some n =>
      obtain ⟨t, ran, _, calm, _⟩ := data_runs steady (steady.counted.rep.known _ n there).1
      dsimp only
      rw [Run.bind_of_some ran]
      exact ⟨n, t, rfl, calm.mono (Nat.zero_le 1)⟩
    | none =>
      obtain ⟨i, a, fetched⟩ := Accounting.fetch_of_records steady.records
      obtain ⟨mid, took, loaded⟩ : ∃ mid, fetch s = some (i, mid) ∧ mid.loaded = s.loaded := by
        refine ⟨{ s with accounting := a }, ?_, rfl⟩
        unfold fetch
        rw [fetched]
        rfl
      dsimp only
      rw [Run.bind_of_some took]
      obtain ⟨n, t, ran, calm⟩ := addHash_total (sha chunk) chunk i mid
      exact ⟨n, t, ran, (Calm.of_loaded loaded).after calm⟩
  have counted := newHash_counted steady.counted ran
  have live := ((newHash_spec ran).2 steady.counted.rep).1
  have tidy : ∀ id, (t.bucketAt id).Tidy := fun id => (calm id).tidy (steady.tidy id)
  cases newHash_still ran with
  | inl found =>
    obtain ⟨there, still⟩ := found
    have sum : (t.objects n).sum = sha chunk := (still.sum n).trans (steady.counted.rep.known _ n there).2
    have none : s.unknown [sha chunk] = 0 := by
      unfold unknown
      rw [Finset.card_eq_zero, Finset.filter_eq_empty_iff]
      intro sum member missing
      rw [List.mem_toFinset, List.mem_singleton] at member
      rw [member, there] at missing
      cases missing
    refine ⟨n, t, ran, steady.of_still still (newHash_spec ran).1 tidy, calm, live, sum, ?_⟩
    refine ⟨?_, fun sum => ?_, still.created.ge, fun o _ => ⟨still.sum o, still.bucketIndex o⟩⟩
    · rw [none, still.accounting]
      rfl
    · rw [still.hashesIndex, List.mem_singleton]
      constructor
      · intro missing
        refine ⟨missing, ?_⟩
        rintro rfl
        rw [there] at missing
        cases missing
      · exact And.left
  | inr made =>
    obtain ⟨missing, rfl, i, a, fetched, still⟩ := made
    have own : (t.objects s.created).sum = sha chunk := by
      rw [still.sum]
      unfold Storage.made
      dsimp only
      rw [objects_setObject_self]
    have other : ∀ o, o < s.created → t.bare o = s.bare o := by
      intro o older
      rw [still.bare]
      exact bare_setObject_of_ne older.ne _ s
    have one : s.unknown [sha chunk] = 1 := by
      unfold unknown
      rw [Finset.card_eq_one]
      refine ⟨sha chunk, ?_⟩
      ext sum
      simp only [Finset.mem_filter, List.mem_toFinset, List.mem_singleton, Finset.mem_singleton]
      constructor
      · exact And.left
      · rintro rfl
        exact ⟨rfl, missing⟩
    have accounting : t.accounting = a := still.accounting
    refine ⟨s.created, t, ran, ⟨counted, ?_, tidy, ?_⟩, calm, live, own, ?_⟩
    · have old := steady.counted.rep.made zeroHash steady.counted.rep.zero.1
      have same := congrArg Hash.refcnt (other zeroHash old)
      exact (same : (t.objects zeroHash).refcnt = _).trans steady.zero
    · rw [accounting]
      exact Or.inr (Accounting.freeList_of_fetch fetched)
    · refine ⟨?_, fun sum => ?_, ?_, fun o older => ?_⟩
      · rw [one, accounting, Accounting.fetchAll, fetched, Option.bind_some, Accounting.fetchAll]
      · rw [still.hashesIndex, List.mem_singleton]
        unfold Storage.made
        dsimp only
        by_cases same : sum = sha chunk
        · subst same
          rw [Function.update_self]
          constructor
          · intro impossible
            cases impossible
          · exact fun both => absurd rfl both.2
        · rw [Function.update_of_ne same]
          exact ⟨fun none => ⟨none, same⟩, And.left⟩
      · rw [still.created]
        exact Nat.le_succ s.created
      · have same := other o older
        exact ⟨(congrArg Hash.sum same :), (congrArg Hash.bucketIndex same :)⟩

/-- A chunk that is written to gives a hash with another sum, or none. -/
theorem writeHash_runs (steady : s.Steady sha base held) (live : s.Live o) {offset : Nat} {input : Str} (fits : offset + input.length ≤ chunkSize) :
    ∃ d r t, (s.content o).write offset input = some d ∧ writeHash sha o offset input s = some (r, t) ∧ t.Steady sha base held ∧ Calm 1 s t ∧
      if sha d = (s.objects o).sum then r = none ∧ Adds s t []
      else ∃ n, r = some n ∧ t.Live n ∧ (t.objects n).sum = sha d ∧ Adds s t [sha d] := by
  obtain ⟨mid, ran, steady₁, calm₁, still⟩ := data_runs steady live
  obtain ⟨d, written⟩ : ∃ d, (s.content o).write offset input = some d := by
    unfold Chunk.write
    rw [dif_pos fits]
    exact ⟨_, rfl⟩
  have whole : writeHash sha o offset input s = (if sha d = (mid.objects o).sum then pure none else do
      let n ← newHash (sha d) d
      pure (some n) : StorageM (Option Nat)) mid := by
    unfold writeHash
    rw [Run.bind_of_some ran, written]
    dsimp only
    rw [Run.bind_of_some (Run.get_apply mid)]
  rw [whole, still.sum]
  split
  · exact ⟨d, none, mid, written, rfl, steady₁, calm₁.mono (Nat.zero_le 1), by rw [if_pos ‹_›]; exact ⟨rfl, Adds.of_still still⟩⟩
  · obtain ⟨n, t, made, steady₂, calm₂, live', sum, adds⟩ := newHash_runs steady₁ d
    refine ⟨d, some n, t, written, ?_, steady₂, calm₁.after calm₂, ?_⟩
    · rw [Run.bind_of_some made, Run.pure_apply]
    · rw [if_neg ‹_›]
      exact ⟨n, rfl, live', sum, (Adds.of_still still).trans adds⟩

theorem deleteHash_total {h : Hash} (index : s.hashesIndex h.sum = some o) (tidy : ∀ id, (s.bucketAt id).Tidy)
    (room : (s.accounting.post h.bucketIndex).isSome) : ∃ t, deleteHash o h s = some ((), t) ∧ Calm 1 s t := by
  have asserted : (Run.assert (s.hashesIndex h.sum = some o) : StorageM Unit) (s.setObject o { h with deleted := true }) =
      some ((), s.setObject o { h with deleted := true }) := Run.assert_eq_some.mpr ⟨index, rfl⟩
  obtain ⟨erased, shape⟩ : ∃ u, u = { s.setObject o { h with deleted := true } with hashesIndex := Function.update s.hashesIndex h.sum none } := ⟨_, rfl⟩
  have same : erased.loaded = s.loaded := by
    rw [shape]
    rfl
  have before : erased.accounting = s.accounting := by
    rw [shape]
    rfl
  have first : Calm 0 s erased := Calm.of_loaded same
  obtain ⟨cleared, cleans, calm⟩ := putHashAndChunk_total h.bucketIndex .empty .zero erased
  have accounting : cleared.accounting = s.accounting := (putHashAndChunk_spec cleans).1.accounting.trans before
  have tidy' : ∀ id, (cleared.bucketAt id).Tidy := fun id => ((first.after calm) id).tidy (tidy id)
  rw [← accounting] at room
  obtain ⟨last, posted, calm'⟩ := post_total tidy' room
  unfold deleteHash
  rw [Run.bind_of_some (Run.modify_apply _ _), Run.bind_of_some (Run.get_apply _)]
  rw [show (s.setObject o { h with deleted := true }).hashesIndex = s.hashesIndex from rfl, Run.bind_of_some asserted,
    Run.bind_of_some (Run.modify_apply _ _)]
  rw [show ({ s.setObject o { h with deleted := true } with hashesIndex := Function.update (s.setObject o { h with deleted := true }).hashesIndex h.sum none } : Storage) = erased from shape.symm]
  rw [Run.bind_of_some (show clearHashAndChunk h.bucketIndex erased = some ((), cleared) from cleans), Run.bind_of_some posted]
  obtain ⟨t, rested⟩ : ∃ t, clearData o last = some ((), t) := ⟨_, rfl⟩
  refine ⟨t, rested, ((first.after calm).trans calm').trans (Calm.of_loaded (clearData_loaded rested))⟩

/-- A reference is given up where there is room for the index of a hash that has no other. -/
theorem decRefCnt_runs (steady : s.Steady sha base (o :: held))
    (room : o ≠ zeroHash → held.count o = 0 → (s.accounting.post (s.objects o).bucketIndex).isSome) :
    ∃ t, decRefCnt o s = some ((), t) ∧ t.Steady sha base held ∧ Calm 2 s t := by
  have live := steady.counted.live o List.mem_cons_self
  have rep := steady.counted.rep
  obtain ⟨t, ran, calm⟩ : ∃ t, decRefCnt o s = some ((), t) ∧ Calm 2 s t := by
    have first : Calm 0 s (s.recount o (-1)) := Calm.of_loaded rfl
    have own : (s.recount o (-1)).objects o = { s.objects o with refcnt := (s.objects o).refcnt + -1 } := objects_setObject_self o _ s
    have index : (s.recount o (-1)).hashesIndex (s.objects o).sum = some o := rep.index o live
    have accounting : (s.recount o (-1)).accounting = s.accounting := rfl
    unfold decRefCnt
    rw [Run.bind_of_some (Run.modify_apply _ _), Run.bind_of_some (Run.get_apply _)]
    rw [own]
    generalize s.recount o (-1) = s₁ at first index accounting ⊢
    dsimp only
    split
    · rename_i flags
      obtain ⟨mid, deleted, calm₁⟩ : ∃ mid, deleteUnused o { s.objects o with refcnt := (s.objects o).refcnt + -1 } s₁ = some ((), mid) ∧ Calm 1 s₁ mid := by
        unfold deleteUnused
        split
        · rename_i unused
          have other : o ≠ zeroHash := by
            rintro rfl
            cases flags.1.symm.trans rep.zero.2.1
          have count := steady.refcnt live
          rw [if_neg other, List.count_cons_self] at count
          dsimp only at unused
          exact deleteHash_total index (fun id => (first id).tidy (steady.tidy id)) (accounting ▸ room other (by omega))
        · exact ⟨s₁, rfl, (Calm.refl s₁).mono (Nat.zero_le 1)⟩
      obtain ⟨t, changed, calm₂⟩ := hashChanged_total (bucket (s.objects o).bucketIndex) mid
      rw [Run.bind_of_some deleted]
      exact ⟨t, changed, (first.after calm₁).trans calm₂⟩
    · exact ⟨s₁, rfl, first.mono (Nat.zero_le 2)⟩
  refine ⟨t, ran, ⟨decRefCnt_counted steady.counted ran, ?_, fun id => (calm id).tidy (steady.tidy id), ?_⟩, calm⟩
  · have zero := decRefCnt_zero rep ran
    have before := steady.zero
    rw [List.count_cons] at before
    rw [List.count_singleton] at zero
    split at zero
    · rename_i same
      rw [if_pos same] at before
      omega
    · rename_i other
      rw [if_neg other] at before
      omega
  · cases (decRefCnt_released steady.counted ran).2.2 with
    | inl stays =>
      rw [stays.1]
      exact steady.records
    | inr posts => exact Or.inl (Accounting.availableList_of_post posts.2.2)

/-- And only there. -/
theorem decRefCnt_room (steady : s.Steady sha base (o :: held)) (ran : decRefCnt o s = some ((), t)) (other : o ≠ zeroHash)
    (last : held.count o = 0) : (s.accounting.post (s.objects o).bucketIndex).isSome := by
  cases (decRefCnt_released steady.counted ran).2.2 with
  | inl stays =>
    have more := stays.2 other
    omega
  | inr posts =>
    rw [posts.2.2]
    rfl

end Hashes

end Storage
end CloudCryptFS.Filesystem
