import CloudCryptFS.Filesystem.Bucket

/-! What the files of a bucket hold. After a store a new bucket on the same files sees what
was put, but for one case: when the last hash is gone nothing is written, and the files
keep the hashes they had. -/

namespace CloudCryptFS.Filesystem
open Util Bytes Script.Lexer

namespace Bucket
variable {P : Protocol}

section Files

theorem readHashes_encrypt (sound : P.Sound) (key : P.Key) (iv : P.IV) (H : SlotIndex → Option HashRecord) :
    readHashes key (P.encrypt key iv (array (HashRecord.serialize P.emptyHsh) H)) = some (fun i => (H i).filter HashRecord.counted) := by
  have size : (array (HashRecord.serialize P.emptyHsh) H).length = byteSizeHashes :=
    length_array (HashRecord.length_serialize P.emptyHsh) H
  have long := sound.length_encrypt key iv (array (HashRecord.serialize P.emptyHsh) H)
  have some : P.encrypt key iv (array (HashRecord.serialize P.emptyHsh) H) ≠ [] := by
    intro none
    rw [none, size, List.length_nil, byteSizeHashes, chunksInBucket, HashRecord.width] at long
    omega
  unfold readHashes
  rw [if_neg some, sound.decrypt_encrypt]
  dsimp only
  rw [if_neg (not_not.mpr size)]
  congr 1
  funext i
  rw [block_array (HashRecord.length_serialize P.emptyHsh), HashRecord.load_serialize]

theorem readChunks_encrypt (sound : P.Sound) (key : P.Key) (iv : P.IV) (C : Option (SlotIndex → Chunk)) :
    readChunks key (P.encrypt key iv (chunksText C)) = some (C.getD (fun _ => .zero)) := by
  have size : (chunksText C).length = byteSizeChunks := length_array Chunk.size_eq _
  have long := sound.length_encrypt key iv (chunksText C)
  have some : P.encrypt key iv (chunksText C) ≠ [] := by
    intro none
    rw [none, size, List.length_nil, byteSizeChunks, chunksInBucket, chunkSize] at long
    omega
  unfold readChunks
  rw [if_neg some, sound.decrypt_encrypt]
  dsimp only
  rw [if_neg (not_not.mpr size)]
  congr 1
  funext i
  rw [chunksText, block_array Chunk.size_eq, Chunk.load_data]

theorem filename_ne (b : Bucket P) : b.myfilenamehsh ≠ b.myfilenamechnk := by
  unfold myfilenamehsh myfilenamechnk
  intro same
  exact absurd (List.append_cancel_left same) (by decide)

/-- The hashes and chunks that a new bucket would load. -/
def storedHashes (b : Bucket P) (files : Files) : Option (SlotIndex → Option HashRecord) :=
  readHashes b.key (getSystemString files b.myfilenamehsh)

def storedChunks (b : Bucket P) (files : Files) : Option (SlotIndex → Chunk) :=
  readChunks b.key (getSystemString files b.myfilenamechnk)

theorem storedHashes_counted {b : Bucket P} {files : Files} {H : SlotIndex → Option HashRecord} (stored : b.storedHashes files = some H)
    (i : SlotIndex) : (H i).filter HashRecord.counted = H i := by
  unfold storedHashes readHashes at stored
  split at stored
  · cases stored
    rfl
  · split at stored
    · cases stored
    · split at stored
      · cases stored
      · cases stored
        dsimp only
        unfold HashRecord.load
        split
        · dsimp only
          split
          · rename_i counted
            rw [Option.filter_some, if_pos counted]
          · rfl
        · rfl

end Files

section Loading
variable {s s' : Bucket P × Files}

theorem loadHashes_spec {H : SlotIndex → Option HashRecord} (ran : loadHashes s = some (H, s')) :
    s'.2 = s.2 ∧ ((s.1.hashes = some H ∧ s'.1 = s.1) ∨
      (s.1.hashes = none ∧ s.1.storedHashes s.2 = some H ∧ s'.1 = { s.1 with hashes := some H, hashChangesSinceLoad := 0 })) := by
  unfold loadHashes at ran
  split at ran
  · rename_i H' loaded
    cases ran
    exact ⟨rfl, Or.inl ⟨loaded, rfl⟩⟩
  · rename_i unloaded
    obtain ⟨H', read, same⟩ := Option.map_eq_some_iff.mp ran
    cases same
    exact ⟨rfl, Or.inr ⟨unloaded, read, rfl⟩⟩

theorem loadChunks_spec {C : SlotIndex → Chunk} (ran : loadChunks s = some (C, s')) :
    s'.2 = s.2 ∧ ((s.1.chunks = some C ∧ s'.1 = s.1) ∨
      (s.1.chunks = none ∧ s.1.storedChunks s.2 = some C ∧ s'.1 = { s.1 with chunks := some C, chunkChangesSinceLoad := 0 })) := by
  unfold loadChunks at ran
  split at ran
  · rename_i C' loaded
    cases ran
    exact ⟨rfl, Or.inl ⟨loaded, rfl⟩⟩
  · rename_i unloaded
    obtain ⟨C', read, same⟩ := Option.map_eq_some_iff.mp ran
    cases same
    exact ⟨rfl, Or.inr ⟨unloaded, read, rfl⟩⟩

end Loading

section Store
variable {s s' : Bucket P × Files}

def Dirty (b : Bucket P) : Prop := b.hashChangesSinceLoad > 0 ∨ b.chunkChangesSinceLoad > 0

theorem chunksCipher_spec {C : Option (SlotIndex → Chunk)} {iv : P.IV} {cipher : Str}
    (ran : chunksCipher C iv s = some (cipher, s')) :
    s' = s ∧ ((cipher = P.encrypt s.1.key iv (chunksText C) ∧ cipher ≠ [] ∧ (C = none → s.2 s.1.myfilenamechnk = none)) ∨
      (cipher = [] ∧ C = none)) := by
  unfold chunksCipher at ran
  obtain ⟨b, _, same, ran⟩ := Run.bind_eq_some.mp ran
  cases same
  obtain ⟨there, _, same, ran⟩ := Run.bind_eq_some.mp ran
  cases same
  split at ran
  · rename_i written
    obtain ⟨_, _, asserted, ran⟩ := Run.bind_eq_some.mp ran
    obtain ⟨⟨some, _⟩, rfl⟩ := Run.assert_eq_some.mp asserted
    cases ran
    refine ⟨rfl, Or.inl ⟨rfl, some, fun unloaded => ?_⟩⟩
    rcases written with loaded | missing
    · rw [unloaded] at loaded
      cases loaded
    · simpa using missing
  · rename_i unwritten
    cases ran
    refine ⟨rfl, Or.inr ⟨rfl, ?_⟩⟩
    by_contra loaded
    exact unwritten (Or.inl (Option.isSome_iff_ne_none.mpr loaded))

theorem writeFiles_spec {H : SlotIndex → Option HashRecord} {cipher : Str} {iv : P.IV}
    (ran : writeFiles H cipher iv s = some ((), s')) :
    s'.1 = s.1 ∧ (((∀ i, H i = none) ∧ s'.2 = s.2) ∨ ((∃ i, (H i).isSome) ∧
      s'.2 = Function.update (if cipher = [] then s.2 else Function.update s.2 s.1.myfilenamechnk (some cipher)) s.1.myfilenamehsh
        (some (P.encrypt s.1.key iv (array (HashRecord.serialize P.emptyHsh) H))))) := by
  unfold writeFiles at ran
  obtain ⟨b, _, same, ran⟩ := Run.bind_eq_some.mp ran
  cases same
  split at ran
  · rename_i held
    obtain ⟨_, _, asserted, ran⟩ := Run.bind_eq_some.mp ran
    obtain ⟨_, rfl⟩ := Run.assert_eq_some.mp asserted
    by_cases none : cipher = []
    · rw [if_neg (not_not.mpr none)] at ran
      cases ran
      exact ⟨rfl, Or.inr ⟨held, by rw [if_pos none]⟩⟩
    · rw [if_pos none] at ran
      obtain ⟨_, t, written, ran⟩ := Run.bind_eq_some.mp ran
      cases written
      cases ran
      exact ⟨rfl, Or.inr ⟨held, by rw [if_neg none]⟩⟩
  · rename_i empty
    cases ran
    refine ⟨rfl, Or.inl ⟨fun i => ?_, rfl⟩⟩
    by_contra some
    exact empty ⟨i, Option.isSome_iff_ne_none.mpr some⟩

/-- What is written of two arrays. -/
structure WrittenOut (C : Option (SlotIndex → Chunk)) (H : SlotIndex → Option HashRecord) (s s' : Bucket P × Files) : Prop where
  bucket : s'.1 = s.1
  empty : (∀ i, H i = none) → s'.2 = s.2
  hashes : (∃ i, (H i).isSome) → s.1.storedHashes s'.2 = some (fun i => (H i).filter HashRecord.counted)
  chunks : (∃ i, (H i).isSome) → ∀ E, s.1.storedChunks s.2 = some E → s.1.storedChunks s'.2 = some (C.getD E)
  others : ∀ name, name ≠ s.1.myfilenamehsh → name ≠ s.1.myfilenamechnk → s'.2 name = s.2 name

theorem writeOut_spec (sound : P.Sound) {C : Option (SlotIndex → Chunk)} {H : SlotIndex → Option HashRecord} {ivChunks ivHashes : P.IV}
    (ran : writeOut C H ivChunks ivHashes s = some ((), s')) : WrittenOut C H s s' := by
  unfold writeOut at ran
  obtain ⟨cipher, t, ciphered, ran⟩ := Run.bind_eq_some.mp ran
  obtain ⟨here, which⟩ := chunksCipher_spec ciphered
  rw [here] at ran
  obtain ⟨same, written⟩ := writeFiles_spec ran
  have none_of_empty : (∀ i, H i = none) → ¬∃ i, (H i).isSome := by
    intro empty held
    obtain ⟨i, some⟩ := held
    rw [empty i] at some
    cases some
  refine ⟨same, ?_, ?_, ?_, ?_⟩
  · intro empty
    rcases written with ⟨_, files⟩ | ⟨held, _⟩
    · exact files
    · exact absurd held (none_of_empty empty)
  · intro held
    rcases written with ⟨empty, _⟩ | ⟨_, files⟩
    · exact absurd held (none_of_empty empty)
    · unfold storedHashes getSystemString
      rw [files, Function.update_self, Option.getD_some]
      exact readHashes_encrypt sound _ _ H
  · intro held E stored
    rcases written with ⟨empty, _⟩ | ⟨_, files⟩
    · exact absurd held (none_of_empty empty)
    · unfold storedChunks getSystemString
      rw [files, Function.update_of_ne s.1.filename_ne.symm]
      rcases which with ⟨rfl, some, missing⟩ | ⟨rfl, unloaded⟩
      · rw [if_neg some, Function.update_self, Option.getD_some, readChunks_encrypt sound]
        cases chunks : C with
        | some C' => rfl
        | none =>
          -- without a file of chunks they read as zero
          unfold storedChunks getSystemString at stored
          rw [missing chunks] at stored
          rw [Option.getD_none, Option.getD_none]
          exact stored
      · rw [if_pos rfl, unloaded, Option.getD_none]
        exact stored
  · intro name notHashes notChunks
    rcases written with ⟨_, files⟩ | ⟨_, files⟩
    · rw [files]
    · rw [files, Function.update_of_ne notHashes]
      split
      · rfl
      · exact Function.update_of_ne notChunks _ _

/-- The bucket and its files after a store with changes. -/
structure Written (clearCache : Bool) (s s' : Bucket P × Files) (H : SlotIndex → Option HashRecord) : Prop where
  bucket : s'.1 = { s.1 with chunks := if clearCache then none else s.1.chunks, hashChangesSinceLoad := 0, chunkChangesSinceLoad := 0 }
  loaded : s.1.hashes = some H
  empty : (∀ i, H i = none) → s'.2 = s.2
  hashes : (∃ i, (H i).isSome) → s.1.storedHashes s'.2 = some (fun i => (H i).filter HashRecord.counted)
  chunks : (∃ i, (H i).isSome) → ∀ C, s.1.storedChunks s.2 = some C → s.1.storedChunks s'.2 = some (s.1.chunks.getD C)
  others : ∀ name, name ≠ s.1.myfilenamehsh → name ≠ s.1.myfilenamechnk → s'.2 name = s.2 name

theorem store_spec (sound : P.Sound) {clearCache : Bool} {ivChunks ivHashes : P.IV} (ran : store clearCache ivChunks ivHashes s = some ((), s')) :
    (¬s.1.Dirty ∧ s' = s) ∨ (s.1.Dirty ∧ ∃ H, Written clearCache s s' H) := by
  unfold store at ran
  obtain ⟨b, _, same, ran⟩ := Run.bind_eq_some.mp ran
  cases same
  by_cases dirty : s.1.hashChangesSinceLoad > 0 ∨ s.1.chunkChangesSinceLoad > 0
  · rw [if_pos dirty] at ran
    obtain ⟨_, t, changed, ran⟩ := Run.bind_eq_some.mp ran
    cases changed
    cases loaded : s.1.hashes with
    | none =>
      rw [loaded] at ran
      cases ran
    | some H =>
      rw [loaded] at ran
      obtain ⟨bucket, empty, hashes, chunks, others⟩ := writeOut_spec sound ran
      exact Or.inr ⟨dirty, H, bucket, loaded, empty, hashes, chunks, others⟩
  · rw [if_neg dirty] at ran
    cases ran
    exact Or.inl ⟨dirty, rfl⟩

private theorem chunksCipher_runs (sound : P.Sound) (C : Option (SlotIndex → Chunk)) (iv : P.IV) (s : Bucket P × Files) :
    ∃ cipher, chunksCipher C iv s = some (cipher, s) := by
  have size : (chunksText C).length = byteSizeChunks := length_array Chunk.size_eq _
  have long : (P.encrypt s.1.key iv (chunksText C)).length = byteSizeChunks + P.overhead := by
    rw [sound.length_encrypt, size]
  have asserted : P.encrypt s.1.key iv (chunksText C) ≠ [] ∧ (P.encrypt s.1.key iv (chunksText C)).length = byteSizeChunks + P.overhead := by
    refine ⟨fun empty => ?_, long⟩
    rw [empty, List.length_nil, byteSizeChunks, chunksInBucket, chunkSize] at long
    omega
  by_cases written : C.isSome ∨ ¬(s.2 s.1.myfilenamechnk).isSome
  · refine ⟨P.encrypt s.1.key iv (chunksText C), ?_⟩
    unfold chunksCipher
    refine (Run.bind_of_some rfl).trans ((Run.bind_of_some rfl).trans ?_)
    rw [if_pos written]
    exact (Run.bind_of_some (Run.assert_eq_some.mpr ⟨asserted, rfl⟩)).trans rfl
  · refine ⟨[], ?_⟩
    unfold chunksCipher
    refine (Run.bind_of_some rfl).trans ((Run.bind_of_some rfl).trans ?_)
    rw [if_neg written]
    rfl

private theorem writeFiles_runs (sound : P.Sound) (H : SlotIndex → Option HashRecord) (cipher : Str) (iv : P.IV) (s : Bucket P × Files) :
    ∃ t, writeFiles H cipher iv s = some ((), t) := by
  have size : (array (HashRecord.serialize P.emptyHsh) H).length = byteSizeHashes := length_array (HashRecord.length_serialize P.emptyHsh) H
  have long : (P.encrypt s.1.key iv (array (HashRecord.serialize P.emptyHsh) H)).length = byteSizeHashes + P.overhead := by
    rw [sound.length_encrypt, size]
  have asserted : P.encrypt s.1.key iv (array (HashRecord.serialize P.emptyHsh) H) ≠ [] ∧
      (P.encrypt s.1.key iv (array (HashRecord.serialize P.emptyHsh) H)).length = byteSizeHashes + P.overhead := by
    refine ⟨fun empty => ?_, long⟩
    rw [empty, List.length_nil, byteSizeHashes, chunksInBucket, HashRecord.width] at long
    omega
  have runs : (writeFiles H cipher iv s).isSome := by
    unfold writeFiles
    rw [Run.bind_of_some (show self s = some (s.1, s) from rfl)]
    split
    · dsimp only
      rw [Run.bind_of_some (Run.assert_eq_some.mpr ⟨asserted, rfl⟩)]
      split <;> rfl
    · rfl
  obtain ⟨⟨_, t⟩, ran⟩ := Option.isSome_iff_exists.mp runs
  exact ⟨t, ran⟩

theorem writeOut_runs (sound : P.Sound) (C : Option (SlotIndex → Chunk)) (H : SlotIndex → Option HashRecord) (ivChunks ivHashes : P.IV)
    (s : Bucket P × Files) : ∃ t, writeOut C H ivChunks ivHashes s = some ((), t) := by
  obtain ⟨cipher, ciphered⟩ := chunksCipher_runs sound C ivChunks s
  obtain ⟨t, written⟩ := writeFiles_runs sound H cipher ivHashes s
  exact ⟨t, (Run.bind_of_some ciphered).trans written⟩

/-- After a store there is nothing left to write, and no file changes when no slot holds a hash. -/
theorem store_settles (sound : P.Sound) {clearCache : Bool} {ivChunks ivHashes : P.IV} (ran : store clearCache ivChunks ivHashes s = some ((), s')) :
    ¬s'.1.Dirty ∧ s'.1.hashes = s.1.hashes ∧ (∀ files, s'.1.storedHashes files = s.1.storedHashes files) ∧
      ∀ H, s.1.hashes = some H → (∀ i, H i = none) → s'.2 = s.2 := by
  rcases store_spec sound ran with ⟨settled, rfl⟩ | ⟨_, H, written⟩
  · exact ⟨settled, rfl, fun _ => rfl, fun _ _ _ => rfl⟩
  · rw [written.bucket]
    refine ⟨fun dirty => ?_, rfl, fun _ => rfl, fun H' loaded empty => ?_⟩
    · rcases dirty with changed | changed <;> exact absurd changed (lt_irrefl 0)
    · obtain rfl : H = H' := Option.some.inj (written.loaded.symm.trans loaded)
      exact written.empty empty

/-- A store ends when it finds the hashes loaded or has nothing to do. -/
theorem store_runs (sound : P.Sound) (clearCache : Bool) (ivChunks ivHashes : P.IV) (ready : s.1.Dirty → s.1.hashes.isSome) :
    ∃ t, store clearCache ivChunks ivHashes s = some ((), t) := by
  unfold store
  by_cases dirty : s.1.hashChangesSinceLoad > 0 ∨ s.1.chunkChangesSinceLoad > 0
  · obtain ⟨H, loaded⟩ := Option.isSome_iff_exists.mp (ready dirty)
    let bare : Bucket P × Files := ({ s.1 with
      chunks := if clearCache then none else s.1.chunks
      hashChangesSinceLoad := 0
      chunkChangesSinceLoad := 0 }, s.2)
    obtain ⟨t, written⟩ := writeOut_runs sound s.1.chunks H ivChunks ivHashes bare
    refine ⟨t, (Run.bind_of_some rfl).trans ?_⟩
    rw [if_pos dirty]
    refine (Run.bind_of_some (show _ = some ((), bare) from rfl)).trans ?_
    rw [loaded]
    exact written
  · refine ⟨s, (Run.bind_of_some rfl).trans ?_⟩
    rw [if_neg dirty]
    rfl

end Store

/-- What the users of a bucket have put into it. -/
structure Contents where
  hashes : SlotIndex → Option HashRecord
  chunks : SlotIndex → Chunk

/-- The calls on a bucket. -/
inductive Call (P : Protocol) where
  | putHashAndChunk (id : SlotIndex) (h : HashRecord) (c : Chunk)
  | clearHashAndChunk (id : SlotIndex)
  | setRefCnt (id : SlotIndex) (refcnt : Int64)
  | hashChanged
  | getHash (id : SlotIndex)
  | getChunk (id : SlotIndex)
  | store (clearCache : Bool) (ivChunks ivHashes : P.IV)

def Call.run : Call P → BucketM P Unit
  | .putHashAndChunk id h c => Bucket.putHashAndChunk id (some h) c
  | .clearHashAndChunk id => Bucket.clearHashAndChunk id
  | .setRefCnt id refcnt => Bucket.setRefCnt id refcnt
  | .hashChanged => Bucket.hashChanged
  | .getHash id => do let _ ← Bucket.getHash id
  | .getChunk id => do let _ ← Bucket.getChunk id
  | .store clearCache ivChunks ivHashes => Bucket.store clearCache ivChunks ivHashes

/-- What a call means for the contents. -/
def Call.apply : Call P → Contents → Contents
  | .putHashAndChunk id h c, A => ⟨Function.update A.hashes id (some h), Function.update A.chunks id c⟩
  | .clearHashAndChunk id, A => ⟨Function.update A.hashes id none, Function.update A.chunks id .zero⟩
  | .setRefCnt id refcnt, A => { A with hashes := Function.update A.hashes id ((A.hashes id).map (fun h => { h with refcnt := refcnt })) }
  | _, A => A

def runCalls : List (Call P) → BucketM P Unit
  | [] => pure ()
  | call :: calls => do
    call.run
    runCalls calls

/-- The next change does not overflow a counter. -/
def Countable (s : Bucket P × Files) : Prop :=
  s.1.chunkChangesSinceLoad < 2 ^ 31 - 1 ∧ s.1.hashChangesSinceLoad < 2 ^ 31 - 1

/-- A change is counted, and a store that has something to do finds the hashes loaded. -/
def Call.Regular : Call P → Bucket P × Files → Prop
  | .getHash _, _ => True
  | .getChunk _, _ => True
  | .store _ _ _, s => s.1.Dirty → s.1.hashes.isSome
  | _, s => Countable s

/-- Every call of a run is regular. -/
def RegularCalls : List (Call P) → Bucket P × Files → Prop
  | [], _ => True
  | call :: calls, s => call.Regular s ∧ ∀ t, call.run s = some ((), t) → RegularCalls calls t

/-- What has been put is what a new bucket on the same files returns. -/
def Sees (s : Bucket P × Files) (A : Contents) : Prop := ∀ id,
  (∃ t, getHash id (s.1.fresh, s.2) = some ((A.hashes id).filter HashRecord.counted, t)) ∧
  ((A.hashes id).isSome → ∃ t, getChunk id (s.1.fresh, s.2) = some (A.chunks id, t))

/-- When no slot holds a hash any more, the file of hashes holds none either. -/
def Emptied (s : Bucket P × Files) : Prop :=
  (∃ H, s.1.hashes = some H ∧ ∀ i, H i = none) → s.1.storedHashes s.2 = some (fun _ => none)

section Runs
variable {s s' : Bucket P × Files} {A : Contents}

/-- The bucket in memory and its files, against what has been put. -/
structure Keeps (s : Bucket P × Files) (A : Contents) : Prop where
  positive : 0 ≤ s.1.hashChangesSinceLoad ∧ 0 ≤ s.1.chunkChangesSinceLoad
  unloaded : s.1.chunks = none → s.1.chunkChangesSinceLoad = 0
  stored : ∃ D E, s.1.storedHashes s.2 = some D ∧ s.1.storedChunks s.2 = some E ∧
    (s.1.hashes = none → A.hashes = D ∧ A.chunks = E ∧ s.1.chunkChangesSinceLoad = 0 ∧ s.1.chunks.getD E = E) ∧
    ∀ H, s.1.hashes = some H → A.hashes = H ∧ (∀ i, (H i).isSome → s.1.chunks.getD E i = A.chunks i) ∧
      (¬s.1.Dirty → (∃ i, (H i).isSome) → D = (fun i => (H i).filter HashRecord.counted) ∧ ∀ i, (H i).isSome → E i = A.chunks i)

theorem Keeps.of_fresh {b : Bucket P} {files : Files} {D : SlotIndex → Option HashRecord} {E : SlotIndex → Chunk}
    (hashes : b.storedHashes files = some D) (chunks : b.storedChunks files = some E) : Keeps (b.fresh, files) ⟨D, E⟩ := by
  refine ⟨⟨le_rfl, le_rfl⟩, fun _ => rfl, D, E, hashes, chunks, fun _ => ⟨rfl, rfl, rfl, rfl⟩, ?_⟩
  intro H loaded
  cases loaded

/-- Loading shows what has been put, and keeps it. -/
theorem Keeps.loadHashes (keeps : Keeps s A) :
    ∃ t, Bucket.loadHashes s = some (A.hashes, t) ∧ Keeps t A ∧ t.1.hashes = some A.hashes ∧
      t.1.hashChangesSinceLoad ≤ s.1.hashChangesSinceLoad ∧ t.1.chunkChangesSinceLoad = s.1.chunkChangesSinceLoad := by
  obtain ⟨D, E, hashes, chunks, before, after⟩ := keeps.stored
  unfold Bucket.loadHashes
  cases loaded : s.1.hashes with
  | some H =>
    obtain ⟨same, _⟩ := after H loaded
    rw [same]
    exact ⟨s, rfl, keeps, loaded, le_rfl, rfl⟩
  | none =>
    obtain ⟨sameHashes, sameChunks, unchanged, whole⟩ := before loaded
    have read : readHashes s.1.key (getSystemString s.2 s.1.myfilenamehsh) = some D := hashes
    rw [sameHashes]
    refine ⟨({ s.1 with hashes := some D, hashChangesSinceLoad := 0 }, s.2), ?_, ?_, rfl, keeps.positive.1, rfl⟩
    · dsimp only
      rw [read]
      rfl
    · refine ⟨⟨le_rfl, keeps.positive.2⟩, keeps.unloaded, D, E, hashes, chunks, ?_, ?_⟩
      · intro unloaded
        cases unloaded
      · intro H loaded
        cases loaded
        refine ⟨sameHashes, fun i _ => ?_, fun _ _ => ⟨?_, fun i _ => ?_⟩⟩
        · exact (congrFun whole i).trans (congrFun sameChunks i).symm
        · funext i
          exact (storedHashes_counted hashes i).symm
        · exact (congrFun sameChunks i).symm

theorem Keeps.loadChunks (keeps : Keeps s A) :
    ∃ C t, Bucket.loadChunks s = some (C, t) ∧ Keeps t A ∧ t.1.hashes = s.1.hashes ∧ t.1.chunks = some C ∧
      t.1.hashChangesSinceLoad = s.1.hashChangesSinceLoad ∧ t.1.chunkChangesSinceLoad = s.1.chunkChangesSinceLoad ∧
      ∀ id, (A.hashes id).isSome → C id = A.chunks id := by
  obtain ⟨D, E, hashes, chunks, before, after⟩ := keeps.stored
  have seen : ∀ id, (A.hashes id).isSome → s.1.chunks.getD E id = A.chunks id := by
    intro id held
    cases loaded : s.1.hashes with
    | some H =>
      obtain ⟨same, view, _⟩ := after H loaded
      exact view id (same ▸ held)
    | none =>
      obtain ⟨_, same, _, whole⟩ := before loaded
      exact (congrFun whole id).trans (congrFun same id).symm
  unfold Bucket.loadChunks
  cases cached : s.1.chunks with
  | some C =>
    rw [cached] at seen
    exact ⟨C, s, rfl, keeps, rfl, cached, rfl, rfl, seen⟩
  | none =>
    have read : readChunks s.1.key (getSystemString s.2 s.1.myfilenamechnk) = some E := chunks
    rw [cached] at seen
    refine ⟨E, ({ s.1 with chunks := some E, chunkChangesSinceLoad := 0 }, s.2), ?_, ?_, rfl, rfl, rfl, (keeps.unloaded cached).symm, seen⟩
    · dsimp only
      rw [read]
      rfl
    · refine ⟨⟨keeps.positive.1, le_rfl⟩, fun _ => rfl, D, E, hashes, chunks, ?_, ?_⟩
      · intro unloaded
        obtain ⟨sameHashes, sameChunks, _, _⟩ := before unloaded
        exact ⟨sameHashes, sameChunks, rfl, rfl⟩
      · intro H loaded
        obtain ⟨same, view, clean⟩ := after H loaded
        rw [cached] at view
        refine ⟨same, view, fun settled held => clean (fun dirty => settled ?_) held⟩
        rcases dirty with hashChanges | chunkChanges
        · exact Or.inl hashChanges
        · rw [keeps.unloaded cached] at chunkChanges
          exact absurd chunkChanges (lt_irrefl 0)

theorem putHashAndChunk_keeps (keeps : Keeps s A) (countable : Countable s) (id : SlotIndex) (h : Option HashRecord) (c : Chunk) :
    ∃ t, Bucket.putHashAndChunk id h c s = some ((), t) ∧ Keeps t ⟨Function.update A.hashes id h, Function.update A.chunks id c⟩ := by
  obtain ⟨first, ranFirst, keepsFirst, loaded, fewer, sameChunks⟩ := keeps.loadHashes
  obtain ⟨C, second, ranSecond, keepsSecond, sameHashes, cached, sameCount, sameCount', seen⟩ := keepsFirst.loadChunks
  obtain ⟨D, E, hashes, chunks, _, _⟩ := keepsSecond.stored
  have countHashes : increment second.1.hashChangesSinceLoad = second.1.hashChangesSinceLoad + 1 :=
    increment_eq keepsSecond.positive.1 (by have := countable.2; omega)
  have countChunks : increment second.1.chunkChangesSinceLoad = second.1.chunkChangesSinceLoad + 1 :=
    increment_eq keepsSecond.positive.2 (by have := countable.1; omega)
  refine ⟨_, (Run.bind_of_some ranFirst).trans ((Run.bind_of_some ranSecond).trans rfl), ?_⟩
  have positive := keepsSecond.positive
  refine ⟨?_, ?_, D, E, hashes, chunks, ?_, ?_⟩
  · dsimp only
    rw [countHashes, countChunks]
    omega
  · intro unloaded
    cases unloaded
  · intro unloaded
    cases unloaded
  · intro H same
    cases same
    refine ⟨rfl, fun i held => ?_, fun settled => ?_⟩
    · show Function.update C id c i = Function.update A.chunks id c i
      by_cases here : i = id
      · rw [here, Function.update_self, Function.update_self]
      · rw [Function.update_of_ne here] at held
        rw [Function.update_of_ne here, Function.update_of_ne here]
        exact seen i held
    · refine absurd (Or.inl ?_) settled
      show increment second.1.hashChangesSinceLoad > 0
      rw [countHashes]
      omega

theorem hashChanged_keeps (keeps : Keeps s A) (small : s.1.hashChangesSinceLoad < 2 ^ 31 - 1) :
    ∃ t, Bucket.hashChanged s = some ((), t) ∧ Keeps t A := by
  obtain ⟨D, E, hashes, chunks, before, after⟩ := keeps.stored
  have positive := keeps.positive
  have count := increment_eq positive.1 small
  refine ⟨_, rfl, ?_, keeps.unloaded, D, E, hashes, chunks, before, ?_⟩
  · dsimp only
    rw [count]
    omega
  · intro H loaded
    obtain ⟨same, view, _⟩ := after H loaded
    refine ⟨same, view, fun settled => absurd (Or.inl ?_) settled⟩
    show increment s.1.hashChangesSinceLoad > 0
    rw [count]
    omega

theorem setRefCnt_keeps (keeps : Keeps s A) (countable : Countable s) (id : SlotIndex) (refcnt : Int64) :
    ∃ t, Bucket.setRefCnt id refcnt s = some ((), t) ∧
      Keeps t { A with hashes := Function.update A.hashes id ((A.hashes id).map (fun h => { h with refcnt := refcnt })) } := by
  obtain ⟨first, ranFirst, keepsFirst, loaded, fewer, sameChunks⟩ := keeps.loadHashes
  obtain ⟨D, E, hashes, chunks, _, after⟩ := keepsFirst.stored
  obtain ⟨_, view, _⟩ := after _ loaded
  have count : increment first.1.hashChangesSinceLoad = first.1.hashChangesSinceLoad + 1 :=
    increment_eq keepsFirst.positive.1 (by have := countable.2; omega)
  refine ⟨_, (Run.bind_of_some ranFirst).trans rfl, ?_⟩
  have positive := keepsFirst.positive
  refine ⟨?_, keepsFirst.unloaded, D, E, hashes, chunks, ?_, ?_⟩
  · dsimp only
    rw [count]
    omega
  · intro unloaded
    cases unloaded
  · intro H same
    cases same
    refine ⟨rfl, fun i held => view i ?_, fun settled => ?_⟩
    · by_cases here : i = id
      · rw [here, Function.update_self, Option.isSome_map] at held
        rw [here, held]
      · rwa [Function.update_of_ne here] at held
    · refine absurd (Or.inl ?_) settled
      show increment first.1.hashChangesSinceLoad > 0
      rw [count]
      omega

theorem store_keeps (sound : P.Sound) (keeps : Keeps s A) {clearCache : Bool} {ivChunks ivHashes : P.IV}
    (ran : Bucket.store clearCache ivChunks ivHashes s = some ((), s')) : Keeps s' A := by
  rcases store_spec sound ran with ⟨_, rfl⟩ | ⟨dirty, H, written⟩
  · exact keeps
  · obtain ⟨D, E, hashes, chunks, _, after⟩ := keeps.stored
    obtain ⟨same, view, _⟩ := after H written.loaded
    have still : s'.1.hashes = some H := by
      rw [written.bucket]
      exact written.loaded
    have clean : s'.1.hashChangesSinceLoad = 0 ∧ s'.1.chunkChangesSinceLoad = 0 := by
      rw [written.bucket]
      exact ⟨rfl, rfl⟩
    have named : ∀ files, s'.1.storedHashes files = s.1.storedHashes files ∧ s'.1.storedChunks files = s.1.storedChunks files := by
      rw [written.bucket]
      exact fun files => ⟨rfl, rfl⟩
    have caches : s'.1.chunks = none ∨ s'.1.chunks = s.1.chunks := by
      rw [written.bucket]
      cases clearCache with
      | true => exact Or.inl rfl
      | false => exact Or.inr rfl
    have unloaded : s'.1.hashes = none → False := by
      intro none
      rw [still] at none
      cases none
    by_cases held : ∃ i, (H i).isSome
    · have newHashes := written.hashes held
      have newChunks := written.chunks held E chunks
      refine ⟨by omega, fun _ => clean.2, _, _, (named s'.2).1.trans newHashes, (named s'.2).2.trans newChunks, fun none => (unloaded none).elim, ?_⟩
      intro H' loaded
      obtain rfl : H = H' := Option.some.inj (still.symm.trans loaded)
      refine ⟨same, fun i some => ?_, fun _ _ => ⟨rfl, view⟩⟩
      rcases caches with dropped | kept
      · rw [dropped]
        exact view i some
      · rw [kept, ← view i some]
        cases s.1.chunks <;> rfl
    · have empty : ∀ i, H i = none := by
        intro i
        by_contra some
        exact held ⟨i, Option.isSome_iff_ne_none.mpr some⟩
      refine ⟨by omega, fun _ => clean.2, D, E, ?_, ?_, fun none => (unloaded none).elim, ?_⟩
      · rw [written.empty empty]
        exact (named s.2).1.trans hashes
      · rw [written.empty empty]
        exact (named s.2).2.trans chunks
      · intro H' loaded
        obtain rfl : H = H' := Option.some.inj (still.symm.trans loaded)
        refine ⟨same, fun i some => absurd ⟨i, some⟩ held, fun _ some => absurd some held⟩

/-- One call: it ends, and what it means for the contents is kept. -/
theorem Keeps.call (sound : P.Sound) (keeps : Keeps s A) {call : Call P} (regular : call.Regular s) :
    ∃ t, call.run s = some ((), t) ∧ Keeps t (call.apply A) := by
  cases call with
  | putHashAndChunk id h c => exact putHashAndChunk_keeps keeps regular id (some h) c
  | clearHashAndChunk id => exact putHashAndChunk_keeps keeps regular id none .zero
  | setRefCnt id refcnt => exact setRefCnt_keeps keeps regular id refcnt
  | hashChanged => exact hashChanged_keeps keeps regular.2
  | getHash id =>
    obtain ⟨t, ran, kept, _⟩ := keeps.loadHashes
    exact ⟨t, (Run.bind_of_some ((Run.bind_of_some ran).trans rfl)).trans rfl, kept⟩
  | getChunk id =>
    obtain ⟨C, t, ran, kept, _⟩ := keeps.loadChunks
    exact ⟨t, (Run.bind_of_some ((Run.bind_of_some ran).trans rfl)).trans rfl, kept⟩
  | store clearCache ivChunks ivHashes =>
    obtain ⟨t, ran⟩ := store_runs sound clearCache ivChunks ivHashes regular
    exact ⟨t, ran, store_keeps sound keeps ran⟩

theorem Keeps.calls (sound : P.Sound) (keeps : Keeps s A) {calls : List (Call P)} (regular : RegularCalls calls s) :
    ∃ t, runCalls calls s = some ((), t) ∧ Keeps t (calls.foldl (fun A call => call.apply A) A) := by
  induction calls generalizing s A with
  | nil => exact ⟨s, rfl, keeps⟩
  | cons call calls ih =>
    obtain ⟨here, later⟩ := regular
    obtain ⟨t, ran, kept⟩ := keeps.call sound here
    obtain ⟨t', ranLater, keptLater⟩ := ih kept (later t ran)
    exact ⟨t', (Run.bind_of_some ran).trans ranLater, keptLater⟩

/-- A new bucket returns what the files hold. -/
theorem getHash_fresh {D : SlotIndex → Option HashRecord} (stored : s.1.storedHashes s.2 = some D) (id : SlotIndex) :
    ∃ t, getHash id (s.1.fresh, s.2) = some (D id, t) := by
  have ran : Bucket.loadHashes (s.1.fresh, s.2) = some (D, ({ s.1.fresh with hashes := some D, hashChangesSinceLoad := 0 }, s.2)) := by
    have read : readHashes s.1.fresh.key (getSystemString s.2 s.1.fresh.myfilenamehsh) = some D := stored
    unfold Bucket.loadHashes
    dsimp only [fresh] at read ⊢
    rw [read]
    rfl
  exact ⟨_, (Run.bind_of_some ran).trans rfl⟩

theorem getChunk_fresh {E : SlotIndex → Chunk} (stored : s.1.storedChunks s.2 = some E) (id : SlotIndex) :
    ∃ t, getChunk id (s.1.fresh, s.2) = some (E id, t) := by
  have ran : Bucket.loadChunks (s.1.fresh, s.2) = some (E, ({ s.1.fresh with chunks := some E, chunkChangesSinceLoad := 0 }, s.2)) := by
    have read : readChunks s.1.fresh.key (getSystemString s.2 s.1.fresh.myfilenamechnk) = some E := stored
    unfold Bucket.loadChunks
    dsimp only [fresh] at read ⊢
    rw [read]
    rfl
  exact ⟨_, (Run.bind_of_some ran).trans rfl⟩

theorem sees_iff {D : SlotIndex → Option HashRecord} {E : SlotIndex → Chunk} (hashes : s.1.storedHashes s.2 = some D)
    (chunks : s.1.storedChunks s.2 = some E) :
    Sees s A ↔ (∀ id, D id = (A.hashes id).filter HashRecord.counted) ∧ ∀ id, (A.hashes id).isSome → E id = A.chunks id := by
  constructor
  · intro sees
    refine ⟨fun id => ?_, fun id held => ?_⟩
    · obtain ⟨t, ran⟩ := getHash_fresh hashes id
      obtain ⟨t', ran'⟩ := (sees id).1
      exact congrArg Prod.fst (Option.some.inj (ran.symm.trans ran'))
    · obtain ⟨t, ran⟩ := getChunk_fresh chunks id
      obtain ⟨t', ran'⟩ := (sees id).2 held
      exact congrArg Prod.fst (Option.some.inj (ran.symm.trans ran'))
  · intro same id
    refine ⟨?_, fun held => ?_⟩
    · rw [← same.1 id]
      exact getHash_fresh hashes id
    · rw [← same.2 id held]
      exact getChunk_fresh chunks id

/-- The final store of a run, by what the file of hashes held before it. -/
theorem Keeps.sees_iff_emptied (sound : P.Sound) (keeps : Keeps s A) {clearCache : Bool} {ivChunks ivHashes : P.IV}
    (ran : Bucket.store clearCache ivChunks ivHashes s = some ((), s')) : Sees s' A ↔ Emptied s := by
  obtain ⟨settled, sameHashes, named, quiet⟩ := store_settles sound ran
  have kept := store_keeps sound keeps ran
  obtain ⟨D, E, hashes, chunks, before, after⟩ := kept.stored
  rw [sees_iff hashes chunks]
  cases loaded : s.1.hashes with
  | none =>
    obtain ⟨viewHashes, viewChunks, _, _⟩ := before (sameHashes.trans loaded)
    constructor
    · intro _ emptied
      obtain ⟨H, some, _⟩ := emptied
      rw [loaded] at some
      cases some
    · intro _
      refine ⟨fun id => ?_, fun id _ => (congrFun viewChunks id).symm⟩
      rw [viewHashes]
      exact (storedHashes_counted hashes id).symm
  | some H =>
    obtain ⟨same, _, clean⟩ := after H (sameHashes.trans loaded)
    by_cases held : ∃ i, (H i).isSome
    · obtain ⟨viewHashes, viewChunks⟩ := clean settled held
      constructor
      · intro _ emptied
        obtain ⟨H', some, empty⟩ := emptied
        obtain rfl : H = H' := Option.some.inj (loaded.symm.trans some)
        obtain ⟨i, there⟩ := held
        rw [empty i] at there
        cases there
      · intro _
        rw [same]
        exact ⟨fun id => congrFun viewHashes id, viewChunks⟩
    · have empty : ∀ i, H i = none := by
        intro i
        by_contra some
        exact held ⟨i, Option.isSome_iff_ne_none.mpr some⟩
      have unchanged : s.1.storedHashes s.2 = some D := by
        rw [← quiet H loaded empty, ← named]
        exact hashes
      constructor
      · intro sees _
        rw [unchanged]
        congr 1
        funext id
        rw [sees.1 id, same, empty id]
        rfl
      · intro emptied
        have gone : D = fun _ => none := Option.some.inj (unchanged.symm.trans (emptied ⟨H, loaded, empty⟩))
        rw [same, gone]
        refine ⟨fun id => ?_, fun id some => ?_⟩
        · rw [empty id]
          rfl
        · rw [empty id] at some
          cases some

/-- A put loads the hashes and leaves the files alone. -/
theorem putHashAndChunk_spec {id : SlotIndex} {h : Option HashRecord} {c : Chunk} (ran : putHashAndChunk id h c s = some ((), s')) :
    s'.1.hashes.isSome ∧ s'.2 = s.2 ∧ ∀ files, s'.1.storedHashes files = s.1.storedHashes files := by
  obtain ⟨H, first, ranFirst, ran⟩ := Run.bind_eq_some.mp ran
  obtain ⟨C, second, ranSecond, ran⟩ := Run.bind_eq_some.mp ran
  cases ran
  obtain ⟨filesFirst, loadedFirst⟩ := loadHashes_spec ranFirst
  obtain ⟨filesSecond, loadedSecond⟩ := loadChunks_spec ranSecond
  refine ⟨rfl, filesSecond.trans filesFirst, fun files => ?_⟩
  have keyFirst : first.1.key = s.1.key ∧ first.1.filenamebase = s.1.filenamebase := by
    rcases loadedFirst with ⟨_, same⟩ | ⟨_, _, same⟩ <;> rw [same] <;> exact ⟨rfl, rfl⟩
  have keySecond : second.1.key = first.1.key ∧ second.1.filenamebase = first.1.filenamebase := by
    rcases loadedSecond with ⟨_, same⟩ | ⟨_, _, same⟩ <;> rw [same] <;> exact ⟨rfl, rfl⟩
  unfold storedHashes myfilenamehsh
  dsimp only
  rw [keySecond.1, keySecond.2, keyFirst.1, keyFirst.2]

/-- After any regular calls on a new bucket, a store ends, and another new bucket sees all
that was put exactly when the files of an emptied bucket hold no hash. -/
theorem sees_after_store (sound : P.Sound) {b : Bucket P} {files : Files} {D : SlotIndex → Option HashRecord} {E : SlotIndex → Chunk}
    (hashes : b.storedHashes files = some D) (chunks : b.storedChunks files = some E) {calls : List (Call P)}
    (regular : RegularCalls calls (b.fresh, files)) :
    ∃ s, runCalls calls (b.fresh, files) = some ((), s) ∧ ∀ clearCache ivChunks ivHashes,
      Call.Regular (.store clearCache ivChunks ivHashes) s → ∃ s', Bucket.store clearCache ivChunks ivHashes s = some ((), s') ∧
        (Sees s' (calls.foldl (fun A call => call.apply A) ⟨D, E⟩) ↔ Emptied s) := by
  obtain ⟨s, ran, keeps⟩ := (Keeps.of_fresh hashes chunks).calls sound regular
  refine ⟨s, ran, fun clearCache ivChunks ivHashes ready => ?_⟩
  obtain ⟨s', stored⟩ := store_runs sound clearCache ivChunks ivHashes ready
  exact ⟨s', stored, keeps.sees_iff_emptied sound stored⟩

section Xor

def xorBytes (key : UInt8) (text : Str) : Str := text.map (fun byte => byte ^^^ key)

theorem xorBytes_xorBytes (key : UInt8) (text : Str) : xorBytes key (xorBytes key text) = text := by
  rw [xorBytes, xorBytes, List.map_map]
  apply List.map_id''
  intro byte
  exact (UInt8.xor_assoc byte key key).trans (by rw [UInt8.xor_self, UInt8.xor_zero])

/-- A protocol for concrete runs: every byte against the key, after the IV. -/
def xorProtocol : Protocol where
  Key := UInt8
  IV := UInt8
  overhead := 1
  emptyHsh := ⟨[0xe3, 0xb0, 0xc4, 0x42, 0x98, 0xfc, 0x1c, 0x14, 0x9a, 0xfb, 0xf4, 0xc8, 0x99, 0x6f, 0xb9, 0x24,
    0x27, 0xae, 0x41, 0xe4, 0x64, 0x9b, 0x93, 0x4c, 0xa4, 0x95, 0x99, 0x1b, 0x78, 0x52, 0xb8, 0x55], rfl⟩
  encrypt key iv text := iv :: xorBytes key text
  decrypt key text := some (xorBytes key text.tail)

theorem xorProtocol_sound : xorProtocol.Sound where
  decrypt_encrypt key _ text := congrArg some (xorBytes_xorBytes key text)
  length_encrypt _ _ _ := congrArg (fun n => n + 1) (List.length_map _)

def newBucket : Bucket xorProtocol := { filenamebase := lit "dta/b1", key := (7 : UInt8) }
def oneHash : HashRecord := ⟨256, 1, ⟨List.replicate 32 9, rfl⟩⟩
def firstSlot : SlotIndex := ⟨0, by decide⟩
def noFiles : Files := fun _ => none
def noContents : Contents := ⟨fun _ => none, fun _ => .zero⟩

theorem storedHashes_noFiles : newBucket.storedHashes noFiles = some noContents.hashes := rfl
theorem storedChunks_noFiles : newBucket.storedChunks noFiles = some noContents.chunks := rfl

private theorem regular_put {id : SlotIndex} {h : HashRecord} {c : Chunk} :
    RegularCalls [.putHashAndChunk id h c] (newBucket.fresh, noFiles) :=
  ⟨⟨by decide, by decide⟩, fun _ _ => trivial⟩

theorem sees_after_store_put : ∃ s, runCalls [.putHashAndChunk firstSlot oneHash .zero] (newBucket.fresh, noFiles) = some ((), s) ∧
    ∀ clearCache ivChunks ivHashes, Call.Regular (.store clearCache ivChunks ivHashes) s →
      ∃ s', Bucket.store clearCache ivChunks ivHashes s = some ((), s') ∧
        (Sees s' ((Call.putHashAndChunk firstSlot oneHash .zero : Call xorProtocol).apply noContents) ↔ Emptied s) :=
  sees_after_store xorProtocol_sound storedHashes_noFiles storedChunks_noFiles regular_put

/-- The hash that was stored and then cleared is back for a new bucket. -/
theorem cleared_hash_returns : ∃ s s',
    runCalls [.putHashAndChunk firstSlot oneHash .zero, .store false (0 : UInt8) (0 : UInt8), .clearHashAndChunk firstSlot] (newBucket.fresh, noFiles) =
      some ((), s) ∧
    Bucket.store false (0 : UInt8) (0 : UInt8) s = some ((), s') ∧
    ¬Sees s' ([.putHashAndChunk firstSlot oneHash .zero, .store false (0 : UInt8) (0 : UInt8), .clearHashAndChunk firstSlot].foldl
      (fun A (call : Call xorProtocol) => call.apply A) noContents) := by
  have begin' : Keeps (newBucket.fresh, noFiles) noContents := Keeps.of_fresh storedHashes_noFiles storedChunks_noFiles
  obtain ⟨first, ranPut, keepsPut⟩ := putHashAndChunk_keeps begin' ⟨by decide, by decide⟩ firstSlot (some oneHash) .zero
  obtain ⟨loadedPut, _, _⟩ := putHashAndChunk_spec ranPut
  obtain ⟨second, ranStore⟩ := store_runs xorProtocol_sound false (0 : UInt8) (0 : UInt8) (fun _ => loadedPut)
  have keepsStore := store_keeps xorProtocol_sound keepsPut ranStore
  obtain ⟨settled, sameHashes, _, _⟩ := store_settles xorProtocol_sound ranStore
  obtain ⟨D, E, stored, _, _, after⟩ := keepsStore.stored
  obtain ⟨H, loaded⟩ := Option.isSome_iff_exists.mp loadedPut
  obtain ⟨same, _, clean⟩ := after H (sameHashes.trans loaded)
  have there : H firstSlot = some oneHash := by
    rw [← same]
    exact Function.update_self firstSlot (some oneHash) noContents.hashes
  obtain ⟨written, _⟩ := clean settled ⟨firstSlot, by rw [there]; rfl⟩
  have countable : Countable second := by
    have positive := keepsStore.positive
    unfold Dirty at settled
    constructor <;> omega
  obtain ⟨third, ranClear, keepsClear⟩ := putHashAndChunk_keeps keepsStore countable firstSlot none .zero
  obtain ⟨loadedClear, files, named⟩ := putHashAndChunk_spec ranClear
  obtain ⟨fourth, ranFinal⟩ := store_runs xorProtocol_sound false (0 : UInt8) (0 : UInt8) (fun _ => loadedClear)
  refine ⟨third, fourth, (Run.bind_of_some ranPut).trans ((Run.bind_of_some ranStore).trans ((Run.bind_of_some ranClear).trans rfl)), ranFinal, ?_⟩
  intro sees
  have emptied := (keepsClear.sees_iff_emptied xorProtocol_sound ranFinal).mp sees
  obtain ⟨H', loaded'⟩ := Option.isSome_iff_exists.mp loadedClear
  obtain ⟨_, _, _, _, _, after'⟩ := keepsClear.stored
  obtain ⟨same', _⟩ := after' H' loaded'
  have gone : third.1.storedHashes third.2 = some (fun _ => none) := by
    refine emptied ⟨H', loaded', fun i => ?_⟩
    rw [← same']
    dsimp only
    rw [Function.update_idem]
    by_cases here : i = firstSlot
    · rw [here, Function.update_self]
    · rw [Function.update_of_ne here]
      rfl
  rw [files, named, stored] at gone
  have back := congrFun (Option.some.inj gone) firstSlot
  rw [written] at back
  dsimp only at back
  rw [there] at back
  cases back

end Xor

end Runs

end Bucket

end CloudCryptFS.Filesystem
