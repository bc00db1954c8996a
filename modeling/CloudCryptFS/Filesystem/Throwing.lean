import CloudCryptFS.Filesystem.StorageContent
import CloudCryptFS.Util.Tried

/-! Writes over buckets whose chunks cannot be read: the file does not decrypt, or it has the
wrong length. Loading such a bucket throws, and `writeInner` catches that. -/

namespace CloudCryptFS.Filesystem
open Util Script.Lexer BucketIndex

namespace Throwing
open Storage (StorageM setObject setBucket slotOf)

section Operations
variable (sha : Chunk → Sha256) (unreadable : Nat → Bool)

abbrev TriedM := Tried Storage

/-- `bucket::loadChunks`. -/
def loadChunks (id : Nat) : TriedM (SlotIndex → Chunk) := do
  let b ← Tried.lift (Storage.getBucket id)
  if b.chunks.isNone ∧ unreadable id = true then Tried.throw else Tried.lift (Storage.loadChunks id)

def getChunk (i : BucketIndex) : TriedM Chunk := do
  let C ← loadChunks unreadable (bucket i)
  pure (C (slotOf i))

def putHashAndChunk (i : BucketIndex) (h : HashSlot) (c : Chunk) : TriedM Unit := do
  let H ← Tried.lift (Storage.loadHashes (bucket i))
  let C ← loadChunks unreadable (bucket i)
  let b ← Tried.lift (Storage.getBucket (bucket i))
  Tried.lift (modify (setBucket (bucket i) { b with
    chunkChangesSinceLoad := Bucket.increment b.chunkChangesSinceLoad
    hashChangesSinceLoad := Bucket.increment b.hashChangesSinceLoad
    hashes := some (Function.update H (slotOf i) h)
    chunks := some (Function.update C (slotOf i) c) }))

def clearHashAndChunk (i : BucketIndex) : TriedM Unit := putHashAndChunk unreadable i .empty .zero

/-- `hash::data(true)`. -/
def data (o : Nat) : TriedM Chunk := do
  let s ← Tried.lift MonadState.get
  match (s.objects o).data with
  | some c => pure c
  | none =>
    if (s.objects o).fixed then Tried.lift Run.abort
    else do
      let c ← getChunk unreadable (s.objects o).bucketIndex
      Tried.lift (modify (setObject o { s.objects o with data := some c }))
      pure c

def deleteHash (o : Nat) (h : Hash) : TriedM Unit := do
  Tried.lift (modify (setObject o { h with deleted := true }))
  let s ← Tried.lift MonadState.get
  Tried.lift (Run.assert (s.hashesIndex h.sum = some o))
  Tried.lift (modify (fun s => { s with hashesIndex := Function.update s.hashesIndex h.sum none }))
  clearHashAndChunk unreadable h.bucketIndex
  Tried.lift (Storage.post h.bucketIndex)
  Tried.lift (Storage.clearData o)

def deleteUnused (o : Nat) (h : Hash) : TriedM Unit := if h.refcnt = 0 then deleteHash unreadable o h else pure ()

def decRefCnt (o : Nat) : TriedM Unit := do
  Tried.lift (modify (Storage.recount o (-1)))
  let s ← Tried.lift MonadState.get
  if (s.objects o).fixed = false ∧ (s.objects o).deleted = false then do
    deleteUnused unreadable o (s.objects o)
    Tried.lift (Storage.hashChanged (bucket (s.objects o).bucketIndex))
  else pure ()

/-- The new object is gone again when its bucket throws. -/
def addHash (sum : Sha256) (c : Chunk) (i : BucketIndex) : TriedM Nat := do
  let s ← Tried.lift MonadState.get
  Tried.lift (modify (fun t => { t.setObject s.created ⟨sum, i, 0, some c, false, false⟩ with created := s.created + 1 }))
  Tried.cleanUp (putHashAndChunk unreadable i (.object s.created) c) (modify (fun t => { t with objects := s.objects, created := s.created }))
  Tried.lift (modify (fun t => { t with hashesIndex := Function.update t.hashesIndex sum (some s.created) }))
  pure s.created

/-- `storage::newHash`. -/
def newHash (sum : Sha256) (c : Chunk) : TriedM Nat := do
  let s ← Tried.lift MonadState.get
  match s.hashesIndex sum with
  | some o => do
    let _ ← data unreadable o
    pure o
  | none => do
    let i ← Tried.lift Storage.fetch
    addHash unreadable sum c i

/-- `hash::write`. -/
def writeHash (o offset : Nat) (input : Str) : TriedM (Option Nat) := do
  let d ← data unreadable o
  match d.write offset input with
  | none => Tried.lift Run.abort
  | some new => do
    let s ← Tried.lift MonadState.get
    if sha new = (s.objects o).sum then pure none
    else do
      let n ← newHash unreadable (sha new) new
      pure (some n)

/-- The hashes of a write, the pairs of hashes that it replaces, and the number of bytes written. -/
def writeLoop (offset : Nat) : List Nat → Str → (fileOffset offsetInBuf : Nat) → TriedM (List Nat × List (Nat × Nat) × Nat)
  | [], buf, _, offsetInBuf => do
    Tried.lift (Run.assert (buf = []))
    pure ([], [], offsetInBuf)
  | writeHash :: hashes, buf, fileOffset, offsetInBuf =>
    if offset < fileOffset + chunkSize ∧ buf ≠ [] then do
      let newOffset := offset - fileOffset
      let newSize := min buf.length (chunkSize - newOffset)
      let newHsh ← Throwing.writeHash sha unreadable writeHash newOffset (buf.take newSize)
      match newHsh with
      | some newHsh => do
        Tried.lift (Storage.incRefCnt newHsh 1)
        let (after, replaced, written) ← writeLoop offset hashes (buf.drop newSize) (fileOffset + chunkSize) (offsetInBuf + newSize)
        pure (newHsh :: after, (writeHash, newHsh) :: replaced, written)
      | none => do
        let (after, replaced, written) ← writeLoop offset hashes (buf.drop newSize) (fileOffset + chunkSize) (offsetInBuf + newSize)
        pure (writeHash :: after, replaced, written)
    else do
      let (after, replaced, written) ← writeLoop offset hashes buf (fileOffset + chunkSize) offsetInBuf
      pure (writeHash :: after, replaced, written)

/-- What follows the loop when hashes were replaced. -/
def release (je : Bool) (replaced : List (Nat × Nat)) : TriedM Unit := do
  replaced.forM (fun pair => decRefCnt unreadable pair.1)
  Tried.lift (Storage.addChange je (replaced.flatMap (fun pair => [pair.2, pair.1])))

/-- The file after the loop, and the number of bytes written unless something threw. -/
def afterLoop (je : Bool) (f : OpenFile Nat) (first count : Nat) : Option (List Nat × List (Nat × Nat) × Nat) → StorageM (OpenFile Nat × Option Nat)
  | none => pure (f, none)
  | some (after, replaced, written) =>
    if replaced = [] then pure (f, some written)
    else do
      let hashList := f.data.hashList.take first ++ after ++ f.data.hashList.drop (first + count)
      let released ← (release unreadable je replaced).run
      pure ({ f with data := ⟨f.data.size, hashList⟩, numHashWrites := f.numHashWrites + replaced.length }, released.map (fun _ => written))

/-- `file::writeInner` as far as it catches: size and list grow before anything is loaded. -/
def tryWrite (je : Bool) (f : OpenFile Nat) (buf : Str) (offset : Nat) : StorageM (OpenFile Nat × Option Nat) := do
  let firstHash := offset / chunkSize
  let numHashes := numHashes f.data.size buf.length offset
  Run.assert (f.data.hashList.length ≤ numHashes)
  growList (Storage.hashOps sha je) (numHashes - f.data.hashList.length)
  let grownFile : OpenFile Nat := { f with data := ⟨max f.data.size (offset + buf.length), grown Storage.zeroHash f.data.hashList numHashes⟩ }
  let hashes := windowOf grownFile.data.hashList buf.length offset
  Run.assert (hashes.length = numHashesInWrite buf.length offset)
  let looped ← (writeLoop sha unreadable offset hashes buf (firstHash * chunkSize) 0).run
  afterLoop unreadable je grownFile firstHash (numHashesInWrite buf.length offset) looped

/-- `file::writeInner` with the number of bytes that it returns. -/
def writeInner (je : Bool) (f : OpenFile Nat) (buf : Str) (offset : Nat) : StorageM (OpenFile Nat × Nat) := do
  let (after, written) ← tryWrite sha unreadable je f buf offset
  match written with
  | none => pure (after, 0)
  | some offsetInBuf =>
    if after.numHashWrites > chunksInBucket * 5 then do
      restHashes (Storage.hashOps sha je) after.data.hashList
      pure ({ after with numHashWrites := 0 }, offsetInBuf)
    else pure (after, offsetInBuf)

end Operations

section Mirrors
variable {sha : Chunk → Sha256} {unreadable : Nat → Bool} {je : Bool}

theorem mirrors_loadChunks (id : Nat) : Tried.Mirrors (loadChunks unreadable id) (Storage.loadChunks id) := by
  have again : ∀ {s b mid}, Storage.getBucket id s = some (b, mid) → Storage.loadChunks id mid = Storage.loadChunks id s := by
    intro s b mid got
    have here := (Storage.getBucket_spec got).2
    have same : Storage.getBucket id mid = some (b, mid) := by
      unfold Storage.getBucket
      rw [here]
    unfold Storage.loadChunks
    rw [Run.bind_of_some same, Run.bind_of_some got]
  constructor
  · intro s C t ran
    obtain ⟨b, mid, got, rest⟩ := Tried.run_lift_bind.mp ran
    split at rest
    · cases rest
    · rw [← again got]
      exact (Tried.Mirrors.lift _).returns _ _ _ rest
  · intro s C t ran
    obtain ⟨b, mid, got⟩ := Storage.getBucket_total id s
    unfold loadChunks
    by_cases throws : b.chunks.isNone ∧ unreadable id = true
    · refine Or.inr ⟨mid, Tried.run_lift_bind.mpr ⟨b, mid, got, ?_⟩⟩
      rw [if_pos throws, Tried.run_throw]
    · rw [← again got] at ran
      refine Or.inl (Tried.run_lift_bind.mpr ⟨b, mid, got, ?_⟩)
      rw [if_neg throws]
      exact Tried.run_lift.mpr ⟨C, rfl, ran⟩

theorem mirrors_getChunk (i : BucketIndex) : Tried.Mirrors (getChunk unreadable i) (Storage.getChunk i) :=
  Tried.Mirrors.bind (mirrors_loadChunks _) (fun _ => Tried.Mirrors.pure _)

theorem mirrors_putHashAndChunk (i : BucketIndex) (h : HashSlot) (c : Chunk) :
    Tried.Mirrors (putHashAndChunk unreadable i h c) (Storage.putHashAndChunk i h c) := by
  refine Tried.Mirrors.bind (Tried.Mirrors.lift _) (fun H => Tried.Mirrors.bind (mirrors_loadChunks _) (fun C => ?_))
  exact Tried.Mirrors.bind (Tried.Mirrors.lift _) (fun b => Tried.Mirrors.lift _)

theorem mirrors_data (o : Nat) : Tried.Mirrors (data unreadable o) (Storage.data o) := by
  refine Tried.Mirrors.bind (Tried.Mirrors.lift _) (fun s => ?_)
  dsimp only
  cases (s.objects o).data with
  | some c => exact Tried.Mirrors.pure c
  | none =>
    dsimp only
    split
    · exact Tried.Mirrors.lift _
    · exact Tried.Mirrors.bind (mirrors_getChunk _) (fun c => Tried.Mirrors.bind (Tried.Mirrors.lift _) (fun _ => Tried.Mirrors.pure _))

theorem mirrors_decRefCnt (o : Nat) : Tried.Mirrors (decRefCnt unreadable o) (Storage.decRefCnt o) := by
  refine Tried.Mirrors.bind (Tried.Mirrors.lift _) (fun _ => Tried.Mirrors.bind (Tried.Mirrors.lift _) (fun s => ?_))
  dsimp only
  split
  · refine Tried.Mirrors.bind ?_ (fun _ => Tried.Mirrors.lift _)
    unfold deleteUnused Storage.deleteUnused
    split
    · refine Tried.Mirrors.bind (Tried.Mirrors.lift _) (fun _ => Tried.Mirrors.bind (Tried.Mirrors.lift _) (fun s => ?_))
      refine Tried.Mirrors.bind (Tried.Mirrors.lift _) (fun _ => Tried.Mirrors.bind (Tried.Mirrors.lift _) (fun _ => ?_))
      refine Tried.Mirrors.bind (mirrors_putHashAndChunk _ _ _) (fun _ => ?_)
      exact Tried.Mirrors.bind (Tried.Mirrors.lift _) (fun _ => Tried.Mirrors.lift _)
    · exact Tried.Mirrors.pure _
  · exact Tried.Mirrors.pure _

theorem mirrors_newHash (sum : Sha256) (c : Chunk) : Tried.Mirrors (newHash unreadable sum c) (Storage.newHash sum c) := by
  refine Tried.Mirrors.bind (Tried.Mirrors.lift _) (fun s => ?_)
  cases s.hashesIndex sum with
  | some o => exact Tried.Mirrors.bind (mirrors_data o) (fun _ => Tried.Mirrors.pure _)
  | none =>
    refine Tried.Mirrors.bind (Tried.Mirrors.lift _) (fun i => Tried.Mirrors.bind (Tried.Mirrors.lift _) (fun s => ?_))
    refine Tried.Mirrors.bind (Tried.Mirrors.lift _) (fun _ => ?_)
    refine Tried.Mirrors.bind (Tried.Mirrors.cleanUp (mirrors_putHashAndChunk _ _ _) (fun _ => ⟨_, rfl⟩)) (fun _ => ?_)
    exact Tried.Mirrors.bind (Tried.Mirrors.lift _) (fun _ => Tried.Mirrors.pure _)

theorem mirrors_writeHash (o offset : Nat) (input : Str) :
    Tried.Mirrors (writeHash sha unreadable o offset input) (Storage.writeHash sha o offset input) := by
  refine Tried.Mirrors.bind (mirrors_data o) (fun d => ?_)
  cases d.write offset input with
  | none => exact Tried.Mirrors.lift _
  | some new =>
    refine Tried.Mirrors.bind (Tried.Mirrors.lift _) (fun s => ?_)
    split
    · exact Tried.Mirrors.pure _
    · exact Tried.Mirrors.bind (mirrors_newHash _ _) (fun _ => Tried.Mirrors.pure _)

variable {s t : Storage}

/-- A loop that gets to its end has written all bytes, and done what the loop over other hashes does. -/
theorem writeLoop_returns {offset : Nat} {hashes after : List Nat} {replaced : List (Nat × Nat)} {buf : Str} {fileOffset offsetInBuf written : Nat}
    (ran : (writeLoop sha unreadable offset hashes buf fileOffset offsetInBuf).run s = some (some (after, replaced, written), t)) :
    Filesystem.writeLoop (Storage.hashOps sha je) offset hashes buf fileOffset s = some ((after, replaced), t) ∧
      written = offsetInBuf + buf.length := by
  induction hashes generalizing s after replaced buf fileOffset offsetInBuf with
  | nil =>
    obtain ⟨_, mid, asserted, rest⟩ := Tried.run_lift_bind.mp ran
    obtain ⟨empty, _⟩ := Run.assert_eq_some.mp asserted
    cases rest
    rw [Filesystem.writeLoop, Run.bind_of_some asserted, empty]
    exact ⟨rfl, rfl⟩
  | cons first hashes ih =>
    rw [writeLoop] at ran
    rw [Filesystem.writeLoop]
    split at ran
    · rename_i here
      rw [if_pos here]
      dsimp only at ran ⊢
      obtain ⟨n, amount⟩ : ∃ n, n = min (List.length buf) (chunkSize - (offset - fileOffset)) := ⟨_, rfl⟩
      rw [← amount] at ran ⊢
      have all : offsetInBuf + n + List.length (buf.drop n) = offsetInBuf + List.length buf := by
        rw [List.length_drop]
        omega
      obtain ⟨newHsh, mid, wrote, rest⟩ := Tried.run_bind_some.mp ran
      have plain : (Storage.hashOps sha je).write first (offset - fileOffset) (buf.take n) s = some (newHsh, mid) := (mirrors_writeHash _ _ _).returns _ _ _ wrote
      rw [Run.bind_of_some plain]
      cases newHsh with
      | some newHsh =>
        obtain ⟨_, mid₂, inc, rest⟩ := Tried.run_lift_bind.mp rest
        obtain ⟨⟨after₁, replaced₁, written₁⟩, last, looped, rest⟩ := Tried.run_bind_some.mp rest
        cases rest
        obtain ⟨loop, count⟩ := ih looped
        dsimp only
        rw [Run.bind_of_some (show (Storage.hashOps sha je).incRefCnt newHsh 1 mid = some ((), mid₂) from inc), Run.bind_of_some loop]
        exact ⟨rfl, count.trans all⟩
      | none =>
        obtain ⟨⟨after₁, replaced₁, written₁⟩, last, looped, rest⟩ := Tried.run_bind_some.mp rest
        cases rest
        obtain ⟨loop, count⟩ := ih looped
        dsimp only
        rw [Run.bind_of_some loop]
        exact ⟨rfl, count.trans all⟩
    · rename_i elsewhere
      rw [if_neg elsewhere]
      obtain ⟨⟨after₁, replaced₁, written₁⟩, last, looped, rest⟩ := Tried.run_bind_some.mp ran
      cases rest
      obtain ⟨loop, count⟩ := ih looped
      rw [Run.bind_of_some loop]
      exact ⟨rfl, count⟩

/-- The loop over other hashes that gets to its end has its like here, unless something throws. -/
theorem writeLoop_follows {offset : Nat} {hashes after : List Nat} {replaced : List (Nat × Nat)} {buf : Str} {fileOffset offsetInBuf : Nat}
    (ran : Filesystem.writeLoop (Storage.hashOps sha je) offset hashes buf fileOffset s = some ((after, replaced), t)) :
    (writeLoop sha unreadable offset hashes buf fileOffset offsetInBuf).run s = some (some (after, replaced, offsetInBuf + buf.length), t) ∨
      ∃ u, (writeLoop sha unreadable offset hashes buf fileOffset offsetInBuf).run s = some (none, u) := by
  induction hashes generalizing s after replaced buf fileOffset offsetInBuf with
  | nil =>
    obtain ⟨_, mid, asserted, rest⟩ := Run.bind_eq_some.mp ran
    obtain ⟨empty, _⟩ := Run.assert_eq_some.mp asserted
    cases rest
    subst empty
    exact Or.inl (Tried.run_lift_bind.mpr ⟨(), t, asserted, rfl⟩)
  | cons first hashes ih =>
    rw [Filesystem.writeLoop] at ran
    rw [writeLoop]
    split at ran
    · rename_i here
      rw [if_pos here]
      dsimp only at ran ⊢
      obtain ⟨n, amount⟩ : ∃ n, n = min (List.length buf) (chunkSize - (offset - fileOffset)) := ⟨_, rfl⟩
      rw [← amount] at ran ⊢
      have all : offsetInBuf + n + List.length (buf.drop n) = offsetInBuf + List.length buf := by
        rw [List.length_drop]
        omega
      obtain ⟨newHsh, mid, wrote, rest⟩ := Run.bind_eq_some.mp ran
      cases (mirrors_writeHash first (offset - fileOffset) (buf.take n)).follows s newHsh mid wrote with
      | inr thrown =>
        obtain ⟨u, thrown⟩ := thrown
        exact Or.inr ⟨u, Tried.run_bind.mpr (Or.inr ⟨thrown, rfl⟩)⟩
      | inl returned =>
        cases newHsh with
        | some newHsh =>
          obtain ⟨_, mid₂, inc, rest⟩ := Run.bind_eq_some.mp rest
          obtain ⟨⟨after₁, replaced₁⟩, last, looped, rest⟩ := Run.bind_eq_some.mp rest
          cases rest
          apply (@ih mid₂ after₁ replaced₁ (buf.drop n) (fileOffset + chunkSize) (offsetInBuf + n) looped).imp
          · intro later
            rw [all] at later
            refine Tried.run_bind_some.mpr ⟨_, mid, returned, Tried.run_lift_bind.mpr ⟨(), mid₂, inc, ?_⟩⟩
            exact Tried.run_bind_some.mpr ⟨_, _, later, rfl⟩
          · rintro ⟨u, later⟩
            refine ⟨u, Tried.run_bind.mpr (Or.inl ⟨_, mid, returned, Tried.run_lift_bind.mpr ⟨(), mid₂, inc, ?_⟩⟩)⟩
            exact Tried.run_bind.mpr (Or.inr ⟨later, rfl⟩)
        | none =>
          obtain ⟨⟨after₁, replaced₁⟩, last, looped, rest⟩ := Run.bind_eq_some.mp rest
          cases rest
          apply (@ih mid after₁ replaced₁ (buf.drop n) (fileOffset + chunkSize) (offsetInBuf + n) looped).imp
          · intro later
            rw [all] at later
            exact Tried.run_bind_some.mpr ⟨_, mid, returned, Tried.run_bind_some.mpr ⟨_, _, later, rfl⟩⟩
          · rintro ⟨u, later⟩
            exact ⟨u, Tried.run_bind.mpr (Or.inl ⟨_, mid, returned, Tried.run_bind.mpr (Or.inr ⟨later, rfl⟩)⟩)⟩
    · rename_i elsewhere
      rw [if_neg elsewhere]
      obtain ⟨⟨after₁, replaced₁⟩, last, looped, rest⟩ := Run.bind_eq_some.mp ran
      cases rest
      apply (@ih s _ _ buf (fileOffset + chunkSize) offsetInBuf looped).imp
      · exact fun later => Tried.run_bind_some.mpr ⟨_, _, later, rfl⟩
      · rintro ⟨u, later⟩
        exact ⟨u, Tried.run_bind.mpr (Or.inr ⟨later, rfl⟩)⟩

theorem writeLoop_unchanged {offset : Nat} {hashes after : List Nat} {buf : Str} {fileOffset : Nat}
    (ran : Filesystem.writeLoop (Storage.hashOps sha je) offset hashes buf fileOffset s = some ((after, []), t)) : after = hashes := by
  induction hashes generalizing s after buf fileOffset with
  | nil =>
    obtain ⟨_, _, _, rest⟩ := Run.bind_eq_some.mp ran
    cases rest
    rfl
  | cons first hashes ih =>
    rw [Filesystem.writeLoop] at ran
    split at ran
    · obtain ⟨newHsh, _, _, rest⟩ := Run.bind_eq_some.mp ran
      cases newHsh with
      | some newHsh =>
        obtain ⟨_, _, _, rest⟩ := Run.bind_eq_some.mp rest
        obtain ⟨_, _, _, rest⟩ := Run.bind_eq_some.mp rest
        cases rest
      | none =>
        obtain ⟨⟨after₁, replaced₁⟩, _, loop, rest⟩ := Run.bind_eq_some.mp rest
        cases rest
        rw [ih loop]
    · obtain ⟨⟨after₁, replaced₁⟩, _, loop, rest⟩ := Run.bind_eq_some.mp ran
      cases rest
      rw [ih loop]

theorem mirrors_release (replaced : List (Nat × Nat)) : Tried.Mirrors (release unreadable je replaced) (do
    replaced.forM (fun pair => Storage.decRefCnt pair.1)
    Storage.addChange je (replaced.flatMap (fun pair => [pair.2, pair.1]))) :=
  Tried.Mirrors.bind (Tried.Mirrors.forM (fun pair : Nat × Nat => mirrors_decRefCnt pair.1) replaced) (fun _ => Tried.Mirrors.lift _)

/-- A write that nothing throws out of does what a write does over buckets that can all be read, and
the other way around. -/
theorem tryWrite_returns {f after : OpenFile Nat} {buf : Str} {offset written : Nat}
    (ran : tryWrite sha unreadable je f buf offset s = some ((after, some written), t)) :
    written = buf.length ∧ ∃ n, Filesystem.writeData (Storage.hashOps sha je) f.data buf offset s = some ((after.data, n), t) ∧
      after = { f with data := after.data, numHashWrites := f.numHashWrites + n } := by
  obtain ⟨_, _, grows, rest⟩ := Run.bind_eq_some.mp ran
  obtain ⟨_, s₁, paid, rest⟩ := Run.bind_eq_some.mp rest
  obtain ⟨_, _, window, rest⟩ := Run.bind_eq_some.mp rest
  obtain ⟨looped, s₂, loop, rest⟩ := Run.bind_eq_some.mp rest
  obtain ⟨_, rfl⟩ := Run.assert_eq_some.mp grows
  obtain ⟨_, rfl⟩ := Run.assert_eq_some.mp window
  obtain ⟨list, listShape⟩ : ∃ l, l = grown Storage.zeroHash f.data.hashList (numHashes f.data.size buf.length offset) := ⟨_, rfl⟩
  cases looped with
  | none => cases rest
  | some result =>
    obtain ⟨new, replaced, count⟩ := result
    obtain ⟨plain, all⟩ := @writeLoop_returns sha unreadable je _ _ _ _ _ _ _ _ _ _ loop
    have same : grown (Storage.hashOps sha je).zeroHash f.data.hashList (numHashes f.data.size buf.length offset) = list := listShape.symm
    unfold afterLoop at rest
    dsimp only at window plain rest
    rw [← listShape] at window plain rest
    rw [writeData_eq, Run.bind_of_some grows, Run.bind_of_some paid]
    rw [same, Run.bind_of_some window, Run.bind_of_some plain]
    dsimp only
    split at rest
    · rename_i unchanged
      subst unchanged
      have kept := writeLoop_unchanged plain
      cases rest
      refine ⟨by omega, 0, ?_, rfl⟩
      rw [kept, windowOf_split]
      rfl
    · rename_i changed
      obtain ⟨released, s₃, freed, rest⟩ := Run.bind_eq_some.mp rest
      cases released with
      | none => cases rest
      | some _ =>
        cases rest
        obtain ⟨_, mid, forgot, attached⟩ := Run.bind_eq_some.mp ((mirrors_release replaced).returns _ _ _ freed)
        have handed : attach (Storage.hashOps sha je) replaced mid = some ((), t) := by
          unfold attach
          rw [if_pos changed]
          exact attached
        refine ⟨by dsimp only; omega, replaced.length, ?_, rfl⟩
        change (replaced.forM (fun pair => Storage.decRefCnt pair.1) >>= _) s₂ = _
        rw [Run.bind_of_some forgot, Run.bind_of_some handed]
        rfl

theorem tryWrite_follows {f : OpenFile Nat} {data : FileData Nat} {buf : Str} {offset n : Nat}
    (ran : Filesystem.writeData (Storage.hashOps sha je) f.data buf offset s = some ((data, n), t)) :
    tryWrite sha unreadable je f buf offset s = some (({ f with data := data, numHashWrites := f.numHashWrites + n }, some buf.length), t) ∨
      ∃ after u, tryWrite sha unreadable je f buf offset s = some ((after, none), u) := by
  rw [writeData_eq] at ran
  obtain ⟨_, _, grows, rest⟩ := Run.bind_eq_some.mp ran
  obtain ⟨_, s₁, paid, rest⟩ := Run.bind_eq_some.mp rest
  obtain ⟨_, _, window, rest⟩ := Run.bind_eq_some.mp rest
  obtain ⟨⟨new, replaced⟩, s₂, loop, later⟩ := Run.bind_eq_some.mp rest
  obtain ⟨_, rfl⟩ := Run.assert_eq_some.mp grows
  obtain ⟨_, rfl⟩ := Run.assert_eq_some.mp window
  obtain ⟨list, listShape⟩ : ∃ l, l = grown Storage.zeroHash f.data.hashList (numHashes f.data.size buf.length offset) := ⟨_, rfl⟩
  have same : grown (Storage.hashOps sha je).zeroHash f.data.hashList (numHashes f.data.size buf.length offset) = list := listShape.symm
  rw [same] at window loop later
  have start : tryWrite sha unreadable je f buf offset s = ((writeLoop sha unreadable offset (windowOf list buf.length offset) buf
      (offset / chunkSize * chunkSize) 0).run >>= afterLoop unreadable je { f with data := ⟨max f.data.size (offset + buf.length), list⟩ }
        (offset / chunkSize) (numHashesInWrite buf.length offset)) s₁ := by
    rw [tryWrite, Run.bind_of_some grows, Run.bind_of_some paid, ← listShape]
    dsimp only
    rw [Run.bind_of_some window]
  rw [start]
  cases @writeLoop_follows sha unreadable je _ _ _ _ _ _ _ _ 0 loop with
  | inr thrown =>
    obtain ⟨u, thrown⟩ := thrown
    rw [Run.bind_of_some thrown]
    exact Or.inr ⟨_, u, rfl⟩
  | inl returned =>
    rw [Run.bind_of_some returned, Nat.zero_add]
    unfold afterLoop
    dsimp only
    split
    · rename_i unchanged
      subst unchanged
      have kept := writeLoop_unchanged loop
      cases later
      left
      dsimp only
      rw [kept, windowOf_split]
      rfl
    · rename_i changed
      obtain ⟨_, mid, dropped, last⟩ := Run.bind_eq_some.mp later
      obtain ⟨_, _, attached, last⟩ := Run.bind_eq_some.mp last
      cases last
      unfold attach at attached
      rw [if_pos changed] at attached
      cases (mirrors_release replaced).follows s₂ () t (Run.bind_eq_some.mpr ⟨_, mid, dropped, attached⟩) with
      | inr thrown =>
        obtain ⟨u, thrown⟩ := thrown
        rw [Run.bind_of_some thrown]
        exact Or.inr ⟨_, u, rfl⟩
      | inl freed =>
        rw [Run.bind_of_some freed]
        exact Or.inl rfl

end Mirrors

end Throwing

end CloudCryptFS.Filesystem
