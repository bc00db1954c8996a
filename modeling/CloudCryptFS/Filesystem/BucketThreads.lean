import CloudCryptFS.Filesystem.BucketFiles
import CloudCryptFS.Util.Schedule

/-! Threads on one bucket. A put takes no lock: it loads the two arrays, counts its change
and only then writes its slots. A store holds the mutex, and so does the loading of an
array, but neither keeps a put from going on. -/

namespace CloudCryptFS.Filesystem
open Util Bytes Script.Lexer

/-- The next step of a call of `putHashAndChunk`. -/
inductive PutStage where
  | loadHashes
  | loadChunks
  | countChunk
  | countHash
  | writeHash
  | writeChunk
  deriving DecidableEq

/-- A call of `putHashAndChunk`; `array` is the array of chunks that it has loaded. -/
structure Put where
  id : SlotIndex
  hash : HashRecord
  chunk : Chunk
  stage : PutStage
  array : Nat

namespace Put

/-- The call has loaded an array of chunks. -/
def Holds (p : Put) : Prop := p.stage ≠ .loadHashes ∧ p.stage ≠ .loadChunks

/-- The call has counted its change, and has not written both slots yet. -/
def Counted (p : Put) : Prop := p.stage = .writeHash ∨ p.stage = .writeChunk

/-- The call has counted its change of a chunk, of a hash. -/
def changedChunk (p : Put) : Bool := p.stage = .countHash ∨ p.stage = .writeHash ∨ p.stage = .writeChunk
def changedHash (p : Put) : Bool := p.stage = .writeHash ∨ p.stage = .writeChunk

theorem Counted.holds {p : Put} (counted : p.Counted) : p.Holds := by
  rcases counted with stage | stage <;> rw [Holds, stage] <;> decide

/-- A put that has not ended, with the arrays of the bucket and its count of changes. -/
structure Going (hashes : Option (SlotIndex → Option HashRecord)) (chunks : Option Nat) (count : Int) (p : Put) : Prop where
  unloaded : hashes = none → p.stage = .loadHashes
  attached : p.Holds → chunks = some p.array
  counted : p.Counted → 0 < count
  wrote : p.stage = .writeChunk → ∃ H, hashes = some H ∧ H p.id = some p.hash

/-- A put that has ended. -/
structure Ended (hashes : Option (SlotIndex → Option HashRecord)) (view : SlotIndex → Chunk) (settled : Prop) (p : Put) : Prop where
  hash : ∃ H, hashes = some H ∧ H p.id = some p.hash
  chunk : view p.id = p.chunk
  settled : settled

end Put

/-- The next step of a store that holds the mutex, with what it has loaded. -/
inductive StoreStage where
  | exchange
  | loadHashes (C : Option Nat)
  | reset (C : Option Nat)
  | serialise (C : Option Nat)
  | write (C : Option (SlotIndex → Chunk)) (H : SlotIndex → Option HashRecord)

/-- A bucket that is shared by threads. Arrays of chunks stay where they are when the
bucket lets go of them; the array of hashes is never replaced. -/
structure Threads (P : Protocol) where
  filenamebase : Str
  key : P.Key
  files : Files
  hashes : Option (SlotIndex → Option HashRecord)
  arrays : Nat → SlotIndex → Chunk
  allocated : Nat
  chunks : Option Nat
  chunkChangesSinceLoad : Int
  hashChangesSinceLoad : Int
  puts : List Put
  storing : Option (Bool × StoreStage)
  finished : List Put

inductive ThreadStep (P : Protocol) where
  | put (id : SlotIndex) (h : HashRecord) (c : Chunk)
  | next (call : Nat)
  | store (clearCache : Bool)
  | storeNext (ivChunks ivHashes : P.IV)

namespace Threads
variable {P : Protocol}

/-- The bucket as one thread sees it. -/
def bucket (s : Threads P) : Bucket P where
  filenamebase := s.filenamebase
  key := s.key
  chunks := s.chunks.map s.arrays
  hashes := s.hashes
  chunkChangesSinceLoad := s.chunkChangesSinceLoad
  hashChangesSinceLoad := s.hashChangesSinceLoad

def create (b : Bucket P) (files : Files) : Threads P :=
  ⟨b.filenamebase, b.key, files, none, fun _ _ => .zero, 0, none, 0, 0, [], none, []⟩

/-- A put goes on to its next step. -/
def advance (call : Nat) (p : Put) (s : Threads P) : Threads P := { s with puts := s.puts.set call p }

/-- One step of a put. What is not loaded is loaded under the mutex. -/
def stepPut (call : Nat) (p : Put) (s : Threads P) : Option (Threads P) :=
  match p.stage with
  | .loadHashes =>
    match s.hashes with
    | some _ => some (s.advance call { p with stage := .loadChunks })
    | none =>
      if s.storing.isSome then none
      else (s.bucket.storedHashes s.files).map (fun H =>
        { s with hashes := some H, hashChangesSinceLoad := 0 }.advance call { p with stage := .loadChunks })
  | .loadChunks =>
    match s.chunks with
    | some a => some (s.advance call { p with stage := .countChunk, array := a })
    | none =>
      if s.storing.isSome then none
      else (s.bucket.storedChunks s.files).map (fun C =>
        { s with
          arrays := Function.update s.arrays s.allocated C
          allocated := s.allocated + 1
          chunks := some s.allocated
          chunkChangesSinceLoad := 0 }.advance call { p with stage := .countChunk, array := s.allocated })
  | .countChunk =>
    some ({ s with chunkChangesSinceLoad := Bucket.increment s.chunkChangesSinceLoad }.advance call { p with stage := .countHash })
  | .countHash =>
    some ({ s with hashChangesSinceLoad := Bucket.increment s.hashChangesSinceLoad }.advance call { p with stage := .writeHash })
  | .writeHash =>
    some ({ s with hashes := s.hashes.map (fun H => Function.update H p.id (some p.hash)) }.advance call { p with stage := .writeChunk })
  | .writeChunk =>
    some { s with
      arrays := Function.update s.arrays p.array (Function.update (s.arrays p.array) p.id p.chunk)
      puts := s.puts.eraseIdx call
      finished := s.finished ++ [p] }

/-- One step of the store that holds the mutex. -/
def stepStore (clearCache : Bool) (stage : StoreStage) (ivChunks ivHashes : P.IV) (s : Threads P) : Option (Threads P) :=
  match stage with
  | .exchange =>
    some { s with chunks := if clearCache then none else s.chunks, storing := some (clearCache, .loadHashes s.chunks) }
  | .loadHashes C => if s.hashes.isSome then some { s with storing := some (clearCache, .reset C) } else none
  | .reset C =>
    some { s with hashChangesSinceLoad := 0, chunkChangesSinceLoad := 0, storing := some (clearCache, .serialise C) }
  | .serialise C => s.hashes.map (fun H => { s with storing := some (clearCache, .write (C.map s.arrays) H) })
  | .write C H =>
    (Bucket.writeOut C H ivChunks ivHashes (s.bucket, s.files)).map (fun result => { s with files := result.2.2, storing := none })

/-- A slot is put once. -/
def Fresh (id : SlotIndex) (s : Threads P) : Prop := ∀ p ∈ s.puts ++ s.finished, p.id ≠ id

instance (id : SlotIndex) (s : Threads P) : Decidable (s.Fresh id) :=
  inferInstanceAs (Decidable (∀ p ∈ s.puts ++ s.finished, p.id ≠ id))

def step : ThreadStep P → Threads P → Option (Threads P)
  | .put id h c, s => if s.Fresh id then some { s with puts := s.puts ++ [⟨id, h, c, .loadHashes, 0⟩] } else none
  | .next call, s => s.puts[call]?.bind (fun p => s.stepPut call p)
  | .store clearCache, s =>
    if s.storing.isSome then none
    else if s.hashChangesSinceLoad > 0 ∨ s.chunkChangesSinceLoad > 0 then some { s with storing := some (clearCache, .exchange) }
    else some s
  | .storeNext ivChunks ivHashes, s => s.storing.bind (fun storing => s.stepStore storing.1 storing.2 ivChunks ivHashes)

abbrev run : List (ThreadStep P) → Threads P → Option (Threads P) := Schedule.run step

/-- A store lets go of the chunks when no put holds them, and resets the counters when no
put that is counted has still to write. -/
def Ordered (s : Threads P) : ThreadStep P → Prop
  | .storeNext _ _ =>
    match s.storing with
    | some (true, .exchange) => ∀ p ∈ s.puts, ¬p.Holds
    | some (_, .reset _) => ∀ p ∈ s.puts, ¬p.Counted
    | _ => True
  | _ => True

abbrev OrderedRun : List (ThreadStep P) → Threads P → Prop := Schedule.OrderedRun step Ordered

/-- A store from its beginning to its end, with no other thread in between. -/
def storeWhole (clearCache : Bool) (ivChunks ivHashes : P.IV) (s : Threads P) : List (ThreadStep P) :=
  if s.hashChangesSinceLoad > 0 ∨ s.chunkChangesSinceLoad > 0 then
    .store clearCache :: List.replicate 5 (.storeNext ivChunks ivHashes)
  else [.store clearCache]

/-- The files, `getHash` and `getChunk` show what has been put. -/
structure Shows (s : Threads P) (p : Put) : Prop where
  hashes : ∃ D, s.bucket.storedHashes s.files = some D ∧ D p.id = (some p.hash).filter HashRecord.counted
  chunks : ∃ E, s.bucket.storedChunks s.files = some E ∧ E p.id = p.chunk
  getHash : ∃ t, Bucket.getHash p.id (s.bucket, s.files) = some (some p.hash, t)
  getChunk : ∃ t, Bucket.getChunk p.id (s.bucket, s.files) = some (p.chunk, t)

section Invariant
variable {s t : Threads P}

/-- The chunks that a store has taken and not written yet. -/
def storeView (s : Threads P) : Option (SlotIndex → Chunk) :=
  match s.storing with
  | some (_, .loadHashes C) => C.map s.arrays
  | some (_, .reset C) => C.map s.arrays
  | some (_, .serialise C) => C.map s.arrays
  | some (_, .write C _) => C
  | _ => none

/-- The chunks as they are read, now or after the store that goes on. -/
def view (E : SlotIndex → Chunk) (s : Threads P) : SlotIndex → Chunk :=
  match s.chunks with
  | some a => s.arrays a
  | none => s.storeView.getD E

/-- A put is in the files, or the store that goes on takes it there. -/
def Pending (D : SlotIndex → Option HashRecord) (E : SlotIndex → Chunk) (s : Threads P) (p : Put) : Prop :=
  match s.storing with
  | some (_, .serialise _) => True
  | some (_, .write C H) => H p.id = some p.hash ∧ C.getD E p.id = p.chunk
  | _ => D p.id = (some p.hash).filter HashRecord.counted ∧ E p.id = p.chunk

/-- What the bucket still has of the array that a store has exchanged. -/
def Exchanged (s : Threads P) : Prop :=
  match s.storing with
  | some (clearCache, .loadHashes C) => s.chunks = if clearCache then none else C
  | some (clearCache, .reset C) => s.chunks = if clearCache then none else C
  | some (clearCache, .serialise C) => s.chunks = if clearCache then none else C
  | some (clearCache, .write C H) =>
    (clearCache = true → s.chunks = none ∧ ∀ p ∈ s.finished, H p.id = some p.hash) ∧
      (clearCache = false → s.chunks = none → C = none)
  | _ => True

structure Inv (s : Threads P) : Prop where
  positive : 0 ≤ s.hashChangesSinceLoad ∧ 0 ≤ s.chunkChangesSinceLoad
  unloaded : s.hashes = none → s.hashChangesSinceLoad = 0 ∧ s.chunkChangesSinceLoad = 0 ∧ s.storing = none ∧ s.finished = []
  distinct : ((s.puts ++ s.finished).map Put.id).Nodup
  puts : ∀ p ∈ s.puts, p.Going s.hashes s.chunks s.hashChangesSinceLoad
  exchanged : s.Exchanged
  stored : ∃ D E, s.bucket.storedHashes s.files = some D ∧ s.bucket.storedChunks s.files = some E ∧
    ∀ p ∈ s.finished, p.Ended s.hashes (s.view E) (0 < s.hashChangesSinceLoad ∨ s.Pending D E p)

theorem inv_create {b : Bucket P} {files : Files} {D : SlotIndex → Option HashRecord} {E : SlotIndex → Chunk}
    (hashes : b.storedHashes files = some D) (chunks : b.storedChunks files = some E) : (create b files).Inv := by
  refine ⟨⟨le_rfl, le_rfl⟩, fun _ => ⟨rfl, rfl, rfl, rfl⟩, List.nodup_nil, ?_, trivial, D, E, hashes, chunks, ?_⟩
  · exact fun p none => absurd none List.not_mem_nil
  · exact fun p none => absurd none List.not_mem_nil

theorem mem_advance {call : Nat} {p q : Put} (member : q ∈ (s.advance call p).puts) : q ∈ s.puts ∨ q = p :=
  List.mem_or_eq_of_mem_set member

/-- The ids stay when a put goes on. -/
theorem ids_advance {call : Nat} {p p' : Put} (found : s.puts[call]? = some p) (same : p'.id = p.id) :
    (s.puts.set call p').map Put.id = s.puts.map Put.id := by
  obtain ⟨inside, here⟩ := List.getElem?_eq_some_iff.mp found
  rw [List.map_set, same, ← here]
  conv_rhs => rw [← @List.set_getElem_self _ (s.puts.map Put.id) call (by rwa [List.length_map])]
  rw [List.getElem_map]

theorem id_ne_finished (inv : s.Inv) {p q : Put} (inPuts : p ∈ s.puts) (inFinished : q ∈ s.finished) : p.id ≠ q.id := by
  have distinct := inv.distinct
  rw [List.map_append] at distinct
  intro same
  exact List.disjoint_of_nodup_append distinct (List.mem_map_of_mem inPuts) (same ▸ List.mem_map_of_mem inFinished)

theorem eq_of_id_eq (inv : s.Inv) {p q : Put} (first : p ∈ s.puts) (second : q ∈ s.puts) (same : p.id = q.id) : p = q := by
  have distinct := inv.distinct
  rw [List.map_append] at distinct
  exact List.inj_on_of_nodup_map (List.nodup_append.mp distinct).1 first second same

theorem distinct_advance (inv : s.Inv) {call : Nat} {p p' : Put} (found : s.puts[call]? = some p) (same : p'.id = p.id) :
    ((s.puts.set call p' ++ s.finished).map Put.id).Nodup := by
  rw [List.map_append, ids_advance found same, ← List.map_append]
  exact inv.distinct

/-- A put that only goes on. -/
theorem inv_advance (inv : s.Inv) {call : Nat} {p p' : Put} (found : s.puts[call]? = some p) (same : p'.id = p.id) (ok : p'.Going s.hashes s.chunks s.hashChangesSinceLoad) :
    (s.advance call p').Inv := by
  refine ⟨inv.positive, inv.unloaded, distinct_advance inv found same, ?_, inv.exchanged, inv.stored⟩
  intro q member
  rcases mem_advance member with old | rfl
  · exact inv.puts q old
  · exact ok

theorem inv_loadHashes (inv : s.Inv) {call : Nat} {p : Put} (found : s.puts[call]? = some p) (stage : p.stage = .loadHashes)
    (ran : s.stepPut call p = some t) : t.Inv := by
  simp only [stepPut, stage] at ran
  cases loaded : s.hashes with
  | some H =>
    rw [loaded] at ran
    cases ran
    refine inv_advance inv found rfl ⟨fun none => ?_, fun holds => absurd rfl holds.2, fun counted => ?_, fun wrote => by cases wrote⟩
    · rw [loaded] at none
      cases none
    · exact absurd rfl counted.holds.2
  | none =>
    obtain ⟨zeroHashes, zeroChunks, idle, noneFinished⟩ := inv.unloaded loaded
    rw [loaded, idle] at ran
    dsimp only at ran
    rw [if_neg (by decide)] at ran
    obtain ⟨H, read, rfl⟩ := Option.map_eq_some_iff.mp ran
    obtain ⟨D, E, hashes, chunks, _⟩ := inv.stored
    refine ⟨⟨le_rfl, inv.positive.2⟩, fun none => (by cases none), distinct_advance inv found rfl, ?_, ?_, D, E, hashes, chunks, ?_⟩
    · intro q member
      rcases mem_advance member with old | rfl
      · have early := (inv.puts q old).unloaded loaded
        refine ⟨fun _ => early, fun holds => absurd early holds.1, fun counted => absurd early counted.holds.1, fun wrote => ?_⟩
        rw [early] at wrote
        cases wrote
      · exact ⟨fun none => (by cases none), fun holds => absurd rfl holds.2, fun counted => absurd rfl counted.holds.2, fun wrote => (by cases wrote)⟩
    · trivial
    · intro q member
      change q ∈ s.finished at member
      rw [noneFinished] at member
      cases member

theorem inv_loadChunks (inv : s.Inv) {call : Nat} {p : Put} (found : s.puts[call]? = some p) (stage : p.stage = .loadChunks)
    (ran : s.stepPut call p = some t) : t.Inv := by
  have ok := inv.puts p (List.mem_of_getElem? found)
  have loaded : s.hashes ≠ none := by
    intro none
    have early := ok.unloaded none
    rw [stage] at early
    cases early
  simp only [stepPut, stage] at ran
  cases cached : s.chunks with
  | some a =>
    rw [cached] at ran
    cases ran
    exact inv_advance inv found rfl
      ⟨fun none => absurd none loaded, fun _ => cached, fun counted => (by rcases counted with h | h <;> cases h), fun wrote => (by cases wrote)⟩
  | none =>
    rw [cached] at ran
    dsimp only at ran
    cases storing : s.storing with
    | some _ =>
      rw [storing] at ran
      cases ran
    | none =>
      rw [storing, if_neg (by decide)] at ran
      obtain ⟨C, read, rfl⟩ := Option.map_eq_some_iff.mp ran
      obtain ⟨D, E, hashes, chunks, finished⟩ := inv.stored
      obtain rfl : E = C := Option.some.inj (chunks.symm.trans read)
      refine ⟨⟨inv.positive.1, le_rfl⟩, fun none => absurd none loaded, distinct_advance inv found rfl, ?_, ?_, D, E, hashes, chunks, ?_⟩
      · intro q member
        rcases mem_advance member with old | rfl
        · have before := inv.puts q old
          refine ⟨before.unloaded, fun holds => ?_, before.counted, before.wrote⟩
          rw [cached] at before
          cases before.attached holds
        · exact ⟨fun none => absurd none loaded, fun _ => rfl, fun counted => (by rcases counted with h | h <;> cases h), fun wrote => (by cases wrote)⟩
      · trivial
      · intro q member
        have before := finished q member
        have settled := before.settled
        unfold Pending at settled
        rw [storing] at settled
        refine ⟨before.hash, ?_, settled⟩
        have chunk := before.chunk
        unfold view storeView at chunk
        rw [cached, storing] at chunk
        exact (congrFun (Function.update_self _ _ _) q.id).trans chunk

theorem inv_countChunk (inv : s.Inv) {call : Nat} {p : Put} (found : s.puts[call]? = some p) (stage : p.stage = .countChunk)
    (small : s.chunkChangesSinceLoad < 2 ^ 31 - 1) (ran : s.stepPut call p = some t) : t.Inv := by
  have ok := inv.puts p (List.mem_of_getElem? found)
  simp only [stepPut, stage] at ran
  cases ran
  have count := Bucket.increment_eq inv.positive.2 small
  have positive := inv.positive
  have loaded : s.hashes ≠ none := by
    intro none
    have early := ok.unloaded none
    rw [stage] at early
    cases early
  refine ⟨⟨positive.1, ?_⟩, fun none => absurd none loaded, distinct_advance inv found rfl, ?_, inv.exchanged, inv.stored⟩
  · change 0 ≤ Bucket.increment s.chunkChangesSinceLoad
    rw [count]
    omega
  · intro q member
    rcases mem_advance member with old | rfl
    · exact ⟨(inv.puts q old).unloaded, (inv.puts q old).attached, (inv.puts q old).counted, (inv.puts q old).wrote⟩
    · refine ⟨fun none => absurd none loaded, fun _ => ok.attached ?_, fun counted => (by rcases counted with h | h <;> cases h), fun wrote => (by cases wrote)⟩
      rw [Put.Holds, stage]
      decide

theorem inv_countHash (inv : s.Inv) {call : Nat} {p : Put} (found : s.puts[call]? = some p) (stage : p.stage = .countHash)
    (small : s.hashChangesSinceLoad < 2 ^ 31 - 1) (ran : s.stepPut call p = some t) : t.Inv := by
  have ok := inv.puts p (List.mem_of_getElem? found)
  simp only [stepPut, stage] at ran
  cases ran
  have count := Bucket.increment_eq inv.positive.1 small
  have positive := inv.positive
  have more : 0 < Bucket.increment s.hashChangesSinceLoad := by
    rw [count]
    omega
  have loaded : s.hashes ≠ none := by
    intro none
    have early := ok.unloaded none
    rw [stage] at early
    cases early
  obtain ⟨D, E, hashes, chunks, finished⟩ := inv.stored
  refine ⟨⟨more.le, positive.2⟩, fun none => absurd none loaded, distinct_advance inv found rfl, ?_, inv.exchanged, D, E, hashes, chunks, ?_⟩
  · intro q member
    rcases mem_advance member with old | rfl
    · exact ⟨(inv.puts q old).unloaded, (inv.puts q old).attached, fun _ => more, (inv.puts q old).wrote⟩
    · refine ⟨fun none => absurd none loaded, fun _ => ok.attached ?_, fun _ => more, fun wrote => (by cases wrote)⟩
      rw [Put.Holds, stage]
      decide
  · intro q member
    exact ⟨(finished q member).hash, (finished q member).chunk, Or.inl more⟩

theorem inv_writeHash (inv : s.Inv) {call : Nat} {p : Put} (found : s.puts[call]? = some p) (stage : p.stage = .writeHash)
    (ran : s.stepPut call p = some t) : t.Inv := by
  have inPuts := List.mem_of_getElem? found
  have ok := inv.puts p inPuts
  simp only [stepPut, stage] at ran
  cases ran
  cases loaded : s.hashes with
  | none =>
    have early := ok.unloaded loaded
    rw [stage] at early
    cases early
  | some H =>
    have holds : p.Holds := by
      rw [Put.Holds, stage]
      decide
    have other : ∀ q : Put, p.id ≠ q.id → H q.id = some q.hash → Function.update H p.id (some p.hash) q.id = some q.hash := by
      intro q different same
      rw [Function.update_of_ne different.symm]
      exact same
    obtain ⟨D, E, hashes, chunks, finished⟩ := inv.stored
    refine ⟨inv.positive, fun none => (by cases none), distinct_advance inv found rfl, ?_, inv.exchanged, D, E, hashes, chunks, ?_⟩
    · intro q member
      rcases mem_advance member with old | rfl
      · have before := inv.puts q old
        refine ⟨fun none => (by cases none), before.attached, before.counted, fun wrote => ⟨_, rfl, ?_⟩⟩
        obtain ⟨H', loaded', same⟩ := before.wrote wrote
        obtain rfl : H = H' := Option.some.inj (loaded.symm.trans loaded')
        apply other q _ same
        intro sameId
        obtain rfl := eq_of_id_eq inv inPuts old sameId
        rw [stage] at wrote
        cases wrote
      · exact ⟨fun none => (by cases none), fun _ => ok.attached holds, fun _ => ok.counted (Or.inl stage), fun _ => ⟨_, rfl, Function.update_self _ _ _⟩⟩
    · intro q member
      have before := finished q member
      refine ⟨⟨_, rfl, ?_⟩, before.chunk, before.settled⟩
      obtain ⟨H', loaded', same⟩ := before.hash
      obtain rfl : H = H' := Option.some.inj (loaded.symm.trans loaded')
      exact other q (id_ne_finished inv inPuts member) same

theorem perm_finish {call : Nat} {p : Put} (found : s.puts[call]? = some p) :
    (s.puts.eraseIdx call ++ (s.finished ++ [p])).Perm (s.puts ++ s.finished) := by
  obtain ⟨inside, here⟩ := List.getElem?_eq_some_iff.mp found
  have front : (p :: s.puts.eraseIdx call).Perm s.puts := here ▸ List.getElem_cons_eraseIdx_perm inside
  calc (s.puts.eraseIdx call ++ (s.finished ++ [p])).Perm (s.puts.eraseIdx call ++ (p :: s.finished)) :=
        (List.perm_append_singleton p s.finished).append_left _
    _ |>.Perm (p :: (s.puts.eraseIdx call ++ s.finished)) := List.perm_middle
    _ |>.Perm (s.puts ++ s.finished) := front.append_right s.finished

theorem inv_writeChunk (inv : s.Inv) {call : Nat} {p : Put} (found : s.puts[call]? = some p) (stage : p.stage = .writeChunk)
    (ran : s.stepPut call p = some t) : t.Inv := by
  have inPuts := List.mem_of_getElem? found
  have ok := inv.puts p inPuts
  simp only [stepPut, stage] at ran
  cases ran
  have holds : p.Holds := by
    rw [Put.Holds, stage]
    decide
  have attached := ok.attached holds
  have counted := ok.counted (Or.inr stage)
  obtain ⟨H, loaded, wrote⟩ := ok.wrote stage
  obtain ⟨D, E, hashes, chunks, finished⟩ := inv.stored
  have viewed : ∀ t : Threads P, t.chunks = s.chunks → t.view E = t.arrays p.array := by
    intro t same
    unfold view
    rw [same, attached]
  refine ⟨inv.positive, fun unloaded => ?_, ?_, ?_, ?_, D, E, hashes, chunks, ?_⟩
  · change s.hashes = none at unloaded
    rw [loaded] at unloaded
    cases unloaded
  · exact ((perm_finish found).map Put.id).nodup_iff.mpr inv.distinct
  · intro q member
    exact inv.puts q (List.mem_of_mem_eraseIdx member)
  · -- a store that has dropped the chunks would leave the put nothing to hold
    have before := inv.exchanged
    unfold Exchanged at before ⊢
    dsimp only at before ⊢
    split at before
    · exact before
    · exact before
    · exact before
    · refine ⟨fun clear => ?_, before.2⟩
      have gone := (before.1 clear).1
      rw [attached] at gone
      cases gone
    · trivial
  · intro q member
    refine ⟨?_, ?_, Or.inl counted⟩
    · rcases List.mem_append.mp member with old | new
      · exact (finished q old).hash
      · rw [List.mem_singleton.mp new]
        exact ⟨H, loaded, wrote⟩
    · rw [viewed]
      dsimp only
      rw [Function.update_self]
      rcases List.mem_append.mp member with old | new
      · have different := id_ne_finished inv inPuts old
        have chunk := (finished q old).chunk
        rw [viewed s rfl] at chunk
        rw [Function.update_of_ne different.symm]
        exact chunk
      · rw [List.mem_singleton.mp new, Function.update_self]
      · rfl

/-- No counter is above the number of puts that have counted. -/
structure Bounded (s : Threads P) : Prop where
  chunks : s.chunkChangesSinceLoad ≤ (s.puts ++ s.finished).countP Put.changedChunk
  hashes : s.hashChangesSinceLoad ≤ (s.puts ++ s.finished).countP Put.changedHash

theorem countP_advance {call : Nat} {p : Put} (found : s.puts[call]? = some p) (p' : Put) (f : Put → Bool) :
    (s.puts.set call p' ++ s.finished).countP f + (f p).toNat = (s.puts ++ s.finished).countP f + (f p').toNat := by
  obtain ⟨inside, here⟩ := List.getElem?_eq_some_iff.mp found
  rw [List.countP_append, List.countP_append, List.countP_set inside, here]
  have there : f p = true → 0 < s.puts.countP f := fun holds => List.countP_pos_iff.mpr ⟨p, List.mem_of_getElem? found, holds⟩
  cases first : f p with
  | true =>
    have some := there first
    cases f p' <;> simp only [if_true, if_false, Bool.false_eq_true, Bool.toNat_true, Bool.toNat_false] <;> omega
  | false => cases f p' <;> simp only [if_true, if_false, Bool.false_eq_true, Bool.toNat_true, Bool.toNat_false] <;> omega

theorem bounded_advance (bounded : s.Bounded) {call : Nat} {p p' : Put} (found : s.puts[call]? = some p)
    (puts : t.puts = s.puts) (finished : t.finished = s.finished)
    (chunks : t.chunkChangesSinceLoad + p.changedChunk.toNat ≤ s.chunkChangesSinceLoad + p'.changedChunk.toNat)
    (hashes : t.hashChangesSinceLoad + p.changedHash.toNat ≤ s.hashChangesSinceLoad + p'.changedHash.toNat) : (t.advance call p').Bounded := by
  have countChunks := countP_advance found p' Put.changedChunk
  have countHashes := countP_advance found p' Put.changedHash
  have before := bounded.chunks
  have before' := bounded.hashes
  constructor
  · dsimp only [advance]
    rw [puts, finished]
    omega
  · dsimp only [advance]
    rw [puts, finished]
    omega

/-- There are no more puts than slots, so that no counter overflows. -/
theorem Bounded.small (bounded : s.Bounded) (inv : s.Inv) : s.chunkChangesSinceLoad < 2 ^ 31 - 1 ∧ s.hashChangesSinceLoad < 2 ^ 31 - 1 := by
  have slots := inv.distinct.length_le_card
  rw [List.length_map, Fintype.card_fin, chunksInBucket] at slots
  have chunks := bounded.chunks
  have hashes := bounded.hashes
  have countChunks := List.countP_le_length (p := Put.changedChunk) (l := s.puts ++ s.finished)
  have countHashes := List.countP_le_length (p := Put.changedHash) (l := s.puts ++ s.finished)
  constructor <;> omega

theorem bounded_stepPut (inv : s.Inv) (bounded : s.Bounded) {call : Nat} {p : Put} (found : s.puts[call]? = some p)
    (ran : s.stepPut call p = some t) : t.Bounded := by
  obtain ⟨smallChunks, smallHashes⟩ := bounded.small inv
  obtain ⟨positiveHashes, positiveChunks⟩ := inv.positive
  cases stage : p.stage with
  | loadHashes =>
    simp only [stepPut, stage] at ran
    split at ran
    · cases ran
      refine bounded_advance bounded found rfl rfl ?_ ?_ <;> simp [Put.changedChunk, Put.changedHash, stage]
    · split at ran
      · cases ran
      · obtain ⟨H, _, rfl⟩ := Option.map_eq_some_iff.mp ran
        refine bounded_advance bounded found rfl rfl ?_ ?_ <;> simp [Put.changedChunk, Put.changedHash, stage, positiveHashes]
  | loadChunks =>
    simp only [stepPut, stage] at ran
    split at ran
    · cases ran
      refine bounded_advance bounded found rfl rfl ?_ ?_ <;> simp [Put.changedChunk, Put.changedHash, stage]
    · split at ran
      · cases ran
      · obtain ⟨C, _, rfl⟩ := Option.map_eq_some_iff.mp ran
        refine bounded_advance bounded found rfl rfl ?_ ?_ <;> simp [Put.changedChunk, Put.changedHash, stage, positiveChunks]
  | countChunk =>
    simp only [stepPut, stage] at ran
    cases ran
    have count := Bucket.increment_eq positiveChunks smallChunks
    refine bounded_advance bounded found rfl rfl ?_ ?_ <;> simp [Put.changedChunk, Put.changedHash, stage, count]
  | countHash =>
    simp only [stepPut, stage] at ran
    cases ran
    have count := Bucket.increment_eq positiveHashes smallHashes
    refine bounded_advance bounded found rfl rfl ?_ ?_ <;> simp [Put.changedChunk, Put.changedHash, stage, count]
  | writeHash =>
    simp only [stepPut, stage] at ran
    cases ran
    refine bounded_advance bounded found rfl rfl ?_ ?_ <;> simp [Put.changedChunk, Put.changedHash, stage]
  | writeChunk =>
    simp only [stepPut, stage] at ran
    cases ran
    exact ⟨(perm_finish found).countP_eq Put.changedChunk ▸ bounded.chunks, (perm_finish found).countP_eq Put.changedHash ▸ bounded.hashes⟩

/-- A step that is not one of a put counts nothing. -/
theorem bounded_step (inv : s.Inv) (bounded : s.Bounded) {next : ThreadStep P} (ran : s.step next = some t) : t.Bounded := by
  have positive := inv.positive
  cases next with
  | put id h c =>
    simp only [step] at ran
    split at ran
    · cases ran
      have more : ∀ f : Put → Bool,
          (s.puts ++ s.finished).countP f ≤ (s.puts ++ [(⟨id, h, c, .loadHashes, 0⟩ : Put)] ++ s.finished).countP f := by
        intro f
        rw [List.countP_append, List.countP_append, List.countP_append]
        omega
      exact ⟨bounded.chunks.trans (Int.ofNat_le.mpr (more Put.changedChunk)), bounded.hashes.trans (Int.ofNat_le.mpr (more Put.changedHash))⟩
    · cases ran
  | next call =>
    obtain ⟨p, found, stepped⟩ := Option.bind_eq_some_iff.mp ran
    exact bounded_stepPut inv bounded found stepped
  | store clearCache =>
    simp only [step] at ran
    split at ran
    · cases ran
    · split at ran
      · cases ran
        exact ⟨bounded.chunks, bounded.hashes⟩
      · cases ran
        exact bounded
  | storeNext ivChunks ivHashes =>
    obtain ⟨⟨clearCache, stage⟩, here, stepped⟩ := Option.bind_eq_some_iff.mp ran
    cases stage with
    | exchange =>
      cases stepped
      exact ⟨bounded.chunks, bounded.hashes⟩
    | loadHashes C =>
      simp only [stepStore] at stepped
      split at stepped
      · cases stepped
        exact ⟨bounded.chunks, bounded.hashes⟩
      · cases stepped
    | reset C =>
      cases stepped
      exact ⟨positive.2.trans bounded.chunks, positive.1.trans bounded.hashes⟩
    | serialise C =>
      obtain ⟨H, _, rfl⟩ := Option.map_eq_some_iff.mp stepped
      exact ⟨bounded.chunks, bounded.hashes⟩
    | write C H =>
      obtain ⟨_, _, rfl⟩ := Option.map_eq_some_iff.mp stepped
      exact ⟨bounded.chunks, bounded.hashes⟩

theorem inv_stepPut (inv : s.Inv) {call : Nat} {p : Put} (found : s.puts[call]? = some p)
    (small : s.chunkChangesSinceLoad < 2 ^ 31 - 1 ∧ s.hashChangesSinceLoad < 2 ^ 31 - 1) (ran : s.stepPut call p = some t) : t.Inv := by
  cases stage : p.stage with
  | loadHashes => exact inv_loadHashes inv found stage ran
  | loadChunks => exact inv_loadChunks inv found stage ran
  | countChunk => exact inv_countChunk inv found stage small.1 ran
  | countHash => exact inv_countHash inv found stage small.2 ran
  | writeHash => exact inv_writeHash inv found stage ran
  | writeChunk => exact inv_writeChunk inv found stage ran

theorem loaded_of_storing (inv : s.Inv) {storing : Bool × StoreStage} (here : s.storing = some storing) : s.hashes ≠ none := by
  intro unloaded
  obtain ⟨_, _, idle, _⟩ := inv.unloaded unloaded
  rw [here] at idle
  cases idle

theorem inv_exchange (inv : s.Inv) {clearCache : Bool} (here : s.storing = some (clearCache, .exchange))
    (ordered : clearCache = true → ∀ p ∈ s.puts, ¬p.Holds) :
    ({ s with chunks := if clearCache then none else s.chunks, storing := some (clearCache, .loadHashes s.chunks) } : Threads P).Inv := by
  have loaded := loaded_of_storing inv here
  obtain ⟨D, E, hashes, chunks, finished⟩ := inv.stored
  refine ⟨inv.positive, fun none => absurd none loaded, inv.distinct, ?_, rfl, D, E, hashes, chunks, ?_⟩
  · intro q member
    have before := inv.puts q member
    refine ⟨before.unloaded, fun holds => ?_, before.counted, before.wrote⟩
    cases clearCache with
    | true => exact absurd holds (ordered rfl q member)
    | false => exact before.attached holds
  · intro q member
    have before := finished q member
    have settled := before.settled
    have chunk := before.chunk
    unfold Pending at settled
    unfold view storeView at chunk
    rw [here] at settled chunk
    refine ⟨before.hash, ?_, settled⟩
    unfold view storeView
    dsimp only at chunk ⊢
    cases clearCache with
    | true =>
      cases cached : s.chunks with
      | some a =>
        rw [cached] at chunk
        exact chunk
      | none =>
        rw [cached] at chunk
        exact chunk
    | false =>
      cases cached : s.chunks with
      | some a =>
        rw [cached] at chunk
        exact chunk
      | none =>
        rw [cached] at chunk
        exact chunk

theorem inv_reset (inv : s.Inv) {clearCache : Bool} {C : Option Nat} (here : s.storing = some (clearCache, .reset C))
    (ordered : ∀ p ∈ s.puts, ¬p.Counted) :
    ({ s with hashChangesSinceLoad := 0, chunkChangesSinceLoad := 0, storing := some (clearCache, .serialise C) } : Threads P).Inv := by
  have loaded := loaded_of_storing inv here
  have exchanged := inv.exchanged
  unfold Exchanged at exchanged
  rw [here] at exchanged
  obtain ⟨D, E, hashes, chunks, finished⟩ := inv.stored
  refine ⟨⟨le_rfl, le_rfl⟩, fun none => absurd none loaded, inv.distinct, ?_, exchanged, D, E, hashes, chunks, ?_⟩
  · intro q member
    have before := inv.puts q member
    exact ⟨before.unloaded, before.attached, fun counted => absurd counted (ordered q member), before.wrote⟩
  · intro q member
    have chunk := (finished q member).chunk
    unfold view storeView at chunk
    rw [here] at chunk
    exact ⟨(finished q member).hash, chunk, Or.inr trivial⟩

theorem inv_serialise (inv : s.Inv) {clearCache : Bool} {C : Option Nat} (here : s.storing = some (clearCache, .serialise C))
    {H : SlotIndex → Option HashRecord} (loaded : s.hashes = some H) :
    ({ s with storing := some (clearCache, .write (C.map s.arrays) H) } : Threads P).Inv := by
  have exchanged := inv.exchanged
  unfold Exchanged at exchanged
  rw [here] at exchanged
  dsimp only at exchanged
  obtain ⟨D, E, hashes, chunks, finished⟩ := inv.stored
  have held : ∀ q ∈ s.finished, H q.id = some q.hash := by
    intro q member
    obtain ⟨H', loaded', same⟩ := (finished q member).hash
    obtain rfl : H = H' := Option.some.inj (loaded.symm.trans loaded')
    exact same
  refine ⟨inv.positive, fun none => ?_, inv.distinct, inv.puts, ⟨fun clear => ?_, fun keep unloaded => ?_⟩, D, E, hashes, chunks, ?_⟩
  · change s.hashes = _ at none
    rw [loaded] at none
    cases none
  · rw [clear, if_pos rfl] at exchanged
    exact ⟨exchanged, held⟩
  · rw [keep, if_neg Bool.false_ne_true] at exchanged
    change s.chunks = none at unloaded
    rw [← exchanged, unloaded]
    rfl
  · intro q member
    have chunk := (finished q member).chunk
    unfold view storeView at chunk
    rw [here] at chunk
    dsimp only at chunk
    refine ⟨(finished q member).hash, chunk, Or.inr ⟨held q member, ?_⟩⟩
    cases clearCache with
    | true =>
      rw [if_pos rfl] at exchanged
      rw [exchanged] at chunk
      exact chunk
    | false =>
      rw [if_neg Bool.false_ne_true] at exchanged
      rw [exchanged] at chunk
      cases C with
      | some a => exact chunk
      | none => exact chunk

theorem inv_write (sound : P.Sound) (inv : s.Inv) {clearCache : Bool} {C : Option (SlotIndex → Chunk)} {H : SlotIndex → Option HashRecord}
    (here : s.storing = some (clearCache, .write C H)) {ivChunks ivHashes : P.IV} {after : Bucket P × Files}
    (ran : Bucket.writeOut C H ivChunks ivHashes (s.bucket, s.files) = some ((), after)) :
    ({ s with files := after.2, storing := none } : Threads P).Inv := by
  have loaded := loaded_of_storing inv here
  have exchanged := inv.exchanged
  unfold Exchanged at exchanged
  rw [here] at exchanged
  obtain ⟨D, E, hashes, chunks, finished⟩ := inv.stored
  have written := Bucket.writeOut_spec sound ran
  by_cases held : ∃ i, (H i).isSome
  · refine ⟨inv.positive, fun none => absurd none loaded, inv.distinct, inv.puts, trivial, _, _, written.hashes held, written.chunks held E chunks, ?_⟩
    intro q member
    have before := finished q member
    have chunk := before.chunk
    have settled := before.settled
    unfold view storeView at chunk
    unfold Pending at settled
    rw [here] at chunk settled
    exact ⟨before.hash, chunk, settled.imp_right (fun both => ⟨congrArg (Option.filter _) both.1, both.2⟩)⟩
  · have empty : ∀ i, H i = none := by
      intro i
      by_contra some
      exact held ⟨i, Option.isSome_iff_ne_none.mpr some⟩
    have same : after.2 = s.files := written.empty empty
    refine ⟨inv.positive, fun none => absurd none loaded, inv.distinct, inv.puts, trivial, D, E, ?_, ?_, ?_⟩
    · rw [same]
      exact hashes
    · rw [same]
      exact chunks
    · intro q member
      have before := finished q member
      have chunk := before.chunk
      have settled := before.settled
      unfold view storeView at chunk
      unfold Pending at settled
      rw [here] at chunk settled
      dsimp only at chunk settled
      refine ⟨before.hash, ?_, settled.imp_right (fun both => ?_)⟩
      · unfold view storeView
        dsimp only
        cases cached : s.chunks with
        | some a =>
          rw [cached] at chunk
          exact chunk
        | none =>
          rw [cached] at chunk
          cases clearCache with
          | true =>
            have some := (exchanged.1 rfl).2 q member
            rw [empty] at some
            cases some
          | false =>
            rw [exchanged.2 rfl cached] at chunk
            exact chunk
      · rw [empty] at both
        cases both.1

theorem inv_step (sound : P.Sound) (inv : s.Inv) (bounded : s.Bounded) {next : ThreadStep P} (ordered : s.Ordered next) (ran : s.step next = some t) : t.Inv := by
  cases next with
  | put id h c =>
    simp only [step] at ran
    split at ran
    · rename_i fresh
      cases ran
      have added : ((s.puts ++ [(⟨id, h, c, .loadHashes, 0⟩ : Put)]) ++ s.finished).Perm (⟨id, h, c, .loadHashes, 0⟩ :: (s.puts ++ s.finished)) := by
        rw [List.append_assoc]
        exact List.perm_middle
      refine ⟨inv.positive, inv.unloaded, ?_, ?_, inv.exchanged, inv.stored⟩
      · refine (added.map Put.id).nodup_iff.mpr (List.nodup_cons.mpr ⟨fun member => ?_, inv.distinct⟩)
        obtain ⟨q, inside, same⟩ := List.mem_map.mp member
        exact fresh q inside same
      · intro q member
        rcases List.mem_append.mp member with old | new
        · exact inv.puts q old
        · rw [List.mem_singleton.mp new]
          exact ⟨fun _ => rfl, fun holds => absurd rfl holds.1, fun counted => absurd rfl counted.holds.1, fun wrote => (by cases wrote)⟩
    · cases ran
  | next call =>
    obtain ⟨p, found, stepped⟩ := Option.bind_eq_some_iff.mp ran
    exact inv_stepPut inv found (bounded.small inv) stepped
  | store clearCache =>
    simp only [step] at ran
    split at ran
    · cases ran
    · rename_i idle
      have free : s.storing = none := by simpa using idle
      split at ran
      · rename_i dirty
        cases ran
        have positive := inv.positive
        obtain ⟨D, E, hashes, chunks, finished⟩ := inv.stored
        refine ⟨inv.positive, fun unloaded => ?_, inv.distinct, inv.puts, trivial, D, E, hashes, chunks, fun q member => ?_⟩
        · obtain ⟨zero, zero', _⟩ := inv.unloaded unloaded
          omega
        · have before := finished q member
          have chunk := before.chunk
          have settled := before.settled
          unfold view storeView at chunk
          unfold Pending at settled
          rw [free] at chunk settled
          exact ⟨before.hash, chunk, settled⟩
      · cases ran
        exact inv
  | storeNext ivChunks ivHashes =>
    obtain ⟨⟨clearCache, stage⟩, here, stepped⟩ := Option.bind_eq_some_iff.mp ran
    unfold Ordered at ordered
    rw [here] at ordered
    cases stage with
    | exchange =>
      cases stepped
      cases clearCache with
      | true => exact inv_exchange inv here (fun _ => ordered)
      | false => exact inv_exchange inv here (fun clear => absurd clear Bool.false_ne_true)
    | loadHashes C =>
      simp only [stepStore] at stepped
      split at stepped
      · cases stepped
        have loaded := loaded_of_storing inv here
        have exchanged := inv.exchanged
        unfold Exchanged at exchanged
        rw [here] at exchanged
        obtain ⟨D, E, hashes, chunks, finished⟩ := inv.stored
        refine ⟨inv.positive, fun none => absurd none loaded, inv.distinct, inv.puts, exchanged, D, E, hashes, chunks, ?_⟩
        intro q member
        have before := finished q member
        have chunk := before.chunk
        have settled := before.settled
        unfold view storeView at chunk
        unfold Pending at settled
        rw [here] at chunk settled
        exact ⟨before.hash, chunk, settled⟩
      · cases stepped
    | reset C =>
      cases stepped
      refine inv_reset inv here ?_
      cases clearCache <;> exact ordered
    | serialise C =>
      obtain ⟨H, loaded, rfl⟩ := Option.map_eq_some_iff.mp stepped
      exact inv_serialise inv here loaded
    | write C H =>
      obtain ⟨⟨_, after⟩, written, rfl⟩ := Option.map_eq_some_iff.mp stepped
      exact inv_write sound inv here written

theorem inv_run (sound : P.Sound) (inv : s.Inv) (bounded : s.Bounded) {steps : List (ThreadStep P)} (ordered : OrderedRun steps s)
    (ran : run steps s = some t) : t.Inv ∧ t.Bounded :=
  Schedule.invariant_run (I := fun s => s.Inv ∧ s.Bounded)
    (fun both here stepped => ⟨inv_step sound both.1 both.2 here stepped, bounded_step both.1 both.2 stepped⟩) ⟨inv, bounded⟩ ordered ran

/-- With nothing left to store, the files and the bucket show every put that has ended. -/
theorem shows_of_settled (inv : s.Inv) (idle : s.storing = none) (settled : s.hashChangesSinceLoad = 0) {p : Put} (member : p ∈ s.finished) :
    s.Shows p := by
  obtain ⟨D, E, hashes, chunks, finished⟩ := inv.stored
  have ended := finished p member
  obtain ⟨H, loaded, hash⟩ := ended.hash
  have chunk := ended.chunk
  have stored := ended.settled
  unfold view storeView at chunk
  unfold Pending at stored
  rw [idle] at chunk stored
  obtain ⟨storedHash, storedChunk⟩ : D p.id = (some p.hash).filter HashRecord.counted ∧ E p.id = p.chunk :=
    stored.resolve_left (by omega)
  refine ⟨⟨D, hashes, storedHash⟩, ⟨E, chunks, storedChunk⟩, ⟨(s.bucket, s.files), ?_⟩, ?_⟩
  · have ran : Bucket.loadHashes (s.bucket, s.files) = some (H, (s.bucket, s.files)) := by
      unfold Bucket.loadHashes
      dsimp only [bucket]
      rw [loaded]
    rw [← hash]
    exact (Run.bind_of_some ran).trans rfl
  · cases cached : s.chunks with
    | some a =>
      rw [cached] at chunk
      have ran : Bucket.loadChunks (s.bucket, s.files) = some (s.arrays a, (s.bucket, s.files)) := by
        unfold Bucket.loadChunks
        dsimp only [bucket]
        rw [cached]
        rfl
      rw [← chunk]
      exact ⟨_, (Run.bind_of_some ran).trans rfl⟩
    | none =>
      have ran : Bucket.loadChunks (s.bucket, s.files) =
          some (E, ({ s.bucket with chunks := some E, chunkChangesSinceLoad := 0 }, s.files)) := by
        have unloaded : s.bucket.chunks = none := by rw [bucket, cached, Option.map_none]
        unfold Bucket.loadChunks
        rw [unloaded]
        exact (congrArg (Option.map _) chunks).trans rfl
      rw [← storedChunk]
      exact ⟨_, (Run.bind_of_some ran).trans rfl⟩

/-- Without a put on its way no store is too early. -/
theorem ordered_of_quiet (quiet : s.puts = []) (ivChunks ivHashes : P.IV) : s.Ordered (.storeNext ivChunks ivHashes) := by
  have nobody : ∀ p ∈ s.puts, False := by
    rw [quiet]
    exact fun p member => List.not_mem_nil member
  simp only [Ordered]
  split
  · exact fun p member => (nobody p member).elim
  · exact fun p member => (nobody p member).elim
  · trivial

theorem step_storeNext {clearCache : Bool} {stage : StoreStage} {ivChunks ivHashes : P.IV} (here : s.storing = some (clearCache, stage)) :
    s.step (.storeNext ivChunks ivHashes) = s.stepStore clearCache stage ivChunks ivHashes := by
  rw [step, here, Option.bind_some]

theorem step_write {clearCache : Bool} {C : Option (SlotIndex → Chunk)} {H : SlotIndex → Option HashRecord} {ivChunks ivHashes : P.IV}
    {after : Bucket P × Files} (here : s.storing = some (clearCache, .write C H))
    (written : Bucket.writeOut C H ivChunks ivHashes (s.bucket, s.files) = some ((), after)) :
    s.step (.storeNext ivChunks ivHashes) = some { s with files := after.2, storing := none } := by
  rw [step_storeNext here, stepStore, written, Option.map_some]

/-- A whole store from a state in which no call goes on. -/
theorem run_storeWhole (sound : P.Sound) (inv : s.Inv) (quiet : s.puts = []) (idle : s.storing = none) (clearCache : Bool)
    (ivChunks ivHashes : P.IV) :
    ∃ t, run (s.storeWhole clearCache ivChunks ivHashes) s = some t ∧ OrderedRun (s.storeWhole clearCache ivChunks ivHashes) s ∧
      t.finished = s.finished ∧ t.storing = none ∧ t.hashChangesSinceLoad = 0 := by
  unfold storeWhole
  by_cases dirty : s.hashChangesSinceLoad > 0 ∨ s.chunkChangesSinceLoad > 0
  · have loaded : ∃ H, s.hashes = some H := by
      apply Option.ne_none_iff_exists'.mp
      intro unloaded
      obtain ⟨zero, zero', _⟩ := inv.unloaded unloaded
      omega
    obtain ⟨H, loaded⟩ := loaded
    rw [if_pos dirty]
    let begun : Threads P := { s with storing := some (clearCache, .exchange) }
    let exchanged : Threads P :=
      { s with chunks := if clearCache then none else s.chunks, storing := some (clearCache, .loadHashes s.chunks) }
    let hashed : Threads P := { exchanged with storing := some (clearCache, .reset s.chunks) }
    let reset : Threads P :=
      { exchanged with hashChangesSinceLoad := 0, chunkChangesSinceLoad := 0, storing := some (clearCache, .serialise s.chunks) }
    let serialised : Threads P := { reset with storing := some (clearCache, .write (s.chunks.map s.arrays) H) }
    obtain ⟨after, written⟩ := Bucket.writeOut_runs sound (s.chunks.map s.arrays) H ivChunks ivHashes (serialised.bucket, s.files)
    let ended : Threads P := { serialised with files := after.2, storing := none }
    have first : s.step (.store clearCache) = some begun := by
      rw [step, if_neg (by rw [idle]; decide), if_pos dirty]
    have second : begun.step (.storeNext ivChunks ivHashes) = some exchanged := (step_storeNext rfl).trans rfl
    have third : exchanged.step (.storeNext ivChunks ivHashes) = some hashed := by
      rw [step_storeNext rfl, stepStore, if_pos (Option.isSome_iff_exists.mpr ⟨H, loaded⟩)]
    have fourth : hashed.step (.storeNext ivChunks ivHashes) = some reset := (step_storeNext rfl).trans rfl
    have fifth : reset.step (.storeNext ivChunks ivHashes) = some serialised := by
      rw [step_storeNext rfl, stepStore]
      exact (congrArg (Option.map _) loaded).trans rfl
    have sixth : serialised.step (.storeNext ivChunks ivHashes) = some ended := step_write rfl written
    refine ⟨ended, ?_, ?_, rfl, rfl, rfl⟩
    · calc run (.store clearCache :: List.replicate 5 (.storeNext ivChunks ivHashes)) s
        _ = run (List.replicate 5 (.storeNext ivChunks ivHashes)) begun := Schedule.run_cons first
        _ = run (List.replicate 4 (.storeNext ivChunks ivHashes)) exchanged := Schedule.run_cons second
        _ = run (List.replicate 3 (.storeNext ivChunks ivHashes)) hashed := Schedule.run_cons third
        _ = run (List.replicate 2 (.storeNext ivChunks ivHashes)) reset := Schedule.run_cons fourth
        _ = run (List.replicate 1 (.storeNext ivChunks ivHashes)) serialised := Schedule.run_cons fifth
        _ = some ended := Schedule.run_cons sixth
    · have free : ∀ mid : Threads P, mid.puts = [] → mid.Ordered (.storeNext ivChunks ivHashes) := fun mid none =>
        ordered_of_quiet none ivChunks ivHashes
      refine Schedule.orderedRun_cons (by trivial) first ?_
      refine Schedule.orderedRun_cons (free begun quiet) second ?_
      refine Schedule.orderedRun_cons (free exchanged quiet) third ?_
      refine Schedule.orderedRun_cons (free hashed quiet) fourth ?_
      refine Schedule.orderedRun_cons (free reset quiet) fifth ?_
      exact Schedule.orderedRun_cons (free serialised quiet) sixth trivial
  · rw [if_neg dirty]
    have ran : s.step (.store clearCache) = some s := by
      rw [step, if_neg (by rw [idle]; decide), if_neg dirty]
    have positive := inv.positive
    refine ⟨s, Schedule.run_cons ran, Schedule.orderedRun_cons (by trivial) ran trivial, rfl, idle, ?_⟩
    omega

end Invariant

/-- No put is lost: in every run in which the stores leave the puts that are on their way
alone, once all calls have ended one more store shows every put. -/
theorem shows_after_store (sound : P.Sound) {b : Bucket P} {files : Files} {D : SlotIndex → Option HashRecord} {E : SlotIndex → Chunk}
    (hashes : b.storedHashes files = some D) (chunks : b.storedChunks files = some E) {steps : List (ThreadStep P)} {s : Threads P}
    (ordered : OrderedRun steps (create b files)) (ran : run steps (create b files) = some s) (quiet : s.puts = []) (idle : s.storing = none)
    (clearCache : Bool) (ivChunks ivHashes : P.IV) :
    ∃ t, run (s.storeWhole clearCache ivChunks ivHashes) s = some t ∧ t.finished = s.finished ∧ ∀ p ∈ s.finished, t.Shows p := by
  obtain ⟨inv, bounded⟩ := inv_run sound (inv_create hashes chunks) ⟨le_rfl, le_rfl⟩ ordered ran
  obtain ⟨t, stored, orderedStore, same, idle', settled⟩ := run_storeWhole sound inv quiet idle clearCache ivChunks ivHashes
  obtain ⟨inv', _⟩ := inv_run sound inv bounded orderedStore stored
  exact ⟨t, stored, same, fun p member => shows_of_settled inv' idle' settled (same ▸ member)⟩

section Xor
open Bucket (xorProtocol xorProtocol_sound newBucket noFiles firstSlot oneHash storedHashes_noFiles storedChunks_noFiles)

def zeroIV : xorProtocol.IV := (0 : UInt8)

def secondSlot : SlotIndex := ⟨1, by decide⟩

/-- Two puts on their way and a store, which takes the arrays and resets the counters before any of
the puts has counted the change of its hash. -/
def overlapping : List (ThreadStep xorProtocol) :=
  .put firstSlot oneHash .zero :: List.replicate 3 (.next 0) ++ .put secondSlot oneHash .zero :: .next 1 :: .store false :: .storeNext zeroIV zeroIV ::
    .next 1 :: .storeNext zeroIV zeroIV :: .storeNext zeroIV zeroIV :: .next 0 :: [.storeNext zeroIV zeroIV]

/-- What the puts do after the store. -/
def afterStore : List (ThreadStep xorProtocol) := [.next 1, .next 1, .next 0, .next 1, .next 0, .next 0]

private def underWay : Threads xorProtocol where
  filenamebase := newBucket.filenamebase
  key := (7 : UInt8)
  files := noFiles
  hashes := some (fun _ => none)
  arrays := Function.update (fun _ _ => .zero) 0 (fun _ => .zero)
  allocated := 1
  chunks := some 0
  chunkChangesSinceLoad := 0
  hashChangesSinceLoad := 1
  puts := [⟨firstSlot, oneHash, .zero, .writeHash, 0⟩, ⟨secondSlot, oneHash, .zero, .countChunk, 0⟩]
  storing := some (false, .write (some (fun _ => .zero)) (fun _ => none))
  finished := []

private def resumed : Threads xorProtocol := { underWay with files := noFiles, storing := none }

theorem shows_after_store_overlapping : ∃ s, run (overlapping ++ .storeNext zeroIV zeroIV :: afterStore) (create newBucket noFiles) = some s ∧
    s.finished.map Put.id = [firstSlot, secondSlot] ∧
      ∃ t, run (s.storeWhole true zeroIV zeroIV) s = some t ∧ t.finished = s.finished ∧ ∀ p ∈ s.finished, t.Shows p := by
  obtain ⟨after, written⟩ := Bucket.writeOut_runs xorProtocol_sound (some (fun _ => .zero)) (fun _ => none) zeroIV zeroIV
    (underWay.bucket, underWay.files)
  have files : after.2 = noFiles := (Bucket.writeOut_spec xorProtocol_sound written).empty (fun _ => rfl)
  have stored : underWay.step (.storeNext zeroIV zeroIV) = some resumed :=
    (step_write rfl written).trans (congrArg (fun f => some { underWay with files := f, storing := none }) files)
  have first : run overlapping (create newBucket noFiles) = some underWay := rfl
  obtain ⟨s, later, ended, quiet, idle⟩ : ∃ s, run afterStore resumed = some s ∧ s.finished.map Put.id = [firstSlot, secondSlot] ∧
    s.puts = [] ∧ s.storing = none := ⟨_, rfl, rfl, rfl, rfl⟩
  have ran : run (overlapping ++ .storeNext zeroIV zeroIV :: afterStore) (create newBucket noFiles) = some s :=
    (Schedule.run_append first).trans ((Schedule.run_cons stored).trans later)
  have early : ∀ {p : Put}, p.stage = .countHash ∨ p.stage = .countChunk → ¬p.Counted := by
    rintro p (stage | stage) counted <;> rw [Put.Counted, stage] at counted <;> revert counted <;> decide
  have before : OrderedRun overlapping (create newBucket noFiles) := by
    refine ⟨trivial, trivial, trivial, trivial, trivial, trivial, trivial, trivial, trivial, trivial, fun p member => ?_, trivial, trivial, trivial⟩
    rcases List.mem_cons.mp member with rfl | member
    · exact early (Or.inl rfl)
    · rw [List.mem_singleton.mp member]
      exact early (Or.inr rfl)
  have ordered : OrderedRun (overlapping ++ .storeNext zeroIV zeroIV :: afterStore) (create newBucket noFiles) := by
    apply Schedule.orderedRun_append before
    intro t reached
    cases first.symm.trans reached
    apply Schedule.orderedRun_cons (by trivial) stored
    apply Schedule.orderedRun_of_forall
    intro next member s
    simp only [afterStore, List.mem_cons, List.not_mem_nil, or_false] at member
    rcases member with rfl | rfl | rfl | rfl | rfl | rfl <;> trivial
  exact ⟨s, ran, ended, shows_after_store xorProtocol_sound storedHashes_noFiles storedChunks_noFiles ordered ran quiet idle true zeroIV zeroIV⟩

/-- A put that has counted its change when a store takes the arrays. -/
def overtaken : List (ThreadStep xorProtocol) :=
  .put firstSlot oneHash .zero :: List.replicate 4 (.next 0) ++ .store false :: List.replicate 4 (.storeNext zeroIV zeroIV)

private def halfway : Threads xorProtocol where
  filenamebase := newBucket.filenamebase
  key := (7 : UInt8)
  files := noFiles
  hashes := some (fun _ => none)
  arrays := Function.update (fun _ _ => .zero) 0 (fun _ => .zero)
  allocated := 1
  chunks := some 0
  chunkChangesSinceLoad := 0
  hashChangesSinceLoad := 0
  puts := [⟨firstSlot, oneHash, .zero, .writeHash, 0⟩]
  storing := some (false, .write (some (fun _ => .zero)) (fun _ => none))
  finished := []

/-- The put writes after the store, and no later store sees a change. -/
theorem put_lost : ∃ s t p, run (overtaken ++ .storeNext zeroIV zeroIV :: List.replicate 2 (.next 0)) (create newBucket noFiles) = some s ∧
    s.puts = [] ∧ s.storing = none ∧ p ∈ s.finished ∧ run (s.storeWhole false zeroIV zeroIV) s = some t ∧ ¬t.Shows p := by
  obtain ⟨after, written⟩ := Bucket.writeOut_runs xorProtocol_sound (some (fun _ => .zero)) (fun _ => none) zeroIV zeroIV
    (halfway.bucket, halfway.files)
  have files : after.2 = noFiles := (Bucket.writeOut_spec xorProtocol_sound written).empty (fun _ => rfl)
  let resumed : Files → Threads xorProtocol := fun f => { halfway with files := f, storing := none }
  have stored : halfway.step (.storeNext zeroIV zeroIV) = some (resumed noFiles) :=
    (step_write rfl written).trans (congrArg (fun f => some (resumed f)) files)
  refine ⟨_, _, ⟨firstSlot, oneHash, .zero, .writeChunk, 0⟩, (Schedule.run_append (show run overtaken _ = some halfway from rfl)).trans ((Schedule.run_cons stored).trans rfl),
    rfl, rfl, List.mem_singleton_self _, rfl, fun shows => ?_⟩
  obtain ⟨D, hashes, hash⟩ := shows.hashes
  obtain rfl : D = fun _ => none := Option.some.inj (hashes.symm.trans rfl)
  exact absurd hash (by decide +kernel)

end Xor

end Threads

end CloudCryptFS.Filesystem
