import CloudCryptFS.Filesystem.BucketFiles
import CloudCryptFS.Crypto.FileNames
import CloudCryptFS.Crypto.Protocol

/-! The migration to another protocol. Every bucket that is loaded is written under a new
name and a new key, and its old files are removed; what it holds stays. -/

namespace CloudCryptFS.Filesystem
open Util Bytes Script.Lexer

namespace Bucket
variable {P Q : Protocol}

def removeFile (name : Str) : BucketM P Unit := fun s => some ((), (s.1, Function.update s.2 name none))

/-- `bucket::del`. -/
def del : BucketM P Unit := do
  change (fun b => { b with chunks := none, hashes := none, chunkChangesSinceLoad := 0, hashChangesSinceLoad := 0 })
  let b ← self
  removeFile b.myfilenamehsh
  removeFile b.myfilenamechnk

/-- `bucket::migrateTo`, with the arrays that the target gets. -/
def migrateTo : BucketM P ((SlotIndex → Chunk) × (SlotIndex → Option HashRecord)) := do
  change (fun b => { b with chunkChangesSinceLoad := 0, hashChangesSinceLoad := 0 })
  let C ← loadChunks
  let H ← loadHashes
  change (fun b => { b with chunks := none, hashes := none })
  pure (C, H)

/-- The bucket that `migrateTo` fills. -/
def target (filenamebase : Str) (key : Q.Key) (C : SlotIndex → Chunk) (H : SlotIndex → Option HashRecord) : Bucket Q where
  filenamebase := filenamebase
  key := key
  chunks := some C
  hashes := some H
  chunkChangesSinceLoad := 1000
  hashChangesSinceLoad := 1000

/-- One round of the loops of `storage::migrate`: the new bucket and the files. -/
def migrate (filenamebase : Str) (key : Q.Key) (ivChunks ivHashes : Q.IV) (s : Bucket P × Files) : Option (Bucket Q × Files) := do
  let (arrays, s) ← migrateTo s
  let (_, t) ← store false ivChunks ivHashes (target filenamebase key arrays.1 arrays.2, s.2)
  let (_, s) ← del (s.1, t.2)
  pure (t.1, s.2)

section OneBucket
variable {s : Bucket P × Files} {A : Contents}

theorem storedHashes_congr {b : Bucket P} {files files' : Files} (agree : files' b.myfilenamehsh = files b.myfilenamehsh) :
    b.storedHashes files' = b.storedHashes files := by
  unfold storedHashes getSystemString
  rw [agree]

theorem storedChunks_congr {b : Bucket P} {files files' : Files} (agree : files' b.myfilenamechnk = files b.myfilenamechnk) :
    b.storedChunks files' = b.storedChunks files := by
  unfold storedChunks getSystemString
  rw [agree]

/-- A bucket does not mind what happens to files that are not its own. -/
theorem Keeps.congr {b : Bucket P} {files files' : Files} (keeps : Keeps (b, files) A)
    (hashes : files' b.myfilenamehsh = files b.myfilenamehsh) (chunks : files' b.myfilenamechnk = files b.myfilenamechnk) :
    Keeps (b, files') A := by
  obtain ⟨positive, unloaded, D, E, storedHashes, storedChunks, rest⟩ := keeps
  exact ⟨positive, unloaded, D, E, (storedHashes_congr hashes).trans storedHashes, (storedChunks_congr chunks).trans storedChunks, rest⟩

theorem loadChunks_runs {E : SlotIndex → Chunk} (stored : s.1.storedChunks s.2 = some E) :
    ∃ b, loadChunks s = some (s.1.chunks.getD E, (b, s.2)) ∧ b.filenamebase = s.1.filenamebase ∧ b.key = s.1.key ∧ b.hashes = s.1.hashes := by
  unfold loadChunks
  cases loaded : s.1.chunks with
  | some C => exact ⟨s.1, rfl, rfl, rfl, rfl⟩
  | none =>
    refine ⟨{ s.1 with chunks := some E, chunkChangesSinceLoad := 0 }, ?_, rfl, rfl, rfl⟩
    dsimp only
    rw [show readChunks s.1.key (getSystemString s.2 s.1.myfilenamechnk) = some E from stored]
    rfl

theorem loadHashes_runs {D : SlotIndex → Option HashRecord} (stored : s.1.storedHashes s.2 = some D) :
    ∃ b, loadHashes s = some (s.1.hashes.getD D, (b, s.2)) ∧ b.filenamebase = s.1.filenamebase := by
  unfold loadHashes
  cases loaded : s.1.hashes with
  | some H => exact ⟨s.1, rfl, rfl⟩
  | none =>
    refine ⟨{ s.1 with hashes := some D, hashChangesSinceLoad := 0 }, ?_, rfl⟩
    dsimp only
    rw [show readHashes s.1.key (getSystemString s.2 s.1.myfilenamehsh) = some D from stored]
    rfl

theorem migrateTo_runs (keeps : Keeps s A) : ∃ C b, migrateTo s = some ((C, A.hashes), (b, s.2)) ∧ b.filenamebase = s.1.filenamebase ∧
    ∀ i, (A.hashes i).isSome → C i = A.chunks i := by
  obtain ⟨D, E, storedHashes, storedChunks, before, after⟩ := keeps.stored
  let bare : Bucket P := { s.1 with chunkChangesSinceLoad := 0, hashChangesSinceLoad := 0 }
  obtain ⟨b, chunks, named, keyed, sameHashes⟩ := loadChunks_runs (s := (bare, s.2)) (E := E) storedChunks
  have again : b.storedHashes s.2 = some D := by
    unfold Bucket.storedHashes myfilenamehsh
    rw [named, keyed]
    exact storedHashes
  obtain ⟨b', hashes, named'⟩ := loadHashes_runs (s := (b, s.2)) again
  have both : b.hashes.getD D = A.hashes ∧ ∀ i, (A.hashes i).isSome → s.1.chunks.getD E i = A.chunks i := by
    rw [sameHashes]
    cases loaded : s.1.hashes with
    | none =>
      obtain ⟨viewHashes, viewChunks, _, same⟩ := before loaded
      refine ⟨?_, fun i _ => ?_⟩
      · rw [Option.getD_none, viewHashes]
      · rw [same, viewChunks]
    | some H =>
      obtain ⟨viewHashes, viewChunks, _⟩ := after H loaded
      rw [viewHashes]
      exact ⟨rfl, viewChunks⟩
  refine ⟨s.1.chunks.getD E, { b' with chunks := none, hashes := none }, ?_, named'.trans named, both.2⟩
  unfold migrateTo
  rw [Run.bind_of_some (show change _ s = some ((), (bare, s.2)) from rfl), Run.bind_of_some chunks, Run.bind_of_some hashes,
    Run.bind_of_some (show change _ (b', s.2) = some ((), _) from rfl), Run.pure_apply, both.1]

/-- The files of a bucket. -/
def fileNames (filenamebase : Str) : List Str := [filenamebase ++ lit ".hsh", filenamebase ++ lit ".chnk"]

theorem del_runs (b : Bucket P) (files : Files) : ∃ b' files', del (b, files) = some ((), (b', files')) ∧
    ∀ name, files' name = if name ∈ fileNames b.filenamebase then none else files name := by
  refine ⟨_, _, rfl, fun name => ?_⟩
  change Function.update (Function.update files (b.filenamebase ++ lit ".hsh") none) (b.filenamebase ++ lit ".chnk") none name = _
  rw [Function.update_apply, Function.update_apply]
  by_cases first : name = b.filenamebase ++ lit ".hsh"
  · simp [first, fileNames]
  · by_cases second : name = b.filenamebase ++ lit ".chnk"
    · simp [second, fileNames]
    · rw [if_neg second, if_neg first, if_neg]
      simpa [fileNames] using And.intro first second

/-- A bucket that was written under another name, and the files then. -/
structure Migrated (filenamebase : Str) (key : Q.Key) (A : Contents) (b : Bucket Q) (files : Files) : Prop where
  named : b.filenamebase = filenamebase
  keyed : b.key = key
  keeps : Keeps (b, files) A
  sees : Sees (b, files) A

theorem readHashes_nil (key : P.Key) : readHashes key [] = some (fun _ => none) := rfl

theorem readChunks_nil (key : P.Key) : readChunks key [] = some (fun _ => .zero) := rfl

/-- The target of a migration has no files yet, and then its files hold what it holds. -/
theorem store_target (sound : Q.Sound) {filenamebase : Str} {key : Q.Key} {C : SlotIndex → Chunk} {files : Files}
    (alike : ∀ i, (A.hashes i).isSome → C i = A.chunks i) (ivChunks ivHashes : Q.IV)
    (noHashes : files (filenamebase ++ lit ".hsh") = none) (noChunks : files (filenamebase ++ lit ".chnk") = none) :
    ∃ b files', store false ivChunks ivHashes (target filenamebase key C A.hashes, files) = some ((), (b, files')) ∧
      Migrated filenamebase key A b files' ∧
      ∀ name, name ≠ filenamebase ++ lit ".hsh" → name ≠ filenamebase ++ lit ".chnk" → files' name = files name := by
  obtain ⟨t, ran⟩ := store_runs (s := (target filenamebase key C A.hashes, files)) sound false ivChunks ivHashes (fun _ => rfl)
  rcases store_spec sound ran with ⟨clean, _⟩ | ⟨_, H, written⟩
  · exact absurd (Or.inl (by decide : (1000 : Int) > 0)) clean
  · obtain ⟨b, files'⟩ := t
    obtain ⟨bucket, loaded, empty, hashes, chunks, others⟩ := written
    cases loaded
    have before : (target filenamebase key C A.hashes).storedHashes files = some (fun _ => none) := by
      unfold Bucket.storedHashes getSystemString
      rw [show files (target filenamebase key C A.hashes).myfilenamehsh = none from noHashes]
      exact readHashes_nil key
    have before' : (target filenamebase key C A.hashes).storedChunks files = some (fun _ => .zero) := by
      unfold Bucket.storedChunks getSystemString
      rw [show files (target filenamebase key C A.hashes).myfilenamechnk = none from noChunks]
      exact readChunks_nil key
    have none_of_empty : (¬∃ i, (A.hashes i).isSome) → ∀ i, A.hashes i = none := by
      intro bare i
      by_contra held
      exact bare ⟨i, Option.isSome_iff_ne_none.mpr held⟩
    have here : b = { target filenamebase key C A.hashes with hashChangesSinceLoad := 0, chunkChangesSinceLoad := 0 } := bucket
    have storedHashes : b.storedHashes files' = some (fun i => (A.hashes i).filter HashRecord.counted) := by
      rw [here]
      by_cases held : ∃ i, (A.hashes i).isSome
      · exact hashes held
      · have nothing := none_of_empty held
        have unchanged : files' = files := empty nothing
        rw [unchanged, show (fun i => (A.hashes i).filter HashRecord.counted) = fun _ => none by
          funext i
          rw [nothing i]
          rfl]
        exact before
    have storedChunks : ∃ E, b.storedChunks files' = some E ∧ ∀ i, (A.hashes i).isSome → E i = A.chunks i := by
      rw [here]
      by_cases held : ∃ i, (A.hashes i).isSome
      · exact ⟨C, chunks held _ before', alike⟩
      · have unchanged : files' = files := empty (none_of_empty held)
        rw [unchanged]
        exact ⟨_, before', fun i some => absurd ⟨i, some⟩ held⟩
    obtain ⟨E, storedChunks, alike'⟩ := storedChunks
    refine ⟨b, files', ran, ⟨here ▸ rfl, here ▸ rfl, ?_, (sees_iff storedHashes storedChunks).mpr ⟨fun _ => rfl, alike'⟩⟩, others⟩
    apply Keeps.mk
    · rw [here]
      exact ⟨le_rfl, le_rfl⟩
    · intro unloaded
      rw [here] at unloaded
      cases unloaded
    · refine ⟨_, E, storedHashes, storedChunks, ?_, ?_⟩
      · intro unloaded
        rw [here] at unloaded
        cases unloaded
      · intro H loaded
        rw [here] at loaded
        cases loaded
        rw [here]
        exact ⟨rfl, alike, fun _ _ => ⟨rfl, alike'⟩⟩

theorem sees_congr {b b' : Bucket P} {files : Files} (same : b.fresh = b'.fresh) (sees : Sees (b, files) A) : Sees (b', files) A := by
  unfold Sees at sees ⊢
  dsimp only at sees ⊢
  rw [← same]
  exact sees

theorem Migrated.congr {filenamebase : Str} {key : Q.Key} {b : Bucket Q} {files files' : Files} (migrated : Migrated filenamebase key A b files)
    (agree : ∀ name ∈ fileNames filenamebase, files' name = files name) : Migrated filenamebase key A b files' := by
  obtain ⟨rfl, keyed, keeps, sees⟩ := migrated
  have hashes : files' b.myfilenamehsh = files b.myfilenamehsh := agree _ List.mem_cons_self
  have chunks : files' b.myfilenamechnk = files b.myfilenamechnk := agree _ (List.mem_cons_of_mem _ List.mem_cons_self)
  refine ⟨rfl, keyed, keeps.congr hashes chunks, ?_⟩
  obtain ⟨D, E, storedHashes, storedChunks, _⟩ := keeps.stored
  have sees' := (sees_iff storedHashes storedChunks).mp sees
  exact (sees_iff (s := (b, files')) ((storedHashes_congr hashes).trans storedHashes) ((storedChunks_congr chunks).trans storedChunks)).mpr sees'

/-- One round of the migration of a bucket to new files. -/
theorem migrate_runs (sound : Q.Sound) (keeps : Keeps s A) {filenamebase : Str} (key : Q.Key) (ivChunks ivHashes : Q.IV)
    (fresh : ∀ name ∈ fileNames filenamebase, s.2 name = none)
    (apart : ∀ name ∈ fileNames s.1.filenamebase, name ∉ fileNames filenamebase) :
    ∃ b files', migrate filenamebase key ivChunks ivHashes s = some (b, files') ∧ Migrated filenamebase key A b files' ∧
      (∀ name ∈ fileNames s.1.filenamebase, files' name = none) ∧
      ∀ name, name ∉ fileNames s.1.filenamebase → name ∉ fileNames filenamebase → files' name = s.2 name := by
  obtain ⟨C, old, moved, named, alike⟩ := migrateTo_runs keeps
  obtain ⟨b, files, stored, migrated, others⟩ := @store_target _ _ sound filenamebase key C _ alike ivChunks ivHashes
    (fresh _ List.mem_cons_self) (fresh _ (List.mem_cons_of_mem _ List.mem_cons_self))
  obtain ⟨old', files', removed, gone⟩ := del_runs old files
  rw [named] at gone
  refine ⟨b, files', ?_, migrated.congr (fun name inside => ?_), fun name inside => ?_, fun name outside outside' => ?_⟩
  · unfold migrate
    rw [moved, Option.bind_eq_bind, Option.bind_some]
    dsimp only
    rw [stored, Option.bind_eq_bind, Option.bind_some]
    dsimp only
    rw [removed]
    rfl
  · rw [gone, if_neg (fun old => apart name old inside)]
  · rw [gone, if_pos inside]
  · rw [gone, if_neg outside]
    apply others
    · exact fun same => outside' (same ▸ List.mem_cons_self)
    · exact fun same => outside' (same ▸ List.mem_cons_of_mem _ List.mem_cons_self)

end OneBucket

section AllBuckets

/-- A bucket that is to be migrated. -/
structure Job (P Q : Protocol) where
  old : Bucket P
  filenamebase : Str
  key : Q.Key
  ivChunks : Q.IV
  ivHashes : Q.IV

def Job.names (j : Job P Q) : List Str := fileNames j.old.filenamebase ++ fileNames j.filenamebase

/-- The loops of `storage::migrate`. -/
def migrateAll : List (Job P Q) → Files → Option (List (Bucket Q) × Files)
  | [], files => some ([], files)
  | j :: jobs, files => do
    let (b, files) ← migrate j.filenamebase j.key j.ivChunks j.ivHashes (j.old, files)
    let (buckets, files) ← migrateAll jobs files
    pure (b :: buckets, files)

/-- What a migration leaves of a bucket. -/
structure Job.Done (j : Job P Q) (A : Contents) (b : Bucket Q) (files : Files) : Prop where
  migrated : Migrated j.filenamebase j.key A b files
  gone : ∀ name ∈ fileNames j.old.filenamebase, files name = none

theorem Job.Done.congr {j : Job P Q} {A : Contents} {b : Bucket Q} {files files' : Files} (done : j.Done A b files)
    (agree : ∀ name ∈ j.names, files' name = files name) : j.Done A b files' where
  migrated := done.migrated.congr (fun name inside => agree name (List.mem_append_right _ inside))
  gone := fun name inside => (agree name (List.mem_append_left _ inside)).trans (done.gone name inside)

theorem migrateAll_runs (sound : Q.Sound) {ι : Type} (job : ι → Job P Q) (contents : ι → Contents) {items : List ι} {files : Files}
    (nodup : (items.flatMap (fun e => (job e).names)).Nodup) (keeps : ∀ e ∈ items, Keeps ((job e).old, files) (contents e))
    (fresh : ∀ e ∈ items, ∀ name ∈ fileNames (job e).filenamebase, files name = none) :
    ∃ buckets files', migrateAll (items.map job) files = some (buckets, files') ∧
      List.Forall₂ (fun e b => (job e).Done (contents e) b files') items buckets ∧
      ∀ name, (∀ e ∈ items, name ∉ (job e).names) → files' name = files name := by
  induction items generalizing files with
  | nil => exact ⟨[], files, rfl, List.Forall₂.nil, fun _ _ => rfl⟩
  | cons e items ih =>
    rw [List.flatMap_cons, List.nodup_append] at nodup
    obtain ⟨mine, later, apart⟩ := nodup
    have own := List.nodup_append.mp mine
    obtain ⟨b, mid, ran, migrated, gone, others⟩ := migrate_runs sound (keeps e List.mem_cons_self) (job e).key (job e).ivChunks
      (job e).ivHashes (fresh e List.mem_cons_self) (fun name old new => own.2.2 name old name new rfl)
    have separate : ∀ e' ∈ items, ∀ name ∈ (job e').names, name ∉ (job e).names := fun e' member name there here =>
      apart name here name (List.mem_flatMap_of_mem member there) rfl
    have others' : ∀ name ∉ (job e).names, mid name = files name := by
      intro name outside
      apply others
      · exact fun old => outside (List.mem_append_left _ old)
      · exact fun new => outside (List.mem_append_right _ new)
    have untouched : ∀ e' ∈ items, ∀ name ∈ (job e').names, mid name = files name := fun e' member name inside =>
      others' name (separate e' member name inside)
    obtain ⟨buckets, files', rest, done, outer⟩ := ih later
      (fun e' member => (keeps e' (List.mem_cons_of_mem _ member)).congr
        (untouched e' member _ List.mem_cons_self) (untouched e' member _ (List.mem_cons_of_mem _ List.mem_cons_self)))
      (fun e' member name new => (untouched e' member name (List.mem_append_right _ new)).trans
        (fresh e' (List.mem_cons_of_mem _ member) name new))
    refine ⟨b :: buckets, files', ?_, List.Forall₂.cons ?_ done, fun name outside => ?_⟩
    · rw [List.map_cons, migrateAll, ran, Option.bind_eq_bind, Option.bind_some]
      dsimp only
      rw [rest]
      rfl
    · apply Job.Done.congr ⟨migrated, gone⟩
      exact fun name inside => outer name (fun e' member there => separate e' member name there inside)
    · rw [outer name (fun e' member => outside e' (List.mem_cons_of_mem _ member)), others' name (outside e List.mem_cons_self)]

end AllBuckets

theorem exists_of_forall₂ {α β : Type} {R : α → β → Prop} {as : List α} {bs : List β} (related : List.Forall₂ R as bs) {a : α}
    (member : a ∈ as) : ∃ b, b ∈ bs ∧ R a b := by
  induction related with
  | nil => cases member
  | cons here _ ih =>
    rcases List.mem_cons.mp member with rfl | later
    · exact ⟨_, List.mem_cons_self, here⟩
    · obtain ⟨b, inside, there⟩ := ih later
      exact ⟨b, List.mem_cons_of_mem _ inside, there⟩

section Storage
open Crypto
variable (sha256 : Str → Sha256) (path : Str)

/-- The secrets of a protocol object. -/
structure Credentials (P : Protocol) where
  filenamesecret : Str
  protokey : P.Key
  key : P.Key

/-- The bucket that `bucketInfo::getBucket` makes. -/
def bucketOf (c : Credentials P) (isMeta : Bool) (id : Int64) : Bucket P where
  filenamebase := path ++ getBucketFilename sha256 ⟨id, isMeta, c.filenamesecret⟩
  key := if isMeta then c.protokey else c.key

/-- The entries of `metaBuckets->loaded` and of `buckets->loaded`, in the order of the migration. -/
def entries (metaBuckets buckets : List (Int64 × Bucket P)) : List (Bool × Int64 × Bucket P) :=
  metaBuckets.map (fun entry => (true, entry)) ++ buckets.map (fun entry => (false, entry))

def job (new : Credentials Q) (ivs : Bool → Int64 → Q.IV × Q.IV) (entry : Bool × Int64 × Bucket P) : Job P Q where
  old := entry.2.2
  filenamebase := (bucketOf sha256 path new entry.1 entry.2.1).filenamebase
  key := (bucketOf sha256 path new entry.1 entry.2.1).key
  ivChunks := (ivs entry.1 entry.2.1).1
  ivHashes := (ivs entry.1 entry.2.1).2

/-- `storage::migrate`. -/
def storageMigrate (new : Credentials Q) (ivs : Bool → Int64 → Q.IV × Q.IV) (metaBuckets buckets : List (Int64 × Bucket P))
    (files : Files) : Option (List (Bucket Q) × Files) :=
  migrateAll ((entries metaBuckets buckets).map (job sha256 path new ivs)) files

variable {sha256 path}

/-- The storage before a migration: the buckets have the names that the old secret gives, and those that the new
secret gives are not in use. -/
structure Ready (sha256 : Str → Sha256) (path : Str) (old : Credentials P) (new : Credentials Q) (contents : Bool → Int64 → Contents)
    (metaBuckets buckets : List (Int64 × Bucket P)) (files : Files) : Prop where
  metaIds : (metaBuckets.map Prod.fst).Nodup
  ids : (buckets.map Prod.fst).Nodup
  named : ∀ e ∈ entries metaBuckets buckets, e.2.2.filenamebase = (bucketOf sha256 path old e.1 e.2.1).filenamebase
  keeps : ∀ e ∈ entries metaBuckets buckets, Keeps (e.2.2, files) (contents e.1 e.2.1)
  fresh : ∀ e ∈ entries metaBuckets buckets, ∀ name ∈ fileNames (bucketOf sha256 path new e.1 e.2.1).filenamebase, files name = none

/-- The sums that name the buckets do not collide. -/
def NoCollision (sha256 : Str → Sha256) (metaBuckets buckets : List (Int64 × Bucket P)) (secrets : List Str) : Prop :=
  Set.InjOn sha256 { text | ∃ e ∈ entries metaBuckets buckets, ∃ secret ∈ secrets, text = (BucketId.mk e.2.1 e.1 secret).nameInput }

/-- The files of one entry before and after. -/
def storedFiles (old new : Str) (e : Bool × Int64 × Bucket P) : List StoredFile :=
  [.hashes ⟨e.2.1, e.1, old⟩, .chunks ⟨e.2.1, e.1, old⟩, .hashes ⟨e.2.1, e.1, new⟩, .chunks ⟨e.2.1, e.1, new⟩]

theorem entries_nodup {metaBuckets buckets : List (Int64 × Bucket P)} (metaIds : (metaBuckets.map Prod.fst).Nodup)
    (ids : (buckets.map Prod.fst).Nodup) : (entries metaBuckets buckets).Pairwise (fun e e' => (e.1, e.2.1) ≠ (e'.1, e'.2.1)) := by
  unfold entries
  apply List.pairwise_append.mpr
  refine ⟨?_, ?_, ?_⟩
  · apply List.pairwise_map.mpr
    exact (List.pairwise_map.mp metaIds).imp (fun apart same => apart (congrArg Prod.snd same))
  · apply List.pairwise_map.mpr
    exact (List.pairwise_map.mp ids).imp (fun apart same => apart (congrArg Prod.snd same))
  · intro e first e' second same
    obtain ⟨_, _, rfl⟩ := List.mem_map.mp first
    obtain ⟨_, _, rfl⟩ := List.mem_map.mp second
    cases congrArg Prod.fst same

theorem mem_storedFiles {old new : Str} {e : Bool × Int64 × Bucket P} {f : StoredFile} : f ∈ storedFiles old new e ↔
    ∃ secret ∈ [old, new], f = .hashes ⟨e.2.1, e.1, secret⟩ ∨ f = .chunks ⟨e.2.1, e.1, secret⟩ := by
  simp [storedFiles, or_assoc]

theorem storedFiles_nodup {old new : Str} (differ : old ≠ new) {list : List (Bool × Int64 × Bucket P)}
    (apart : list.Pairwise (fun e e' => (e.1, e.2.1) ≠ (e'.1, e'.2.1))) : (list.flatMap (storedFiles old new)).Nodup := by
  apply List.nodup_flatMap.mpr
  constructor
  · intro e _
    simp [storedFiles, differ]
  · apply apart.imp
    intro e e' other f first second
    apply other
    obtain ⟨secret, _, which⟩ := mem_storedFiles.mp first
    obtain ⟨secret', _, which'⟩ := mem_storedFiles.mp second
    rcases which with rfl | rfl
    · rcases which' with same | same
      · rw [StoredFile.hashes.injEq, BucketId.mk.injEq] at same
        exact Prod.ext same.2.1 same.1
      · cases same
    · rcases which' with same | same
      · cases same
      · rw [StoredFile.chunks.injEq, BucketId.mk.injEq] at same
        exact Prod.ext same.2.1 same.1

/-- The files of a migration have names of their own. -/
theorem fullName_injOn {metaBuckets buckets : List (Int64 × Bucket P)} {old new : Str}
    (noCollision : NoCollision sha256 metaBuckets buckets [old, new]) {f f' : StoredFile}
    (first : f ∈ (entries metaBuckets buckets).flatMap (storedFiles old new))
    (second : f' ∈ (entries metaBuckets buckets).flatMap (storedFiles old new))
    (alike : f.fullName sha256 path false = f'.fullName sha256 path false) : f = f' := by
  have input : ∀ {b : BucketId}, (.hashes b ∈ (entries metaBuckets buckets).flatMap (storedFiles old new) ∨
      .chunks b ∈ (entries metaBuckets buckets).flatMap (storedFiles old new)) →
      ∃ e ∈ entries metaBuckets buckets, ∃ secret ∈ [old, new], b.nameInput = (BucketId.mk e.2.1 e.1 secret).nameInput := by
    intro b member
    rcases member with member | member
    all_goals
      obtain ⟨e, inside, member⟩ := List.mem_flatMap.mp member
      obtain ⟨secret, known, which⟩ := mem_storedFiles.mp member
      rcases which with same | same <;> cases same
      exact ⟨e, inside, secret, known, rfl⟩
  rcases ((f.fullName_eq_iff path f' false false).mp alike).2 with same | ⟨b, b', differ, sums, which⟩
  · exact same
  · exfalso
    apply differ
    rcases which with ⟨rfl, rfl⟩ | ⟨rfl, rfl⟩
    · exact noCollision (input (Or.inl first)) (input (Or.inl second)) sums
    · exact noCollision (input (Or.inr first)) (input (Or.inr second)) sums

theorem names_job {old : Credentials P} {new : Credentials Q} {ivs : Bool → Int64 → Q.IV × Q.IV} {e : Bool × Int64 × Bucket P}
    (named : e.2.2.filenamebase = (bucketOf sha256 path old e.1 e.2.1).filenamebase) :
    (job sha256 path new ivs e).names =
      (storedFiles old.filenamesecret new.filenamesecret e).map (fun f => f.fullName sha256 path false) := by
  simp [Job.names, job, fileNames, named, bucketOf, storedFiles, StoredFile.fullName, StoredFile.name, tilde]

theorem names_nodup {old : Credentials P} {new : Credentials Q} (ivs : Bool → Int64 → Q.IV × Q.IV) {contents : Bool → Int64 → Contents}
    {metaBuckets buckets : List (Int64 × Bucket P)} {files : Files} (ready : Ready sha256 path old new contents metaBuckets buckets files)
    (differ : old.filenamesecret ≠ new.filenamesecret)
    (noCollision : NoCollision sha256 metaBuckets buckets [old.filenamesecret, new.filenamesecret]) :
    ((entries metaBuckets buckets).flatMap (fun e => (job sha256 path new ivs e).names)).Nodup := by
  have shape : (entries metaBuckets buckets).flatMap (fun e => (job sha256 path new ivs e).names) =
      ((entries metaBuckets buckets).flatMap (storedFiles old.filenamesecret new.filenamesecret)).map
        (fun f => f.fullName sha256 path false) := by
    rw [List.map_flatMap]
    apply List.flatMap_congr
    exact fun e inside => names_job (ready.named e inside)
  rw [shape]
  apply List.Nodup.map_on
  · exact fun f first f' second alike => fullName_injOn noCollision first second alike
  · exact storedFiles_nodup differ (entries_nodup ready.metaIds ready.ids)

/-- After a migration the storage holds what it held: under the new protocol every bucket is found with its hashes and
chunks, the files of the old protocol are gone, and no other file has changed. -/
theorem storageMigrate_sees (sound : Q.Sound) {old : Credentials P} {new : Credentials Q} (ivs : Bool → Int64 → Q.IV × Q.IV)
    {contents : Bool → Int64 → Contents} {metaBuckets buckets : List (Int64 × Bucket P)} {files : Files}
    (ready : Ready sha256 path old new contents metaBuckets buckets files) (differ : old.filenamesecret ≠ new.filenamesecret)
    (noCollision : NoCollision sha256 metaBuckets buckets [old.filenamesecret, new.filenamesecret]) :
    ∃ loaded files', storageMigrate sha256 path new ivs metaBuckets buckets files = some (loaded, files') ∧
      List.Forall₂ (fun e b => Keeps (b, files') (contents e.1 e.2.1)) (entries metaBuckets buckets) loaded ∧
      (∀ e ∈ entries metaBuckets buckets, Sees (bucketOf sha256 path new e.1 e.2.1, files') (contents e.1 e.2.1) ∧
        ∀ name ∈ fileNames (bucketOf sha256 path old e.1 e.2.1).filenamebase, files' name = none) ∧
      ∀ name, (∀ e ∈ entries metaBuckets buckets, name ∉ fileNames (bucketOf sha256 path old e.1 e.2.1).filenamebase ∧
        name ∉ fileNames (bucketOf sha256 path new e.1 e.2.1).filenamebase) → files' name = files name := by
  obtain ⟨loaded, files', ran, done, others⟩ := migrateAll_runs sound (job sha256 path new ivs) (fun e => contents e.1 e.2.1)
    (names_nodup ivs ready differ noCollision) ready.keeps ready.fresh
  refine ⟨loaded, files', ran, done.imp (fun _ _ here => here.migrated.keeps), fun e inside => ?_, fun name outside => ?_⟩
  · obtain ⟨b, _, here⟩ := exists_of_forall₂ done inside
    refine ⟨?_, fun name old => here.gone name ?_⟩
    · have same : b.fresh = (bucketOf sha256 path new e.1 e.2.1).fresh := by
        unfold Bucket.fresh
        rw [here.migrated.named, here.migrated.keyed]
        rfl
      exact sees_congr same here.migrated.sees
    · rw [show (job sha256 path new ivs e).old.filenamebase = _ from ready.named e inside]
      exact old
  · apply others
    intro e inside member
    rcases List.mem_append.mp member with old | new
    · rw [show (job sha256 path _ ivs e).old.filenamebase = _ from ready.named e inside] at old
      exact (outside e inside).1 old
    · exact (outside e inside).2 new

end Storage

section OneEach
open Crypto

/-- A sum that keeps the first bytes of a text. -/
def firstBytes (text : Str) : Sha256 where
  bytes := (text ++ List.replicate 32 0).take 32
  size_eq := by
    rw [List.length_take, List.length_append, List.length_replicate]
    omega

def uniformKey (byte : UInt8) : KeyBytes := ⟨List.replicate keySize byte, List.length_replicate⟩

/-- The protocol with an empty tag, and with IVs that it takes. -/
abbrev paddedProtocol : Protocol := randomProtocol padded (uniformSum 0)

def oldCredentials : Credentials paddedProtocol := ⟨[1], uniformKey 7, uniformKey 8⟩
def newCredentials : Credentials paddedProtocol := ⟨[2], uniformKey 9, uniformKey 10⟩

def heldContents : Contents := ⟨Function.update (fun _ => none) firstSlot (some oneHash), fun _ => .zero⟩

/-- A bucket that holds one hash and has not been stored. -/
def heldBucket (isMeta : Bool) : Bucket paddedProtocol :=
  { bucketOf firstBytes (lit "/") oldCredentials isMeta 1 with
    chunks := some heldContents.chunks
    hashes := some heldContents.hashes
    chunkChangesSinceLoad := 1
    hashChangesSinceLoad := 1 }

theorem heldBucket_keeps (isMeta : Bool) : Keeps (heldBucket isMeta, noFiles) heldContents where
  positive := ⟨(zero_le_one : (0 : Int) ≤ 1), (zero_le_one : (0 : Int) ≤ 1)⟩
  unloaded := fun unloaded => by cases unloaded
  stored := by
    refine ⟨fun _ => none, fun _ => .zero, rfl, rfl, ?_, ?_⟩
    · intro unloaded
      cases unloaded
    · intro H loaded
      cases loaded
      exact ⟨rfl, fun _ _ => rfl, fun clean => absurd (Or.inl (by decide : (1 : Int) > 0)) clean⟩

def oneIvs : paddedProtocol.IV × paddedProtocol.IV := (⟨uniformIV 3, by decide⟩, ⟨uniformIV 4, by decide⟩)

theorem ready_oneEach : Ready firstBytes (lit "/") oldCredentials newCredentials (fun _ _ => heldContents)
    [((1 : Int64), heldBucket true)] [((1 : Int64), heldBucket false)] noFiles where
  metaIds := List.nodup_singleton _
  ids := List.nodup_singleton _
  named := by
    intro e inside
    rcases List.mem_cons.mp inside with rfl | inside
    · rfl
    · cases List.mem_singleton.mp inside
      rfl
  keeps := by
    intro e inside
    rcases List.mem_cons.mp inside with rfl | inside
    · exact heldBucket_keeps true
    · cases List.mem_singleton.mp inside
      exact heldBucket_keeps false
  fresh := fun _ _ _ _ => rfl

theorem noCollision_oneEach : NoCollision firstBytes [((1 : Int64), heldBucket true)] [((1 : Int64), heldBucket false)]
    [oldCredentials.filenamesecret, newCredentials.filenamesecret] := by
  have inputs : ∀ (isMeta isMeta' : Bool), ∀ secret ∈ [[1], [2]], ∀ secret' ∈ [[1], [2]],
      firstBytes (BucketId.mk 1 isMeta secret).nameInput = firstBytes (BucketId.mk 1 isMeta' secret').nameInput →
      isMeta = isMeta' ∧ secret = secret' := by decide
  have known : ∀ e ∈ entries [((1 : Int64), heldBucket true)] [((1 : Int64), heldBucket false)], e.2.1 = 1 := by
    intro e inside
    rcases List.mem_cons.mp inside with rfl | inside
    · rfl
    · cases List.mem_singleton.mp inside
      rfl
  rintro _ ⟨e, inside, secret, one, rfl⟩ _ ⟨e', inside', secret', one', rfl⟩ alike
  rw [known e inside, known e' inside'] at alike ⊢
  obtain ⟨metas, secrets⟩ := inputs _ _ secret one secret' one' alike
  rw [metas, secrets]

/-- A meta bucket and a data bucket, each with one hash. -/
theorem storageMigrate_oneEach : ∃ loaded files', storageMigrate firstBytes (lit "/") newCredentials (fun _ _ => oneIvs)
      [((1 : Int64), heldBucket true)] [((1 : Int64), heldBucket false)] noFiles = some (loaded, files') ∧
    Sees (bucketOf firstBytes (lit "/") newCredentials false 1, files') heldContents := by
  obtain ⟨loaded, files', ran, _, found, _⟩ := storageMigrate_sees (randomProtocol_sound padded_sound) (fun _ _ => oneIvs) ready_oneEach (by decide)
    noCollision_oneEach
  exact ⟨loaded, files', ran, (found (false, 1, heldBucket false) (List.mem_cons_of_mem _ List.mem_cons_self)).1⟩

end OneEach

end Bucket

end CloudCryptFS.Filesystem
