import CloudCryptFS.Filesystem.Content
import CloudCryptFS.Filesystem.Accounting
import CloudCryptFS.Util.Bytes

/-! A bucket: 256 slots with a hash and a chunk each, stored in two encrypted files. Both
arrays are loaded when they are first asked for; only the chunks are ever dropped again.
Two counters of changes decide whether there is anything to store. -/

namespace CloudCryptFS.Filesystem
open Util Bytes Script.Lexer

/-- `crypto::sha256sum`. -/
structure Sha256 where
  bytes : Str
  size_eq : bytes.length = 32
  deriving DecidableEq

/-- What a bucket file keeps of a hash. -/
structure HashRecord where
  bucketIndex : UInt64
  refcnt : Int64
  sum : Sha256
  deriving DecidableEq

namespace HashRecord

/-- `sizeof(serializedHash)`. -/
def width : Nat := 48

/-- One `serializedHash`; an empty slot has no references and the given sum. -/
def serialize (emptyHsh : Sha256) : Option HashRecord → Str
  | some h => littleEndian 8 h.bucketIndex.toNat ++ (littleEndian 8 h.refcnt.toUInt64.toNat ++ h.sum.bytes)
  | none => littleEndian 8 0 ++ (littleEndian 8 0 ++ emptyHsh.bytes)

theorem length_serialize (emptyHsh : Sha256) (h : Option HashRecord) : (serialize emptyHsh h).length = width := by
  cases h with
  | none => simp [serialize, width, emptyHsh.size_eq]
  | some h => simp [serialize, width, h.sum.size_eq]

/-- A hash that is kept when it is loaded. -/
def counted (h : HashRecord) : Bool := h.refcnt > 0

/-- A record is loaded when it has references. -/
def load (text : Str) : Option HashRecord :=
  if fits : text.length = width then
    let h : HashRecord :=
      ⟨UInt64.ofNat (fromLittleEndian (text.take 8)), (UInt64.ofNat (fromLittleEndian ((text.drop 8).take 8))).toInt64,
        ⟨text.drop 16, by rw [List.length_drop, fits, width]⟩⟩
    if h.counted then some h else none
  else none

theorem load_serialize (emptyHsh : Sha256) (h : Option HashRecord) : load (serialize emptyHsh h) = h.filter counted := by
  unfold load
  rw [dif_pos (length_serialize emptyHsh h)]
  have zero : fromLittleEndian (littleEndian 8 0) = 0 := rfl
  have word : ∀ n : UInt64, fromLittleEndian (littleEndian 8 n.toNat) = n.toNat := fun n =>
    fromLittleEndian_littleEndian n.toNat_lt
  have cut : ∀ (first second rest : Str), first.length = 8 → second.length = 8 →
      (first ++ (second ++ rest)).take 8 = first ∧ ((first ++ (second ++ rest)).drop 8).take 8 = second ∧
        (first ++ (second ++ rest)).drop 16 = rest := by
    intro first second rest long long'
    refine ⟨List.take_left' long, ?_, ?_⟩
    · rw [List.drop_left' long, List.take_left' long']
    · rw [← List.append_assoc]
      apply List.drop_left'
      rw [List.length_append, long, long']
  cases h with
  | none =>
    obtain ⟨_, second, _⟩ := cut (littleEndian 8 0) (littleEndian 8 0) emptyHsh.bytes (length_littleEndian 8 0) (length_littleEndian 8 0)
    simp only [serialize, second, zero]
    rfl
  | some h =>
    obtain ⟨first, second, third⟩ := cut (littleEndian 8 h.bucketIndex.toNat) (littleEndian 8 h.refcnt.toUInt64.toNat) h.sum.bytes
      (length_littleEndian 8 _) (length_littleEndian 8 _)
    simp only [serialize, first, second, third, word, UInt64.ofNat_toNat, Int64.toInt64_toUInt64, Option.filter]

end HashRecord

abbrev SlotIndex := Fin chunksInBucket

def byteSizeChunks : Nat := chunksInBucket * chunkSize
def byteSizeHashes : Nat := chunksInBucket * HashRecord.width

/-- The chunk in a part of the file of chunks. -/
def Chunk.load (text : Str) : Chunk := if fits : text.length = chunkSize then ⟨text, fits⟩ else .zero

theorem Chunk.load_data (c : Chunk) : Chunk.load c.data = c := dif_pos c.size_eq

/-- `crypto::protocolInterface`, as far as buckets use it; the source draws a new IV for
each encryption, and its `decrypt` throws where this one has no result. -/
structure Protocol where
  Key : Type
  IV : Type
  overhead : Nat
  emptyHsh : Sha256
  encrypt : Key → IV → Str → Str
  decrypt : Key → Str → Option Str

/-- What a bucket relies on. -/
structure Protocol.Sound (P : Protocol) : Prop where
  decrypt_encrypt : ∀ key iv text, P.decrypt key (P.encrypt key iv text) = some text
  length_encrypt : ∀ key iv text, (P.encrypt key iv text).length = text.length + P.overhead

abbrev Files := Str → Option Str

/-- `util::getSystemString`: a file that is missing reads as an empty one. -/
def getSystemString (files : Files) (name : Str) : Str := (files name).getD []

structure Bucket (P : Protocol) where
  filenamebase : Str
  key : P.Key
  chunks : Option (SlotIndex → Chunk) := none
  hashes : Option (SlotIndex → Option HashRecord) := none
  chunkChangesSinceLoad : Int := 0
  hashChangesSinceLoad : Int := 0

namespace Bucket
variable {P : Protocol}

def myfilenamehsh (b : Bucket P) : Str := b.filenamebase ++ lit ".hsh"
def myfilenamechnk (b : Bucket P) : Str := b.filenamebase ++ lit ".chnk"

/-- A bucket on the same files, as it is constructed. -/
def fresh (b : Bucket P) : Bucket P := { filenamebase := b.filenamebase, key := b.key }

/-- `++` of an `atomic_int`. -/
def increment (n : Int) : Int := Int.bmod (n + 1) (2 ^ 32)

theorem increment_eq {n : Int} (positive : 0 ≤ n) (small : n < 2 ^ 31 - 1) : increment n = n + 1 := by
  unfold increment Int.bmod
  have inside : (n + 1) % ((2 ^ 32 : Nat) : Int) = n + 1 := Int.emod_eq_of_lt (by omega) (by norm_num; omega)
  rw [inside]
  dsimp only
  rw [if_pos]
  norm_num at *
  omega

abbrev BucketM (P : Protocol) := Run (Bucket P × Files)

def self : BucketM P (Bucket P) := fun s => some (s.1, s)

def change (f : Bucket P → Bucket P) : BucketM P Unit := fun s => some ((), (f s.1, s.2))

def fileExists (name : Str) : BucketM P Bool := fun s => some ((s.2 name).isSome, s)

def putSystemString (name content : Str) : BucketM P Unit := fun s => some ((), (s.1, Function.update s.2 name (some content)))

/-- The hashes in the content of a file; `none` where the source throws. -/
def readHashes (key : P.Key) (cipher : Str) : Option (SlotIndex → Option HashRecord) :=
  if cipher = [] then some (fun _ => none)
  else
    match P.decrypt key cipher with
    | none => none
    | some cleartext =>
      if cleartext.length ≠ byteSizeHashes then none
      else some (fun i => HashRecord.load (block HashRecord.width cleartext i))

def readChunks (key : P.Key) (cipher : Str) : Option (SlotIndex → Chunk) :=
  if cipher = [] then some (fun _ => .zero)
  else
    match P.decrypt key cipher with
    | none => none
    | some cleartext =>
      if cleartext.length ≠ byteSizeChunks then none
      else some (fun i => Chunk.load (block chunkSize cleartext i))

/-- `bucket::loadHashes`. -/
def loadHashes : BucketM P (SlotIndex → Option HashRecord) := fun s =>
  match s.1.hashes with
  | some H => some (H, s)
  | none =>
    (readHashes s.1.key (getSystemString s.2 s.1.myfilenamehsh)).map (fun H =>
      (H, ({ s.1 with hashes := some H, hashChangesSinceLoad := 0 }, s.2)))

/-- `bucket::loadChunks`. -/
def loadChunks : BucketM P (SlotIndex → Chunk) := fun s =>
  match s.1.chunks with
  | some C => some (C, s)
  | none =>
    (readChunks s.1.key (getSystemString s.2 s.1.myfilenamechnk)).map (fun C =>
      (C, ({ s.1 with chunks := some C, chunkChangesSinceLoad := 0 }, s.2)))

def getHash (id : SlotIndex) : BucketM P (Option HashRecord) := do
  let H ← loadHashes
  pure (H id)

def getChunk (id : SlotIndex) : BucketM P Chunk := do
  let C ← loadChunks
  pure (C id)

def putHashAndChunk (id : SlotIndex) (h : Option HashRecord) (c : Chunk) : BucketM P Unit := do
  let H ← loadHashes
  let C ← loadChunks
  change (fun b => { b with
    chunkChangesSinceLoad := increment b.chunkChangesSinceLoad
    hashChangesSinceLoad := increment b.hashChangesSinceLoad
    hashes := some (Function.update H id h)
    chunks := some (Function.update C id c) })

def clearHashAndChunk (id : SlotIndex) : BucketM P Unit := putHashAndChunk id none .zero

def hashChanged : BucketM P Unit :=
  change (fun b => { b with hashChangesSinceLoad := increment b.hashChangesSinceLoad })

/-- The hash object of a slot gets another count, as by `incRefCnt` and `decRefCnt`. -/
def setRefCnt (id : SlotIndex) (refcnt : Int64) : BucketM P Unit := do
  let H ← loadHashes
  change (fun b => { b with hashes := some (Function.update H id ((H id).map (fun h => { h with refcnt := refcnt }))) })
  hashChanged

/-- The text of the file of chunks; without chunks it is written all zero. -/
def chunksText (C : Option (SlotIndex → Chunk)) : Str := array Chunk.data (C.getD (fun _ => .zero))

/-- What `bucket::store` encrypts of the chunks. They stay in their file when they are not
loaded and there is one. -/
def chunksCipher (C : Option (SlotIndex → Chunk)) (iv : P.IV) : BucketM P Str := do
  let b ← self
  if C.isSome ∨ ¬(← fileExists b.myfilenamechnk) then do
    let cipher := P.encrypt b.key iv (chunksText C)
    Run.assert (cipher ≠ [] ∧ cipher.length = byteSizeChunks + P.overhead)
    pure cipher
  else pure []

/-- The files of `bucket::store`: neither is written when no slot holds a hash. -/
def writeFiles (H : SlotIndex → Option HashRecord) (cipher : Str) (iv : P.IV) : BucketM P Unit := do
  let b ← self
  if ∃ i, (H i).isSome then do
    let cipherH := P.encrypt b.key iv (array (HashRecord.serialize P.emptyHsh) H)
    Run.assert (cipherH ≠ [] ∧ cipherH.length = byteSizeHashes + P.overhead)
    if cipher ≠ [] then putSystemString b.myfilenamechnk cipher
    putSystemString b.myfilenamehsh cipherH
  else pure ()

/-- What `bucket::store` does with the arrays it holds. -/
def writeOut (C : Option (SlotIndex → Chunk)) (H : SlotIndex → Option HashRecord) (ivChunks ivHashes : P.IV) : BucketM P Unit := do
  let cipher ← chunksCipher C ivChunks
  writeFiles H cipher ivHashes

/-- `bucket::store`; with `clearCache` the chunks are dropped. -/
def store (clearCache : Bool) (ivChunks ivHashes : P.IV) : BucketM P Unit := do
  let b ← self
  if b.hashChangesSinceLoad > 0 ∨ b.chunkChangesSinceLoad > 0 then do
    change (fun b => { b with
      chunks := if clearCache then none else b.chunks
      hashChangesSinceLoad := 0
      chunkChangesSinceLoad := 0 })
    match b.hashes with
    | none => Run.abort
    | some H => writeOut b.chunks H ivChunks ivHashes
  else pure ()

end Bucket

end CloudCryptFS.Filesystem
