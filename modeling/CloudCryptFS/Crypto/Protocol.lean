import CloudCryptFS.Filesystem.BucketFiles

/-! Version 1.0 of the protocol: how a text is encrypted. The source takes the cipher from a
library; an encrypted text is what the cipher gives, with its IV behind it. -/

namespace CloudCryptFS.Crypto
open Util Bytes Script.Lexer

def keySize : Nat := 32
def tagSize : Nat := 16
def IVSize : Nat := 24

abbrev KeyBytes := { bytes : Str // bytes.length = keySize }
abbrev IV := { bytes : Str // bytes.length = IVSize }

/-- `crypto_aead_xchacha20poly1305_ietf`; opening a text that was not sealed so has no result. -/
structure Aead where
  encrypt : KeyBytes → IV → Str → Str
  decrypt : KeyBytes → IV → Str → Option Str

/-- What the library promises. -/
structure Aead.Sound (A : Aead) : Prop where
  decrypt_encrypt : ∀ key iv text, A.decrypt key iv (A.encrypt key iv text) = some text
  length_encrypt : ∀ key iv text, (A.encrypt key iv text).length = text.length + tagSize

/-- The first word of an IV is zero. -/
def Blank (iv : Str) : Prop := fromLittleEndian (iv.take 8) = 0

instance (iv : Str) : Decidable (Blank iv) := inferInstanceAs (Decidable (_ = _))

/-- How `decrypt` ends. -/
inductive Decrypted where
  | cleartext (out : Str)
  | outOfRange
  | logicError (what : Str)
  | aborted
  deriving DecidableEq

namespace Decrypted

def toOption : Decrypted → Option Str
  | cleartext out => some out
  | _ => none

end Decrypted

section Texts
variable (A : Aead)

/-- `protocol::encrypt`, with the IV that was drawn. -/
def encrypt (k : KeyBytes) (iv : IV) (text : Str) : Str := A.encrypt k iv text ++ iv.val

/-- `protocol::decrypt`. The size that is left of a text shorter than an IV wraps, and `substr` throws. -/
def decrypt (k : KeyBytes) (text : Str) : Decrypted :=
  let cipher := text.take (text.length - IVSize)
  let ivdta := text.drop (text.length - IVSize)
  if fits : ivdta.length = IVSize then
    if Blank ivdta then .logicError (lit "Too many zero's in IV")
    else if cipher = [] then .aborted
    else
      match A.decrypt k ⟨ivdta, fits⟩ cipher with
      | none => .logicError (lit "Message forged")
      | some out => .cleartext out
  else .outOfRange

variable {A} {k : KeyBytes}

theorem decrypt_append (cipher : Str) (iv : IV) : decrypt A k (cipher ++ iv.val) =
    if Blank iv.val then .logicError (lit "Too many zero's in IV")
    else if cipher = [] then .aborted
    else (A.decrypt k iv cipher).elim (.logicError (lit "Message forged")) .cleartext := by
  have size : (cipher ++ iv.val).length - IVSize = cipher.length := by
    rw [List.length_append, iv.property, Nat.add_sub_cancel]
  unfold decrypt
  simp only [size, List.take_left', List.drop_left', iv.property, dite_true]
  split
  · rfl
  · split
    · rfl
    · cases A.decrypt k iv cipher <;> rfl

theorem encrypt_filled (sound : A.Sound) (iv : IV) (text : Str) : A.encrypt k iv text ≠ [] := by
  intro empty
  have long := sound.length_encrypt k iv text
  rw [empty, List.length_nil, tagSize] at long
  omega

/-- An encrypted text comes back unless its IV was drawn with a zero word in front. -/
theorem decrypt_encrypt (sound : A.Sound) (iv : IV) (text : Str) :
    decrypt A k (encrypt A k iv text) = if Blank iv.val then .logicError (lit "Too many zero's in IV") else .cleartext text := by
  rw [encrypt, decrypt_append, if_neg (encrypt_filled sound iv text), sound.decrypt_encrypt]
  rfl

end Texts

section Buckets
variable (A : Aead) (emptyHsh : Filesystem.Sha256)

/-- The protocol as buckets use it. -/
def protocol : Filesystem.Protocol where
  Key := KeyBytes
  IV := IV
  overhead := IVSize + tagSize
  emptyHsh := emptyHsh
  encrypt := encrypt A
  decrypt := fun k text => (decrypt A k text).toOption

/-- The protocol with IVs that `decrypt` takes. -/
def randomProtocol : Filesystem.Protocol where
  Key := KeyBytes
  IV := { iv : IV // ¬Blank iv.val }
  overhead := IVSize + tagSize
  emptyHsh := emptyHsh
  encrypt := fun k iv text => encrypt A k iv.val text
  decrypt := fun k text => (decrypt A k text).toOption

variable {A} {emptyHsh}

theorem length_encrypt (sound : A.Sound) (k : KeyBytes) (iv : IV) (text : Str) :
    (encrypt A k iv text).length = text.length + (IVSize + tagSize) := by
  rw [encrypt, List.length_append, sound.length_encrypt, iv.property, Nat.add_assoc, Nat.add_comm tagSize]

theorem toOption_decrypt (sound : A.Sound) (k : KeyBytes) (iv : IV) (text : Str) :
    (decrypt A k (encrypt A k iv text)).toOption = if Blank iv.val then none else some text := by
  rw [decrypt_encrypt sound]
  split <;> rfl

theorem randomProtocol_sound (sound : A.Sound) : (randomProtocol A emptyHsh).Sound where
  decrypt_encrypt := fun k iv text => (toOption_decrypt sound k iv.val text).trans (if_neg iv.property)
  length_encrypt := fun k iv text => length_encrypt sound k iv.val text

open Filesystem Bucket

theorem encrypt_ne_nil (sound : A.Sound) (k : KeyBytes) (iv : IV) (text : Str) : encrypt A k iv text ≠ [] := by
  intro empty
  have long := length_encrypt sound k iv text
  rw [empty, List.length_nil, IVSize] at long
  omega

theorem readHashes_encrypted (sound : A.Sound) (k : KeyBytes) (iv : IV) (H : SlotIndex → Option HashRecord) :
    readHashes (P := protocol A emptyHsh) k (encrypt A k iv (array (HashRecord.serialize emptyHsh) H)) =
      if Blank iv.val then none else some (fun i => (H i).filter HashRecord.counted) := by
  split
  · rename_i blank
    have closed : (protocol A emptyHsh).decrypt k (encrypt A k iv (array (HashRecord.serialize emptyHsh) H)) = none :=
      (toOption_decrypt sound k iv _).trans (if_pos blank)
    unfold readHashes
    rw [if_neg (encrypt_ne_nil sound k iv _), closed]
  · rename_i random
    have randomSound : (randomProtocol A emptyHsh).Sound := randomProtocol_sound sound
    exact readHashes_encrypt randomSound k ⟨iv, random⟩ H

theorem readChunks_encrypted (sound : A.Sound) (k : KeyBytes) (iv : IV) (C : Option (SlotIndex → Chunk)) :
    readChunks (P := protocol A emptyHsh) k (encrypt A k iv (chunksText C)) =
      if Blank iv.val then none else some (C.getD (fun _ => .zero)) := by
  split
  · rename_i blank
    have closed : (protocol A emptyHsh).decrypt k (encrypt A k iv (chunksText C)) = none :=
      (toOption_decrypt sound k iv _).trans (if_pos blank)
    unfold readChunks
    rw [if_neg (encrypt_ne_nil sound k iv _), closed]
  · rename_i random
    have randomSound : (randomProtocol A emptyHsh).Sound := randomProtocol_sound sound
    exact readChunks_encrypt randomSound k ⟨iv, random⟩ C

section Stores
variable {P : Filesystem.Protocol} {s : Bucket P × Files} {H : SlotIndex → Option HashRecord} {C : Option (SlotIndex → Chunk)}

/-- The chunks are written when they are loaded, and when there is no file of them. -/
def WritesChunks (C : Option (SlotIndex → Chunk)) (s : Bucket P × Files) : Prop := C.isSome ∨ s.2 s.1.myfilenamechnk = none

instance (s : Bucket P × Files) : Decidable (WritesChunks C s) := inferInstanceAs (Decidable (_ ∨ _))

private theorem filled {P : Filesystem.Protocol} {text : Str} {size : Nat} (positive : 0 < size) (length : text.length = size + P.overhead) :
    text ≠ [] := by
  intro empty
  rw [empty, List.length_nil] at length
  omega

theorem chunksCipher_eq (long : ∀ key iv text, (P.encrypt key iv text).length = text.length + P.overhead) (iv : P.IV) :
    chunksCipher C iv s = some (if WritesChunks C s then P.encrypt s.1.key iv (chunksText C) else [], s) := by
  have size : (P.encrypt s.1.key iv (chunksText C)).length = byteSizeChunks + P.overhead := by
    rw [long]
    exact congrArg (· + _) (length_array Chunk.size_eq _)
  have nonempty : P.encrypt s.1.key iv (chunksText C) ≠ [] := filled (by decide) size
  have condition : (C.isSome ∨ ¬(s.2 s.1.myfilenamechnk).isSome) ↔ WritesChunks C s := by
    simp [WritesChunks]
  unfold chunksCipher
  rw [Run.bind_of_some (show self s = some (s.1, s) from rfl), Run.bind_of_some (show fileExists _ s = some (_, s) from rfl)]
  by_cases writes : WritesChunks C s
  · rw [if_pos writes, if_pos (condition.mpr writes), Run.bind_of_some (Run.assert_eq_some.mpr ⟨⟨nonempty, size⟩, rfl⟩), Run.pure_apply]
  · rw [if_neg writes, if_neg (fun holds => writes (condition.mp holds))]
    rfl

/-- The files of a bucket that holds a hash. -/
theorem writeOut_eq (long : ∀ key iv text, (P.encrypt key iv text).length = text.length + P.overhead)
    (held : ∃ i, (H i).isSome) (ivChunks ivHashes : P.IV) :
    writeOut C H ivChunks ivHashes s = some ((), (s.1, Function.update
      (if WritesChunks C s then Function.update s.2 s.1.myfilenamechnk (some (P.encrypt s.1.key ivChunks (chunksText C))) else s.2)
      s.1.myfilenamehsh (some (P.encrypt s.1.key ivHashes (array (HashRecord.serialize P.emptyHsh) H))))) := by
  have chunks : (P.encrypt s.1.key ivChunks (chunksText C)).length = byteSizeChunks + P.overhead := by
    rw [long]
    exact congrArg (· + _) (length_array Chunk.size_eq _)
  have hashes : (P.encrypt s.1.key ivHashes (array (HashRecord.serialize P.emptyHsh) H)).length = byteSizeHashes + P.overhead := by
    rw [long]
    exact congrArg (· + _) (length_array (HashRecord.length_serialize P.emptyHsh) H)
  have some_chunks : P.encrypt s.1.key ivChunks (chunksText C) ≠ [] := filled (by decide) chunks
  have some_hashes : P.encrypt s.1.key ivHashes (array (HashRecord.serialize P.emptyHsh) H) ≠ [] := filled (by decide) hashes
  unfold writeOut writeFiles
  rw [Run.bind_of_some (chunksCipher_eq long ivChunks), Run.bind_of_some (show self s = some (s.1, s) from rfl), if_pos held]
  dsimp only
  rw [Run.bind_of_some (Run.assert_eq_some.mpr ⟨⟨some_hashes, hashes⟩, rfl⟩)]
  by_cases writes : WritesChunks C s
  · rw [if_pos writes, if_pos some_chunks, Run.bind_of_some (show putSystemString _ _ s = some ((), _) from rfl), if_pos writes]
    rfl
  · rw [if_neg writes, if_neg (not_not.mpr rfl), if_neg writes]
    rfl

theorem store_eq (long : ∀ key iv text, (P.encrypt key iv text).length = text.length + P.overhead) (dirty : s.1.Dirty)
    (hashes : s.1.hashes = some H) (held : ∃ i, (H i).isSome) (clearCache : Bool) (ivChunks ivHashes : P.IV) :
    ∃ s', store clearCache ivChunks ivHashes s = some ((), s') ∧
      s.1.storedHashes s'.2 = readHashes s.1.key (P.encrypt s.1.key ivHashes (array (HashRecord.serialize P.emptyHsh) H)) ∧
      s.1.storedChunks s'.2 = if WritesChunks s.1.chunks s then readChunks s.1.key (P.encrypt s.1.key ivChunks (chunksText s.1.chunks))
        else s.1.storedChunks s.2 := by
  -- the arrays are taken before the cache is cleared
  let bare : Bucket P × Files := ({ s.1 with
    chunks := if clearCache then none else s.1.chunks
    hashChangesSinceLoad := 0
    chunkChangesSinceLoad := 0 }, s.2)
  have changed : s.1.hashChangesSinceLoad > 0 ∨ s.1.chunkChangesSinceLoad > 0 := dirty
  have ran : store clearCache ivChunks ivHashes s = writeOut s.1.chunks H ivChunks ivHashes bare := by
    unfold store
    rw [Run.bind_of_some (show self s = some (s.1, s) from rfl), if_pos changed, Run.bind_of_some (show change _ s = some ((), bare) from rfl),
      hashes]
  refine ⟨_, ran.trans (writeOut_eq long held ivChunks ivHashes), ?_, ?_⟩
  · unfold storedHashes getSystemString
    dsimp only
    rw [show s.1.myfilenamehsh = bare.1.myfilenamehsh from rfl, Function.update_self, Option.getD_some]
  · unfold storedChunks getSystemString
    dsimp only
    rw [show s.1.myfilenamechnk = bare.1.myfilenamechnk from rfl, Function.update_of_ne bare.1.filename_ne.symm]
    by_cases writes : WritesChunks s.1.chunks s
    · rw [if_pos writes, if_pos (show WritesChunks s.1.chunks bare from writes), Function.update_self, Option.getD_some]
    · rw [if_neg writes, if_neg (show ¬WritesChunks s.1.chunks bare from writes)]

end Stores

/-- What a store writes can be read again, as far as its records have references, unless an
IV was drawn with a zero word in front; then the file is lost. Chunks that are not loaded
stay as they are in their file, and are written as zeros when there is none. -/
theorem store_reloads (sound : A.Sound) {s : Bucket (protocol A emptyHsh) × Files} {H : SlotIndex → Option HashRecord}
    (dirty : s.1.Dirty) (hashes : s.1.hashes = some H) (held : ∃ i, (H i).isSome) (clearCache : Bool) (ivChunks ivHashes : IV) :
    ∃ s', store clearCache ivChunks ivHashes s = some ((), s') ∧
      s.1.storedHashes s'.2 = (if Blank ivHashes.val then none else some (fun i => (H i).filter HashRecord.counted)) ∧
      s.1.storedChunks s'.2 = (if WritesChunks s.1.chunks s then
        if Blank ivChunks.val then none else some (s.1.chunks.getD (fun _ => .zero)) else s.1.storedChunks s.2) := by
  have long : ∀ k iv text, ((protocol A emptyHsh).encrypt k iv text).length = text.length + (protocol A emptyHsh).overhead :=
    length_encrypt sound
  obtain ⟨s', ran, storedHashes, storedChunks⟩ := store_eq long dirty hashes held clearCache ivChunks ivHashes
  refine ⟨s', ran, storedHashes.trans (readHashes_encrypted sound s.1.key ivHashes H), ?_⟩
  rw [storedChunks]
  exact if_congr Iff.rfl (readChunks_encrypted sound s.1.key ivChunks s.1.chunks) rfl

/-- A text with an empty tag; enough to run the protocol with. -/
def padded : Aead where
  encrypt := fun _ _ text => text ++ List.replicate tagSize 0
  decrypt := fun _ _ text => some (text.take (text.length - tagSize))

theorem padded_sound : padded.Sound where
  decrypt_encrypt := by
    intro key iv text
    unfold padded
    dsimp only
    rw [List.length_append, List.length_replicate, Nat.add_sub_cancel, List.take_left]
  length_encrypt := by
    intro key iv text
    rw [padded, List.length_append, List.length_replicate]

def uniformIV (byte : UInt8) : IV := ⟨List.replicate IVSize byte, List.length_replicate⟩

def uniformSum (byte : UInt8) : Sha256 := ⟨List.replicate 32 byte, List.length_replicate⟩

/-- A bucket in which every slot holds a chunk of zeros. -/
def fullBucket : Bucket (protocol padded (uniformSum 0)) × Files :=
  ({ filenamebase := [], key := ⟨List.replicate keySize 7, List.length_replicate⟩, chunks := some (fun _ => .zero),
     hashes := some (fun _ => some ⟨0, 1, uniformSum 1⟩), hashChangesSinceLoad := 1 }, fun _ => none)

theorem store_reloads_blank : ∃ s', store false (uniformIV 1) (uniformIV 0) fullBucket = some ((), s') ∧
    fullBucket.1.storedHashes s'.2 = none ∧ fullBucket.1.storedChunks s'.2 = some (fun _ => .zero) := by
  have dirty : fullBucket.1.Dirty := Or.inl (by decide)
  obtain ⟨s', ran, hashes, chunks⟩ :=
    store_reloads padded_sound dirty rfl ⟨(0 : Fin 256), rfl⟩ false (uniformIV 1) (uniformIV 0)
  refine ⟨s', ran, hashes.trans (if_pos (by decide)), ?_⟩
  rw [chunks, if_pos (show WritesChunks fullBucket.1.chunks fullBucket from Or.inl rfl), if_neg (by decide)]
  rfl

end Buckets

end CloudCryptFS.Crypto
