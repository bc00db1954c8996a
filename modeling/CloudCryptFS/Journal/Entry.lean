import CloudCryptFS.Util.Bytes
import CloudCryptFS.Script.Lexer

/-! Journal entries as they are written: a header of fixed size, and in a message of its
own what follows it. -/

namespace CloudCryptFS.Journal
open Util Bytes Script.Lexer

/-- `journalEntryType`. -/
inductive EntryType where
  | close
  | mkobject
  | write
  | unlink
  | renamemove
  | chmod
  | chown
  | truncate
  deriving DecidableEq

namespace EntryType

def code : EntryType → UInt32
  | close => 0x10
  | mkobject => 0x20
  | write => 0x30
  | unlink => 0x40
  | renamemove => 0x50
  | chmod => 0x60
  | chown => 0x70
  | truncate => 0x80

def ofCode? (n : UInt32) : Option EntryType :=
  [close, mkobject, write, unlink, renamemove, chmod, chown, truncate].find? (fun type => type.code = n)

@[simp]
theorem ofCode?_code (type : EntryType) : ofCode? type.code = some type := by
  cases type <;> rfl

end EntryType

/-- `journalEntry`; the type is read as it is in the file. -/
structure JournalEntry where
  id : UInt32
  type : UInt32
  parentNode : UInt64
  newNode : UInt64
  newParentNode : UInt64
  mod : UInt32
  offset : Int64
  nameLength : UInt64
  dataLength : UInt64
  deriving DecidableEq

namespace JournalEntry

/-- `sizeof(journalEntry)`. -/
def width : Nat := 64

/-- The fields in memory; four bytes after `mod` align the offset. -/
def fields (e : JournalEntry) : List (Nat × Nat) :=
  [(4, e.id.toNat), (4, e.type.toNat), (8, e.parentNode.toNat), (8, e.newNode.toNat), (8, e.newParentNode.toNat),
    (4, e.mod.toNat), (4, 0), (8, e.offset.toUInt64.toNat), (8, e.nameLength.toNat), (8, e.dataLength.toNat)]

def serialize (e : JournalEntry) : Str := words e.fields

/-- The entry at the beginning of a text. -/
def load (text : Str) : JournalEntry :=
  match readWords [4, 4, 8, 8, 8, 4, 4, 8, 8, 8] text with
  | [id, type, parentNode, newNode, newParentNode, mod, _, offset, nameLength, dataLength] =>
    ⟨UInt32.ofNat id, UInt32.ofNat type, UInt64.ofNat parentNode, UInt64.ofNat newNode, UInt64.ofNat newParentNode,
      UInt32.ofNat mod, (UInt64.ofNat offset).toInt64, UInt64.ofNat nameLength, UInt64.ofNat dataLength⟩
  | _ => ⟨0, 0, 0, 0, 0, 0, 0, 0, 0⟩

@[simp]
theorem length_serialize (e : JournalEntry) : e.serialize.length = width := by
  rw [serialize, length_words]
  rfl

/-- Nothing behind the entry is read. -/
theorem load_append (e : JournalEntry) (text : Str) : load (e.serialize ++ text) = e := by
  have fits : ∀ field ∈ e.fields, field.2 < 256 ^ field.1 := by
    have word := fun n : UInt32 => n.toNat_lt
    have long := fun n : UInt64 => n.toNat_lt
    simp only [fields, List.forall_mem_cons]
    refine ⟨word _, word _, long _, long _, long _, word _, by norm_num, long _, long _, long _, ?_⟩
    exact fun _ none => absurd none List.not_mem_nil
  have read := (readWords_words_append e.fields text).trans (readWords_words fits)
  have widths : e.fields.map Prod.fst = [4, 4, 8, 8, 8, 4, 4, 8, 8, 8] := rfl
  rw [widths] at read
  unfold load serialize
  rw [read]
  simp [fields]

@[simp]
theorem load_serialize (e : JournalEntry) : load e.serialize = e := by
  have whole := load_append e []
  rwa [List.append_nil] at whole

end JournalEntry

/-- An entry with its name and data, as it is handed to a replay. -/
structure Replayed where
  entry : JournalEntry
  name : Str
  data : Str
  deriving DecidableEq

/-- What one call of `writeEntry` puts into a file. -/
structure Record extends Replayed where
  kind : EntryType
  type_eq : entry.type = kind.code
  nameLength_eq : entry.nameLength.toNat = name.length
  dataLength_eq : entry.dataLength.toNat = data.length

namespace Record

def id (r : Record) : UInt32 := r.entry.id

/-- The record in the complete journal. -/
def plain (r : Record) : Str := r.entry.serialize ++ (r.name ++ r.data)

theorem length_plain (r : Record) : r.plain.length = JournalEntry.width + (r.entry.nameLength.toNat + r.entry.dataLength.toNat) := by
  rw [plain, List.length_append, List.length_append, JournalEntry.length_serialize, r.nameLength_eq, r.dataLength_eq]

end Record

/-- `crypto::streamInterface` under one key: a header starts the state, and each message
moves it on. -/
structure StreamCipher where
  State : Type
  start : Str → State
  push : State → Str → Str × State
  pull : State → Str → Option (Str × State)

/-- `crypto_secretstream_xchacha20poly1305_HEADERBYTES`. -/
def streamHeaderSize : Nat := 24

/-- `stream::encryptionOverhead`. -/
def encryptionOverhead (messageSize : Nat) : Nat := messageSize + 17

/-- Complete messages are decrypted in order. -/
structure StreamCipher.Sound (S : StreamCipher) : Prop where
  length_push : ∀ state message, (S.push state message).1.length = encryptionOverhead message.length
  pull_push : ∀ state message, S.pull state (S.push state message).1 = some (message, (S.push state message).2)

/-- The header of a new file. -/
structure StreamHeader where
  text : Str
  size_eq : text.length = streamHeaderSize

/-- `journalFile`, with what has been written to the file. -/
structure JournalFile (S : StreamCipher) where
  entries : UInt32
  cryptostream : S.State
  text : Str

namespace JournalFile
variable {S : StreamCipher}

/-- `journalFile::journalFile`. -/
def create (header : StreamHeader) : JournalFile S := ⟨0, S.start header.text, header.text⟩

/-- `journalFile::writeEntry`. -/
def writeEntry (entry : JournalEntry) (name data : Str) (f : JournalFile S) : JournalFile S :=
  let datacontent := name ++ data
  let (encryptedContent, state) := S.push f.cryptostream entry.serialize
  if datacontent.length ≠ 0 then
    let (encryptedData, state) := S.push state datacontent
    ⟨f.entries + 1, state, f.text ++ (encryptedContent ++ encryptedData)⟩
  else ⟨f.entries + 1, state, f.text ++ encryptedContent⟩

/-- The entry that ends another one. -/
def closeEntry (id : UInt32) : JournalEntry := ⟨id, EntryType.close.code, 0, 0, 0, 0, 0, 0, 0⟩

/-- `journalFile::deleteEntry`. -/
def deleteEntry (id : UInt32) (f : JournalFile S) : JournalFile S := f.writeEntry (closeEntry id) [] []

end JournalFile

/-- What `deleteEntry` writes. -/
def Record.close (id : UInt32) : Record :=
  ⟨⟨JournalFile.closeEntry id, [], []⟩, .close, rfl, rfl, rfl⟩

section Encoding
variable {S : StreamCipher}

/-- The messages of a record as they go to the file, and the state after them. -/
def Record.cipher (state : S.State) (r : Record) : Str × S.State :=
  let content := S.push state r.entry.serialize
  if (r.name ++ r.data).length ≠ 0 then
    let data := S.push content.2 (r.name ++ r.data)
    (content.1 ++ data.1, data.2)
  else content

/-- Several records, one after the other. -/
def encode (state : S.State) : List Record → Str × S.State
  | [] => ([], state)
  | r :: rest => ((r.cipher state).1 ++ (encode (r.cipher state).2 rest).1, (encode (r.cipher state).2 rest).2)

theorem encode_append (state : S.State) (first second : List Record) :
    encode state (first ++ second) =
      ((encode state first).1 ++ (encode (encode state first).2 second).1, (encode (encode state first).2 second).2) := by
  induction first generalizing state with
  | nil => rfl
  | cons r rest ih =>
    rw [List.cons_append, encode, ih]
    simp only [encode, List.append_assoc]

/-- The size of a record in a file. -/
def Record.size (r : Record) : Nat :=
  encryptionOverhead JournalEntry.width + (if (r.name ++ r.data).length ≠ 0 then encryptionOverhead (r.name ++ r.data).length else 0)

theorem Record.length_cipher (sound : S.Sound) (state : S.State) (r : Record) : (r.cipher state).1.length = r.size := by
  unfold Record.cipher Record.size
  dsimp only
  split
  · rw [List.length_append, sound.length_push, sound.length_push, JournalEntry.length_serialize]
  · rw [sound.length_push, JournalEntry.length_serialize, Nat.add_zero]

theorem Record.size_pos (r : Record) : 0 < r.size := by
  unfold Record.size encryptionOverhead JournalEntry.width
  omega

/-- A file holds its header and some records. -/
structure Holds (f : JournalFile S) (header : StreamHeader) (records : List Record) : Prop where
  text : f.text = header.text ++ (encode (S.start header.text) records).1
  stream : f.cryptostream = (encode (S.start header.text) records).2

theorem Holds.create (header : StreamHeader) : Holds (JournalFile.create header : JournalFile S) header [] :=
  ⟨(List.append_nil _).symm, rfl⟩

theorem Holds.writeEntry {f : JournalFile S} {header : StreamHeader} {records : List Record} (holds : Holds f header records) (r : Record) :
    Holds (f.writeEntry r.entry r.name r.data) header (records ++ [r]) := by
  have last : encode (S.start header.text) (records ++ [r]) =
      ((encode (S.start header.text) records).1 ++ (r.cipher f.cryptostream).1, (r.cipher f.cryptostream).2) := by
    rw [encode_append, ← holds.stream]
    simp only [encode, List.append_nil]
  have moved : f.writeEntry r.entry r.name r.data =
      ⟨f.entries + 1, (r.cipher f.cryptostream).2, f.text ++ (r.cipher f.cryptostream).1⟩ := by
    unfold JournalFile.writeEntry Record.cipher
    dsimp only
    split <;> rfl
  rw [moved]
  refine ⟨?_, ?_⟩
  · rw [last, ← List.append_assoc, ← holds.text]
  · rw [last]

end Encoding

section Tagged

def tag (n : Nat) (message : Str) : Str := littleEndian 17 n ++ message

def untag (n : Nat) (text : Str) : Option (Str × Nat) :=
  if text.take 17 = littleEndian 17 n then some (text.drop 17, n + 1) else none

theorem length_tag (n : Nat) (message : Str) : (tag n message).length = encryptionOverhead message.length := by
  rw [tag, List.length_append, length_littleEndian, Nat.add_comm, encryptionOverhead]

theorem untag_tag (n : Nat) (message : Str) : untag n (tag n message) = some (message, n + 1) := by
  have long := length_littleEndian 17 n
  rw [untag, tag, List.take_left' long, if_pos rfl, List.drop_left' long]

/-- A stream for concrete runs: a message carries its number in the place of the tag. -/
def taggedStream : StreamCipher where
  State := Nat
  start := fromLittleEndian
  push n message := (tag n message, n + 1)
  pull := untag

theorem taggedStream_sound : taggedStream.Sound := ⟨length_tag, untag_tag⟩

/-- A new object with a name of one byte. -/
def mkobjectA : Record :=
  ⟨⟨⟨0, EntryType.mkobject.code, 256, 257, 0, 0x81a4, 0, 1, 0⟩, lit "a", []⟩, .mkobject, rfl, rfl, rfl⟩

def zeroHeader : StreamHeader := ⟨List.replicate 24 0, rfl⟩

end Tagged

end CloudCryptFS.Journal
