import CloudCryptFS.Filesystem.CtdChains
import CloudCryptFS.Crypto.Protocol
import CloudCryptFS.Script.Nested
import CloudCryptFS.Util.Base64
import Mathlib.Data.Finset.Sort

/-! The properties of the root: the buckets that are in use and the encryption key. They
are kept as one document in the chain for metadata; a store of the metadata writes the
lists anew, a migration the key, both in memory only. A mount reads what the files of the
buckets held of the chain when they were last written. -/

namespace CloudCryptFS.Filesystem
open Util Pages Script Lexer Json Flat Malformed Documents
open Crypto (KeyBytes keySize)

/-- `sodium_bin2base64` and `sodium_base642bin` in the original variant. -/
structure Base64Lib where
  bin2base64 : Str → Str
  base642bin : Str → Option Str

/-- What the library promises. -/
structure Base64Lib.Sound (B : Base64Lib) : Prop where
  base642bin_bin2base64 : ∀ bytes, B.base642bin (B.bin2base64 bytes) = some bytes
  character : ∀ bytes, ∀ c ∈ B.bin2base64 bytes, Base64.Character c

/-- The root: its chain for metadata, and the `extraMeta` of its file once that is there. -/
structure Root (F : Type) where
  metadata : Metadata
  extraMeta : Option (JSON F)

namespace Root
variable {F : Type} [FloatLib F] (B : Base64Lib)

section Json

/-- A list after `get` has made room in it. -/
def extended {α : Type} (blank : α) (stor : List α) (size : Nat) : List α := stor ++ List.replicate (max 1 size - stor.length) blank

def getSize : ListVariant F → Nat
  | .undef => 0
  | .obj stor => stor.length
  | .str stor => stor.length
  | .int stor => stor.length
  | .flt stor => stor.length

/-- `setMetaProperty` of a set of numbers. -/
def setNumbers (propertyname : Str) (ids : List Int) (json : JSON F) : Except Fault (JSON F) := do
  let json := json.clearProperty propertyname
  let stor ← toInts (json.value propertyname)
  let arr := extended 0 stor ids.length
  pure (json.setValue propertyname (.int (ids ++ arr.drop ids.length)))

/-- `setMetaProperty` of an object. -/
def setObject (propertyname : Str) (object json : JSON F) : Except Fault (JSON F) := do
  let stor ← toObjs (json.value propertyname)
  pure (json.setValue propertyname (.obj (putAt none stor 0 (some object))))

def setNumber (name : Str) (i : Int) (json : JSON F) : Except Fault (JSON F) := do
  let stor ← toInts (json.value name)
  pure (json.setValue name (.int (putAt 0 stor 0 i)))

/-- The object under a name, which is made when it is not there. -/
def getObject (name : Str) (json : JSON F) : Except Fault (JSON F) := do
  let stor ← toObjs (json.value name)
  pure ((stor.head?.join).getD .empty)

/-- `storeKey`. -/
def storeKey (k : KeyBytes) (configNode : JSON F) : Except Fault (JSON F) := do
  let stor ← toStrs (configNode.value (lit "key"))
  pure (configNode.setValue (lit "key") (.str (putAt [] stor 0 (B.bin2base64 k.val))))

/-- `loadKey`. -/
def loadKey (configNode : JSON F) : Except Fault (Option KeyBytes) := do
  let stor ← toStrs (configNode.value (lit "key"))
  pure ((B.base642bin (stor.head?.getD [])).bind (fun out => if fits : out.length = keySize then some ⟨out, fits⟩ else none))

/-- The numbers that `loadBuckets` goes through. -/
def loadNumbers (name : Str) (json : JSON F) : Except Fault (List Int) := do
  let l := getSize (json.value name)
  let stor ← toInts (json.value name)
  pure ((extended 0 stor l).take l)

end Json

section Operations

/-- An exception ends the operation. -/
def lift {α : Type} : Except Fault α → Run (Root F) α
  | .ok a => pure a
  | .error _ => Run.abort

def onMetadata {α : Type} (operation : MetaM α) : Run (Root F) α := fun r =>
  (operation r.metadata).map (fun result => (result.1, { r with metadata := result.2 }))

/-- `getBucketsInUse`, as the numbers that are put in the document. -/
def numbers (buckets : Finset Nat) : List Int := (buckets.sort (· ≤ ·)).map (fun id : Nat => Int.bmod id (2 ^ 64))

/-- `storeMetaProperties` of the root's file. -/
def storeMetaProperties (extraMeta : JSON F) : Run (Root F) Unit := do
  let r ← MonadState.get
  if r.metadata.inode.myID ≠ 0 then
    let metaString := serialize 0 extraMeta
    if metaString.length > 2 then onMetadata (Metadata.storeMetaDataInINode metaString) else pure ()
  else pure ()

/-- One round of the loop of `storeMetadata`; the second list comes from the other accounting. -/
def storeRound (buckets : Finset Nat) : Run (Root F) Unit := do
  let r ← MonadState.get
  match r.extraMeta with
  | none => pure ()
  | some extraMeta => do
    let extraMeta ← lift (setNumbers (lit "metaBuckets") (numbers r.metadata.accounting.bucketsInUse) extraMeta)
    let extraMeta ← lift (setNumbers (lit "buckets") (numbers buckets) extraMeta)
    modify (fun r => { r with extraMeta := some extraMeta })
    storeMetaProperties extraMeta

/-- The part of `fs::migrate` that stores the new key. -/
def migrateKey (k : KeyBytes) : Run (Root F) Unit := do
  let r ← MonadState.get
  match r.extraMeta with
  | none => Run.abort
  | some extraMeta => do
    let key ← lift (storeKey B k .empty)
    let extraMeta ← lift (setObject (lit "encryptionKey") key extraMeta)
    modify (fun r => { r with extraMeta := some extraMeta })
    storeMetaProperties extraMeta

/-- What a mount takes from the root. -/
structure Settings where
  metaBuckets : List Int
  buckets : List Int
  encryptionKey : KeyBytes

/-- `initFileSystem`, as far as the root's metadata goes. -/
def mount (fuel : Nat) : Run (Root F) Settings := do
  let metaString ← onMetadata (Metadata.loadMetaDataFromINode fuel)
  Run.assert (metaString.length > 0)
  let metaInfo ← lift (unserialize metaString)
  let configNode ← lift (getObject (lit "encryptionKey") metaInfo)
  let key ← lift (loadKey B configNode)
  match key with
  | none => Run.abort
  | some key => do
    let metaBuckets ← lift (loadNumbers (lit "metaBuckets") metaInfo)
    let buckets ← lift (loadNumbers (lit "buckets") metaInfo)
    modify (fun r => { r with extraMeta := some metaInfo })
    pure ⟨metaBuckets, buckets, key⟩

/-- The document of a new file system. -/
def newInfo (k : KeyBytes) : Except Fault (JSON F) := do
  let metaInfo ← setNumber (lit "metaBuckets") 1 .empty
  let metaInfo ← setNumber (lit "buckets") 1 metaInfo
  let configNode ← getObject (lit "encryptionKey") metaInfo
  let configNode ← storeKey B k configNode
  setObject (lit "encryptionKey") configNode metaInfo

/-- The first record has the whole text. -/
def newMetadata (metaString : Str) : Metadata where
  inode := ⟨rootIndex, 0, metaIndex, metaString.length, 0, fun _ => 0⟩
  ctds := Function.update (fun _ => none) metaIndex (some ⟨metaIndex, 0, fun offset => metaString.getD offset 0⟩)
  accounting := Accounting.init {1}

/-- The root of a new file system. -/
def create (k : KeyBytes) : Option (Root F) :=
  match newInfo (F := F) B k with
  | .error _ => none
  | .ok metaInfo =>
    let metaString := serialize 0 metaInfo
    if metaString.length < InodeCtd.charSize then some ⟨newMetadata metaString, none⟩ else none

end Operations

section Documents
variable {B}

namespace Settings

/-- The settings as the document that is stored. -/
def doc (B : Base64Lib) (c : Settings) : Doc :=
  .cons (lit "buckets") (.ints c.buckets)
    (.cons (lit "encryptionKey") (.obj (.cons (lit "key") (.strs [B.bin2base64 c.encryptionKey.val]) .nil))
      (.cons (lit "metaBuckets") (.ints c.metaBuckets) .nil))

/-- Numbers that the parser takes. -/
def Small (ids : List Int) : Prop := ids ≠ [] ∧ ∀ i ∈ ids, i.natAbs ≤ intMax

structure Fits (c : Settings) : Prop where
  metaBuckets : Small c.metaBuckets
  buckets : Small c.buckets

end Settings

theorem printable_character {c : UInt8} (character : Base64.Character c) : Printable c := by
  have all : ∀ c : Fin 256, ((Base64.value (UInt8.ofNat c)).isSome ∨ UInt8.ofNat c = Base64.pad) → Printable (UInt8.ofNat c) := by decide +kernel
  have here := all ⟨c.toNat, c.toNat_lt⟩
  rw [UInt8.ofNat_toNat] at here
  exact here character

theorem valid_ints {ids : List Int} (small : Settings.Small ids) : (Value.ints ids).Valid := by
  refine ⟨small.1, fun i member => ?_⟩
  have bound := small.2 i member
  unfold intMax at bound
  omega

theorem valid_doc (sound : B.Sound) {c : Settings} (fits : c.Fits) : (c.doc B).Valid := by
  have key : (Doc.cons (lit "key") (.strs [B.bin2base64 c.encryptionKey.val]) .nil).Valid := by
    refine ⟨by decide +kernel, fun _ member => absurd member List.not_mem_nil, ⟨List.cons_ne_nil _ _, ?_⟩, trivial⟩
    intro text member byte inside
    rw [List.mem_singleton.mp member] at inside
    exact printable_character (sound.character _ byte inside)
  have above : ∀ other ∈ [lit "encryptionKey", lit "metaBuckets"], lit "buckets" < other := by decide +kernel
  have above' : ∀ other ∈ [lit "metaBuckets"], lit "encryptionKey" < other := by decide +kernel
  exact ⟨by decide +kernel, above, valid_ints fits.buckets, by decide +kernel, above', key, by decide +kernel, fun _ member => absurd member List.not_mem_nil,
    valid_ints fits.metaBuckets, trivial⟩

theorem read_doc {c : Settings} (fits : c.Fits) : ((c.doc B).read []).isSome := by
  simp only [Settings.doc, Doc.read, Value.read, if_pos fits.buckets.2, if_pos fits.metaBuckets.2, Option.bind_some, separated, braced]
  rfl

/-- The numbers that are there after a set has been written. -/
def listed (ids : List Int) : List Int := if ids = [] then [0] else ids

theorem drop_extended (ids : List Int) : ids ++ (extended 0 [] ids.length).drop ids.length = listed ids := by
  cases ids with
  | nil => rfl
  | cons i ids =>
    rw [extended, List.nil_append, listed, if_neg (List.cons_ne_nil i ids), List.drop_eq_nil_of_le, List.append_nil]
    simp

theorem setNumbers_metaBuckets (c : Settings) (ids : List Int) :
    setNumbers (lit "metaBuckets") ids ((c.doc B).json F) = .ok (({ c with metaBuckets := listed ids }).doc B |>.json F) := by
  rw [← drop_extended]
  rfl

theorem setNumbers_buckets (c : Settings) (ids : List Int) :
    setNumbers (lit "buckets") ids ((c.doc B).json F) = .ok (({ c with buckets := listed ids }).doc B |>.json F) := by
  rw [← drop_extended]
  rfl

theorem newInfo_eq (k : KeyBytes) : newInfo B k = .ok ((⟨[1], [1], k⟩ : Settings).doc B |>.json F) := rfl

/-- The object that holds the key. -/
def keyNode (B : Base64Lib) (k : KeyBytes) : JSON F := .mk [(lit "key", .str [B.bin2base64 k.val])] []

theorem storeKey_empty (k : KeyBytes) : storeKey B k .empty = .ok (keyNode (F := F) B k) := rfl

omit [FloatLib F] in
theorem setObject_encryptionKey (c : Settings) (k : KeyBytes) :
    setObject (lit "encryptionKey") (keyNode B k) ((c.doc B).json F) = .ok (({ c with encryptionKey := k }).doc B |>.json F) := rfl

omit [FloatLib F] in
theorem getObject_encryptionKey (c : Settings) :
    getObject (lit "encryptionKey") ((c.doc B).json F) = .ok (keyNode B c.encryptionKey) := rfl

theorem loadKey_keyNode (sound : B.Sound) (k : KeyBytes) : loadKey B (keyNode (F := F) B k) = .ok (some k) := by
  have read : (B.base642bin (B.bin2base64 k.val)).bind (fun out => if fits : out.length = keySize then some (⟨out, fits⟩ : KeyBytes) else none) =
      some k := by
    rw [sound.base642bin_bin2base64, Option.bind_some, dif_pos k.property]
  exact congrArg Except.ok read

theorem take_extended (ids : List Int) : (extended 0 ids ids.length).take ids.length = ids := by
  rw [extended, List.take_left]

theorem loadNumbers_metaBuckets (c : Settings) : loadNumbers (lit "metaBuckets") ((c.doc B).json F) = .ok c.metaBuckets :=
  congrArg Except.ok (take_extended c.metaBuckets)

theorem loadNumbers_buckets (c : Settings) : loadNumbers (lit "buckets") ((c.doc B).json F) = .ok c.buckets :=
  congrArg Except.ok (take_extended c.buckets)

theorem unserialize_doc (sound : B.Sound) {c : Settings} (fits : c.Fits) :
    unserialize (serialize 0 ((c.doc B).json F)) = .ok ((c.doc B).json F) := by
  have valid := valid_doc sound fits
  obtain ⟨⟨names, didCloseObj⟩, read⟩ := Option.isSome_iff_exists.mp (read_doc (B := B) fits)
  obtain ⟨value, _, ran⟩ := run_doc F (c.doc B) valid [] names didCloseObj read [] [] 0 []
    (fun _ member => absurd member List.not_mem_nil)
  have opened : advance openBrace ({} : Parser F) = some (within false ⟨.mk [] [], [], 0⟩ [] [] false) := rfl
  have front : Schedule.run advance (openBrace :: (c.doc B).tokens) ({} : Parser F) =
      some (within value ⟨(c.doc B).json F, [], 0⟩ [] names didCloseObj) := (Schedule.run_cons opened).trans ran
  rw [unserialize, lex_serialize F 0 valid, parse_append front]
  rfl

/-- The text has more than two characters, and no zero at its end. -/
theorem serialize_doc_shape (sound : B.Sound) {c : Settings} (fits : c.Fits) :
    2 < (serialize 0 ((c.doc B).json F)).length ∧ (serialize 0 ((c.doc B).json F)).getLast? ≠ some 0 := by
  have filled : (c.doc B).body 0 ≠ [] := body_ne_nil 0 _ _ _
  have shape : serialize 0 ((c.doc B).json F) = 123 :: ((c.doc B).body 0 ++ [125]) := by
    rw [serialize_doc F 0 (valid_doc sound fits), braces, if_neg filled]
    rfl
  have positive := List.length_pos_iff.mpr filled
  rw [shape]
  constructor
  · simp only [List.length_cons, List.length_append, List.length_nil]
    omega
  · rw [List.getLast?_cons, List.getLast?_concat]
    decide

end Documents

section Chain
variable {m m' : Metadata} {input : Str} {chain : List BucketIndex}

/-- A text is stored on the chain for metadata. -/
structure Written (m : Metadata) (input : Str) (chain : List BucketIndex) : Prop where
  path : Trail m.ctds InodeCtd.next (link m.inode.metaID) chain
  whole : ∃ tail, text m.ctds charLayout.view chain = input ++ tail
  size : m.inode.metasize = input.length
  apart : ∀ i ∈ chain, ¬m.accounting.Free i
  ready : m.accounting.Ready

theorem metaLoop_short {c : BucketIndex} {rest : List BucketIndex} (path : Trail m.ctds InodeCtd.next (some c) (c :: rest)) {fuel : Nat}
    (short : fuel ≤ rest.length) : Metadata.metaLoop fuel c m = none := by
  induction rest generalizing c fuel with
  | nil =>
    cases Nat.le_zero.mp short
    rfl
  | cons d rest ih =>
    cases fuel with
    | zero => rfl
    | succ fuel =>
      obtain ⟨p, _, found, same, later⟩ := path.of_some
      cases same
      have followed := later.head_eq
      have next : p.nextID ≠ 0 ∧ p.nextID = d := Metadata.link_eq_some.mp followed
      rw [List.head?_cons] at followed
      rw [followed] at later
      rw [Metadata.metaLoop, Run.bind_of_some (Metadata.inoToChunk_spec found), if_neg next.1, next.2, Run.bind_apply,
        ih later (Nat.le_of_succ_le_succ short)]
      rfl

/-- A text is loaded when there is fuel for its chain. -/
theorem Written.load (written : Written m input chain) (filled : 0 < input.length) (last : input.getLast? ≠ some 0) (fuel : Nat) :
    Metadata.loadMetaDataFromINode fuel m = if chain.length ≤ fuel then some (input, m) else none := by
  obtain ⟨tail, whole⟩ := written.whole
  cases chain with
  | nil =>
    have empty := (List.append_eq_nil_iff.mp whole.symm).1
    rw [empty] at filled
    cases filled
  | cons c rest =>
    have head := written.path.head_eq
    rw [List.head?_cons] at head
    have first := (Metadata.link_eq_some.mp head).2
    have path := written.path
    rw [head] at path
    rw [Metadata.loadMetaDataFromINode, Run.bind_of_some (Run.get_apply m), written.size, if_pos filled, first]
    by_cases enough : (c :: rest).length ≤ fuel
    · rw [if_pos enough, Run.bind_of_some (Metadata.metaLoop_spec path enough), whole, Metadata.resize_rdropWhile last]
      rfl
    · rw [if_neg enough, Run.bind_apply, metaLoop_short path (Nat.le_of_not_lt enough)]
      rfl

/-- The chain is kept when another text is stored, and gets the records that it needs. -/
theorem Written.store {old : Str} (written : Written m old chain)
    (ran : Metadata.storeMetaDataInINode input m = some ((), m')) :
    ∃ new, Written m' input (chain ++ new) ∧ m'.inode.myID = m.inode.myID := by
  have short : input.length < 2 ^ 32 - 1 := by
    unfold Metadata.storeMetaDataInINode at ran
    obtain ⟨_, _, asserted, _⟩ := Run.bind_eq_some.mp ran
    exact (Run.assert_eq_some.mp asserted).1
  obtain ⟨c, rest, new, tail, t, stored, inode, nonzero, shape, path, whole, grown⟩ :=
    Metadata.storeMetaDataInINode_spec short written.path written.apart written.ready
  cases ran.symm.trans stored
  refine ⟨new, ⟨?_, ⟨tail, shape ▸ whole⟩, ?_, grown.apart written.apart, grown.ready⟩, ?_⟩
  · have head : link m'.inode.metaID = some c := by
      rw [inode]
      exact Metadata.link_eq_some.mpr ⟨nonzero, rfl⟩
    rw [head, shape]
    exact path
  · rw [inode]
  · rw [inode]

end Chain

section Runs
variable {B} {r r' : Root F} {c d : Settings} {m m' : Metadata}

/-- The root and the records of its chain are the same, and nobody else gets the records. -/
structure Apart (m m' : Metadata) : Prop where
  myID : m'.inode.myID = m.inode.myID
  metaID : m'.inode.metaID = m.inode.metaID
  metasize : m'.inode.metasize = m.inode.metasize
  records : ∀ chain, Trail m.ctds InodeCtd.next (link m.inode.metaID) chain →
    ∀ i ∈ chain, m'.ctds i = m.ctds i ∧ ¬m'.accounting.Free i
  ready : m'.accounting.Ready

/-- A mounted file system: the root in memory, and what the files of its buckets hold. -/
structure Mounted (F : Type) where
  root : Root F
  files : Metadata

inductive Step where
  | mount (m : Metadata) (fuel : Nat)
  | storeRound (buckets : Finset Nat)
  | migrateKey (k : KeyBytes)
  | others (m : Metadata)
  | storeAllData (m : Metadata)

namespace Step

def onRoot {α : Type} (operation : Run (Root F) α) : Run (Mounted F) α := fun s =>
  (operation s.root).map (fun result => (result.1, { s with root := result.2 }))

/-- A mount starts from the files and makes its own accounting, a store replaces the files. -/
def perform (B : Base64Lib) : Step → Run (Mounted F) Unit
  | mount m fuel => do
    modify (fun s => { s with root := ⟨m, none⟩ })
    let _ ← onRoot (Root.mount B fuel)
    pure ()
  | storeRound buckets => onRoot (Root.storeRound buckets)
  | migrateKey k => onRoot (Root.migrateKey B k)
  | others m => modify (fun s => { s with root := { s.root with metadata := m } })
  | storeAllData m => modify (fun s => { s with files := m })

/-- The settings after a store in memory. -/
def latest (r : Root F) (c : Settings) : Step → Settings
  | storeRound buckets =>
    if r.extraMeta.isSome then ⟨listed (numbers r.metadata.accounting.bucketsInUse), listed (numbers buckets), c.encryptionKey⟩ else c
  | migrateKey k => { c with encryptionKey := k }
  | _ => c

/-- The settings in memory and in the files after the step. -/
inductive Leads (s : Mounted F) (c d : Settings) : Step → Settings → Settings → Prop where
  | mount {m : Metadata} (fuel : Nat) (read : Apart s.files m) : Leads s c d (.mount m fuel) d d
  | storeRound {buckets : Finset Nat} (small : ∀ id ∈ s.root.metadata.accounting.bucketsInUse ∪ buckets, id ≤ intMax) :
    Leads s c d (.storeRound buckets) ((Step.storeRound buckets).latest s.root c) d
  | migrateKey (k : KeyBytes) : Leads s c d (.migrateKey k) ((Step.migrateKey k).latest s.root c) d
  | others {m : Metadata} (apart : Apart s.root.metadata m) : Leads s c d (.others m) c d
  -- a store writes the whole of the chain, as it is in memory, or nothing of it
  | written {m : Metadata} (whole : Apart s.root.metadata m) : Leads s c d (.storeAllData m) c c
  | unwritten {m : Metadata} (nothing : Apart s.files m) : Leads s c d (.storeAllData m) c d

end Step

/-- The file systems that can be got to, with the settings in memory and in the files. -/
inductive Reached (B : Base64Lib) : Mounted F → Settings → Settings → Prop where
  | create {k : KeyBytes} {r : Root F} (made : create B k = some r) : Reached B ⟨r, r.metadata⟩ ⟨[1], [1], k⟩ ⟨[1], [1], k⟩
  | step {s s' : Mounted F} {c d c' d' : Settings} {next : Step} (before : Reached B s c d) (leads : next.Leads s c d c' d')
    (ran : next.perform B s = some ((), s')) : Reached B s' c' d'

/-- The document is in the chain. -/
structure Saved (F : Type) [FloatLib F] (B : Base64Lib) (m : Metadata) (c : Settings) : Prop where
  fits : c.Fits
  written : ∃ chain, Written m (serialize 0 ((c.doc B).json F)) chain
  numbered : m.inode.myID ≠ 0

/-- The document is in the chain, and in the file when there is one. -/
structure Holds (B : Base64Lib) (r : Root F) (c : Settings) : Prop where
  saved : Saved F B r.metadata c
  extraMeta : ∀ json ∈ r.extraMeta, json = (c.doc B).json F

theorem Saved.mount (sound : B.Sound) (saved : Saved F B m c) : ∃ enough, ∀ fuel extraMeta,
    mount B fuel (⟨m, extraMeta⟩ : Root F) = if enough ≤ fuel then some (c, ⟨m, some ((c.doc B).json F)⟩) else none := by
  obtain ⟨chain, written⟩ := saved.written
  obtain ⟨long, last⟩ := serialize_doc_shape (F := F) sound saved.fits
  have filled := Nat.lt_trans Nat.zero_lt_two long
  refine ⟨chain.length, fun fuel extraMeta => ?_⟩
  have loaded := written.load filled last fuel
  unfold Root.mount onMetadata
  rw [Run.bind_apply, loaded]
  by_cases enough : chain.length ≤ fuel
  · rw [if_pos enough, if_pos enough, Option.map_some, Option.bind_some, Run.bind_of_some (Run.assert_eq_some.mpr ⟨filled, rfl⟩),
      unserialize_doc sound saved.fits]
    unfold lift
    dsimp only
    rw [pure_bind, getObject_encryptionKey]
    dsimp only
    rw [pure_bind, loadKey_keyNode sound, loadNumbers_metaBuckets, loadNumbers_buckets]
    rfl
  · rw [if_neg enough, if_neg enough]
    rfl

theorem map_range_getD (input : Str) {n : Nat} (inside : input.length ≤ n) :
    (List.range n).map (fun offset => input.getD offset 0) = input ++ List.replicate (n - input.length) 0 := by
  apply List.ext_getElem
  · simp only [List.length_map, List.length_range, List.length_append, List.length_replicate]
    omega
  · intro offset small small'
    rw [List.getElem_map, List.getElem_range]
    by_cases here : offset < input.length
    · rw [List.getElem_append_left here, List.getD_eq_getElem?_getD, List.getElem?_eq_getElem here, Option.getD_some]
    · rw [List.getElem_append_right (Nat.le_of_not_lt here), List.getElem_replicate, List.getD_eq_getElem?_getD,
        List.getElem?_eq_none (Nat.le_of_not_lt here), Option.getD_none]

theorem not_free_metaIndex : ¬(Accounting.init {1}).Free metaIndex := by
  intro free
  rcases free with ⟨node, member, _⟩ | ⟨_, unused⟩
  · cases member
  · exact unused (Finset.mem_singleton.mpr (BucketIndex.bucket_make (by decide)))

theorem newMetadata_ctds (metaString : Str) :
    (newMetadata metaString).ctds metaIndex = some ⟨metaIndex, 0, fun offset => metaString.getD offset 0⟩ := by
  unfold newMetadata
  dsimp only
  rw [Function.update_self]

theorem newMetadata_written {metaString : Str} (inside : metaString.length ≤ InodeCtd.charSize) :
    Written (newMetadata metaString) metaString [metaIndex] where
  path := .cons (newMetadata_ctds metaString) .nil
  whole := by
    rw [text_cons (newMetadata_ctds metaString), text_nil, List.append_nil, Metadata.view_charLayout]
    exact ⟨_, map_range_getD metaString inside⟩
  size := rfl
  apart := by
    intro i member
    rw [List.mem_singleton.mp member]
    exact not_free_metaIndex
  ready := by
    apply Accounting.ready_init
    intro id member
    rw [Finset.mem_singleton.mp member]
    exact Nat.one_pos

theorem create_eq (k : KeyBytes) : (create B k : Option (Root F)) =
    let metaString := serialize 0 ((⟨[1], [1], k⟩ : Settings).doc B |>.json F)
    if metaString.length < InodeCtd.charSize then some ⟨newMetadata metaString, none⟩ else none := by
  unfold create
  rw [newInfo_eq]

theorem create_holds {k : KeyBytes} (made : create B k = some r) : Holds B r ⟨[1], [1], k⟩ := by
  rw [create_eq] at made
  obtain ⟨inside, shape⟩ := Option.ite_none_right_eq_some.mp made
  rw [← Option.some.inj shape]
  have one : Settings.Small [1] := ⟨List.cons_ne_nil _ _, by decide⟩
  refine ⟨⟨⟨one, one⟩, ⟨[metaIndex], newMetadata_written (Nat.le_of_lt inside)⟩, ?_⟩, ?_⟩
  · show rootIndex ≠ 0
    decide
  · intro json member
    cases member

/-- What is set in the document is in the chain afterwards. -/
theorem storeMetaProperties_holds (sound : B.Sound) (fits : c.Fits) {old : Str} {chain : List BucketIndex}
    (written : Written r.metadata old chain) (numbered : r.metadata.inode.myID ≠ 0)
    (extraMeta : r.extraMeta = some ((c.doc B).json F))
    (ran : storeMetaProperties ((c.doc B).json F) r = some ((), r')) : Holds B r' c := by
  unfold storeMetaProperties at ran
  rw [Run.bind_of_some (Run.get_apply r), if_pos numbered, if_pos (serialize_doc_shape sound fits).1] at ran
  obtain ⟨⟨_, m'⟩, stored, shape⟩ := Option.map_eq_some_iff.mp ran
  cases shape
  obtain ⟨new, written', myID⟩ := written.store stored
  refine ⟨⟨fits, ⟨_, written'⟩, myID.trans_ne numbered⟩, ?_⟩
  intro json member
  rw [extraMeta] at member
  exact (Option.some.inj member).symm

theorem small_listed {buckets : Finset Nat} (small : ∀ id ∈ buckets, id ≤ intMax) : Settings.Small (listed (numbers buckets)) := by
  unfold listed
  split
  · exact ⟨List.cons_ne_nil _ _, by decide⟩
  · rename_i filled
    refine ⟨filled, fun i member => ?_⟩
    obtain ⟨id, inside, rfl⟩ := List.mem_map.mp member
    have bound := small id ((Finset.mem_sort _).mp inside)
    have exact_ : Int.bmod (id : Int) (2 ^ 64) = id := by
      unfold intMax at bound
      apply Int.bmod_eq_of_le <;> omega
    rw [exact_, Int.natAbs_natCast]
    exact bound

theorem storeRound_holds (sound : B.Sound) (holds : Holds B r c) {buckets : Finset Nat}
    (small : ∀ id ∈ r.metadata.accounting.bucketsInUse ∪ buckets, id ≤ intMax) (ran : storeRound buckets r = some ((), r')) :
    Holds B r' ((Step.storeRound buckets).latest r c) := by
  obtain ⟨chain, written⟩ := holds.saved.written
  unfold storeRound at ran
  rw [Run.bind_of_some (Run.get_apply r)] at ran
  cases there : r.extraMeta with
  | none =>
    rw [there] at ran
    cases ran
    rw [Step.latest, there]
    exact holds
  | some json =>
    have document := holds.extraMeta json there
    rw [there] at ran
    dsimp only at ran
    rw [document, setNumbers_metaBuckets] at ran
    unfold lift at ran
    dsimp only at ran
    rw [pure_bind, setNumbers_buckets] at ran
    dsimp only at ran
    rw [pure_bind, Run.bind_of_some (Run.modify_apply _ r)] at ran
    rw [Step.latest, there, Option.isSome_some, if_pos rfl]
    have fits : Settings.Fits ⟨listed (numbers r.metadata.accounting.bucketsInUse), listed (numbers buckets), c.encryptionKey⟩ :=
      ⟨small_listed (fun id member => small id (Finset.mem_union_left _ member)),
        small_listed (fun id member => small id (Finset.mem_union_right _ member))⟩
    exact storeMetaProperties_holds (r := { r with extraMeta := some _ }) sound fits written holds.saved.numbered rfl ran

theorem migrateKey_holds (sound : B.Sound) (holds : Holds B r c) {k : KeyBytes} (ran : migrateKey B k r = some ((), r')) :
    Holds B r' { c with encryptionKey := k } := by
  obtain ⟨chain, written⟩ := holds.saved.written
  unfold migrateKey at ran
  rw [Run.bind_of_some (Run.get_apply r)] at ran
  cases there : r.extraMeta with
  | none =>
    rw [there] at ran
    cases ran
  | some json =>
    have document := holds.extraMeta json there
    rw [there] at ran
    dsimp only at ran
    rw [storeKey_empty] at ran
    unfold lift at ran
    dsimp only at ran
    rw [pure_bind, document, setObject_encryptionKey] at ran
    dsimp only at ran
    rw [pure_bind, Run.bind_of_some (Run.modify_apply _ r)] at ran
    have fits : Settings.Fits { c with encryptionKey := k } := ⟨holds.saved.fits.metaBuckets, holds.saved.fits.buckets⟩
    exact storeMetaProperties_holds (r := { r with extraMeta := some _ }) sound fits written holds.saved.numbered rfl ran

/-- The records of the chain are carried over. -/
theorem Saved.carried (saved : Saved F B m c) (apart : Apart m m') : Saved F B m' c := by
  obtain ⟨chain, written⟩ := saved.written
  have records := apart.records chain written.path
  refine ⟨saved.fits, ⟨chain, ?_, ?_, apart.metasize.trans written.size, fun i member => (records i member).2, apart.ready⟩,
    apart.myID.trans_ne saved.numbered⟩
  · rw [apart.metaID]
    exact written.path.congr (fun i member => (records i member).1)
  · obtain ⟨tail, whole⟩ := written.whole
    exact ⟨tail, (text_congr (fun i member => (records i member).1)).trans whole⟩

theorem Saved.apart (saved : Saved F B m c) : Apart m m := by
  obtain ⟨chain, written⟩ := saved.written
  refine ⟨rfl, rfl, rfl, fun other path i member => ⟨rfl, ?_⟩, written.ready⟩
  exact written.apart i (path.unique written.path ▸ member)

omit [FloatLib F] in
theorem onRoot_eq_some {α : Type} {operation : Run (Root F) α} {a : α} {s s' : Mounted F}
    (ran : Step.onRoot operation s = some (a, s')) : operation s.root = some (a, s'.root) ∧ s'.files = s.files := by
  obtain ⟨⟨_, r'⟩, inner, shape⟩ := Option.map_eq_some_iff.mp ran
  cases shape
  exact ⟨inner, rfl⟩

/-- One step keeps memory and files in order. -/
theorem Step.Leads.holds {s s' : Mounted F} {c' d' : Settings} {next : Step} (sound : B.Sound) (leads : next.Leads s c d c' d')
    (holds : Holds B s.root c) (saved : Saved F B s.files d) (ran : next.perform B s = some ((), s')) :
    Holds B s'.root c' ∧ Saved F B s'.files d' := by
  cases leads with
  | mount fuel read =>
    rw [Step.perform, Run.bind_of_some (Run.modify_apply _ s)] at ran
    obtain ⟨x, t, inner, ran⟩ := Run.bind_eq_some.mp ran
    cases ran
    obtain ⟨mounted, files⟩ := onRoot_eq_some inner
    have saved' := saved.carried read
    obtain ⟨enough, mounts⟩ := saved'.mount sound
    rw [mounts] at mounted
    obtain ⟨_, same⟩ := Option.ite_none_right_eq_some.mp mounted
    obtain ⟨rfl, root⟩ := Prod.mk.inj (Option.some.inj same)
    rw [files, ← root]
    exact ⟨⟨saved', fun json member => (Option.some.inj member).symm⟩, saved⟩
  | storeRound small =>
    obtain ⟨stored, files⟩ := onRoot_eq_some ran
    exact ⟨storeRound_holds sound holds small stored, files ▸ saved⟩
  | migrateKey k =>
    obtain ⟨stored, files⟩ := onRoot_eq_some ran
    exact ⟨migrateKey_holds sound holds stored, files ▸ saved⟩
  | others apart =>
    cases ran
    exact ⟨⟨holds.saved.carried apart, holds.extraMeta⟩, saved⟩
  | written whole =>
    cases ran
    exact ⟨holds, holds.saved.carried whole⟩
  | unwritten nothing =>
    cases ran
    exact ⟨holds, saved.carried nothing⟩

theorem Reached.holds {s : Mounted F} (sound : B.Sound) (reached : Reached B s c d) : Holds B s.root c ∧ Saved F B s.files d := by
  induction reached with
  | create made => exact ⟨create_holds made, (create_holds made).saved⟩
  | step _ leads ran ih => exact leads.holds sound ih.1 ih.2 ran

def base64Lib : Base64Lib := ⟨Base64.encode, Base64.decode⟩

theorem base64Lib_sound : base64Lib.Sound := ⟨Base64.decode_encode, Base64.character_encode⟩

def uniformKey (byte : UInt8) : KeyBytes := ⟨List.replicate keySize byte, List.length_replicate⟩

end Runs

end Root

end CloudCryptFS.Filesystem
