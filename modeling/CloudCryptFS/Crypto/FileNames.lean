import CloudCryptFS.Script.Flat
import CloudCryptFS.Filesystem.Bucket

/-! The names of the files that the program keeps in its source directory. A bucket is
named by the sum of its number and a secret, so that a name tells nothing about it. -/

namespace CloudCryptFS.Crypto
open Util Script.Lexer Script.Json Script.Flat Filesystem

section Hex

def hexDigit (n : Nat) : Byte := UInt8.ofNat (if n < 10 then 48 + n else 87 + n)

/-- `sodium_bin2hex`. -/
def bin2hex : Str → Str
  | [] => []
  | byte :: bytes => hexDigit (byte.toNat / 16) :: hexDigit (byte.toNat % 16) :: bin2hex bytes

theorem length_bin2hex (bytes : Str) : (bin2hex bytes).length = 2 * bytes.length := by
  induction bytes with
  | nil => rfl
  | cons byte bytes ih =>
    rw [bin2hex, List.length_cons, List.length_cons, ih, List.length_cons]
    omega

theorem hexDigit_inj {m n : Nat} (small : m < 16) (small' : n < 16) (alike : hexDigit m = hexDigit n) : m = n := by
  have values := congrArg UInt8.toNat alike
  unfold hexDigit at values
  rw [UInt8.toNat_ofNat', UInt8.toNat_ofNat'] at values
  split at values <;> split at values <;> omega

theorem bin2hex_inj {bytes bytes' : Str} (alike : bin2hex bytes = bin2hex bytes') : bytes = bytes' := by
  induction bytes generalizing bytes' with
  | nil =>
    cases bytes' with
    | nil => rfl
    | cons byte' rest => cases alike
  | cons byte rest ih =>
    cases bytes' with
    | nil => cases alike
    | cons byte' rest' =>
      rw [bin2hex, bin2hex, List.cons.injEq, List.cons.injEq] at alike
      have small := byte.toNat_lt
      have small' := byte'.toNat_lt
      have high := hexDigit_inj (by omega) (by omega) alike.1
      have low := hexDigit_inj (by omega) (by omega) alike.2.1
      rw [ih alike.2.2, show byte = byte' from UInt8.toNat_inj.mp (by omega)]

/-- `sha256sum::toLongStr`. -/
def toLongStr (sum : Sha256) : Str := bin2hex sum.bytes

theorem length_toLongStr (sum : Sha256) : (toLongStr sum).length = 64 := by
  rw [toLongStr, length_bin2hex, sum.size_eq]

theorem toLongStr_inj {sum sum' : Sha256} (alike : toLongStr sum = toLongStr sum') : sum = sum' := by
  have bytes := bin2hex_inj alike
  cases sum
  cases sum'
  congr

end Hex

section Numbers

theorem digitsOf_inj {m n : Nat} (alike : digitsOf m = digitsOf n) : m = n := by
  rw [← digitsValue_digitsOf m, ← digitsValue_digitsOf n, alike]

/-- A number is read up to the first byte that is no digit. -/
theorem takeWhile_digitsOf (n : Nat) {rest : Str} (ends : ∀ c ∈ rest.head?, isdigit c = false) :
    (digitsOf n ++ rest).takeWhile isdigit = digitsOf n := by
  rw [List.takeWhile_append_of_pos (digitsOf_isdigit n)]
  cases rest with
  | nil => rw [List.takeWhile_nil, List.append_nil]
  | cons c rest => rw [List.takeWhile_cons_of_neg (by rw [ends c rfl]; decide), List.append_nil]

theorem digitsOf_append_inj {m n : Nat} {rest rest' : Str} (ends : ∀ c ∈ rest.head?, isdigit c = false)
    (ends' : ∀ c ∈ rest'.head?, isdigit c = false) (alike : digitsOf m ++ rest = digitsOf n ++ rest') : m = n ∧ rest = rest' := by
  have digits : digitsOf m = digitsOf n := by
    rw [← takeWhile_digitsOf m ends, ← takeWhile_digitsOf n ends', alike]
  rw [digits] at alike
  exact ⟨digitsOf_inj digits, List.append_cancel_left alike⟩

theorem intToString_append_inj {i j : Int} {rest rest' : Str} (ends : ∀ c ∈ rest.head?, isdigit c = false)
    (ends' : ∀ c ∈ rest'.head?, isdigit c = false) (alike : intToString i ++ rest = intToString j ++ rest') : i = j ∧ rest = rest' := by
  have unsigned : ∀ {k : Nat} {r r' : Str}, 45 :: r ≠ digitsOf k ++ r' := by
    intro k r r' signed
    obtain ⟨first, digits, shape⟩ := List.exists_cons_of_ne_nil (digitsOf_ne_nil k)
    have digit := digitsOf_isdigit k first (shape ▸ List.mem_cons_self)
    rw [shape, List.cons_append, List.cons.injEq] at signed
    rw [← signed.1] at digit
    cases digit
  unfold intToString at alike
  split at alike
  · split at alike
    · rw [List.cons_append, List.cons_append, List.cons.injEq] at alike
      obtain ⟨values, rests⟩ := digitsOf_append_inj ends ends' alike.2
      exact ⟨by omega, rests⟩
    · exact absurd alike unsigned
  · split at alike
    · exact absurd alike.symm unsigned
    · obtain ⟨values, rests⟩ := digitsOf_append_inj ends ends' alike
      exact ⟨by omega, rests⟩

end Numbers

/-- What a bucket's name is made from. -/
structure BucketId where
  id : Int64
  isMeta : Bool
  secret : Str
  deriving DecidableEq

/-- The text that `getBucketFileName` and `getMetaBucketFileName` hash. -/
def BucketId.nameInput (b : BucketId) : Str :=
  intToString b.id.toInt ++ ((if b.isMeta then lit ":metabucket:" else lit ":bucket:") ++ b.secret)

theorem BucketId.nameInput_inj {b b' : BucketId} (alike : b.nameInput = b'.nameInput) : b = b' := by
  obtain ⟨id, isMeta, secret⟩ := b
  obtain ⟨id', isMeta', secret'⟩ := b'
  have ends : ∀ (isMeta : Bool) (secret : Str),
      ∀ c ∈ ((if isMeta then lit ":metabucket:" else lit ":bucket:") ++ secret).head?, isdigit c = false := by
    intro isMeta secret c first
    cases isMeta <;> cases first <;> rfl
  obtain ⟨ids, rests⟩ := intToString_append_inj (ends isMeta secret) (ends isMeta' secret') alike
  cases Int64.toInt_inj.mp ids
  cases isMeta <;> cases isMeta'
  · rw [List.append_cancel_left rests]
  · cases rests
  · cases rests
  · rw [List.append_cancel_left rests]

/-- The files in the source directory. -/
inductive StoredFile where
  | hashes (b : BucketId)
  | chunks (b : BucketId)
  | config
  | lock
  | log
  | decryptFail
  | journal (id : Nat)

section Names
variable (sha256 : Str → Sha256)

def bucketFileName (b : BucketId) : Str := toLongStr (sha256 b.nameInput)

/-- `storage::getBucketFilename`, behind the source directory. -/
def getBucketFilename (b : BucketId) : Str :=
  lit "dta/" ++ ((bucketFileName sha256 b).take 2 ++ (lit "/" ++ bucketFileName sha256 b))

def StoredFile.name : StoredFile → Str
  | hashes b => getBucketFilename sha256 b ++ lit ".hsh"
  | chunks b => getBucketFilename sha256 b ++ lit ".chnk"
  | config => lit "config.json"
  | lock => lit "._lock"
  | log => lit "log.txt"
  | decryptFail => lit "decrypt_fail"
  | journal id => lit "journal/." ++ digitsOf id

def tilde (temporary : Bool) : Str := if temporary then lit "~" else []

/-- The name under `path`; `putSystemString` first writes the file under a name of its own. -/
def StoredFile.fullName (path : Str) (f : StoredFile) (temporary : Bool) : Str :=
  path ++ (f.name sha256 ++ tilde temporary)

/-- The first two bytes tell the kinds of file apart. -/
def StoredFile.mark : StoredFile → Str
  | hashes _ | chunks _ => lit "dt"
  | config => lit "co"
  | lock => lit "._"
  | log => lit "lo"
  | decryptFail => lit "de"
  | journal _ => lit "jo"

variable {sha256}

theorem StoredFile.mark_append (f : StoredFile) (rest : Str) : (f.name sha256 ++ rest).take 2 = f.mark := by
  cases f <;> rfl

theorem getBucketFilename_append_inj {b b' : BucketId} {rest rest' : Str}
    (alike : getBucketFilename sha256 b ++ rest = getBucketFilename sha256 b' ++ rest') :
    sha256 b.nameInput = sha256 b'.nameInput ∧ rest = rest' := by
  have short : ∀ b, ((bucketFileName sha256 b).take 2).length = 2 := by
    intro b
    rw [List.length_take, bucketFileName, length_toLongStr]
    rfl
  simp only [getBucketFilename, List.append_assoc] at alike
  have names := List.append_cancel_left alike
  have files := (List.append_inj names ((short b).trans (short b').symm)).2
  have ends := List.append_inj (List.append_cancel_left files) ((length_toLongStr _).trans (length_toLongStr _).symm)
  exact ⟨toLongStr_inj ends.1, ends.2⟩

/-- Two files that share a name although they are not the same. -/
def Collide (sha256 : Str → Sha256) (f f' : StoredFile) : Prop :=
  ∃ b b', b.nameInput ≠ b'.nameInput ∧ sha256 b.nameInput = sha256 b'.nameInput ∧
    ((f = .hashes b ∧ f' = .hashes b') ∨ (f = .chunks b ∧ f' = .chunks b'))

theorem tilde_inj {temporary temporary' : Bool} (alike : tilde temporary = tilde temporary') : temporary = temporary' := by
  cases temporary <;> cases temporary' <;> first | rfl | cases alike

theorem isdigit_tilde (temporary : Bool) : ∀ c ∈ (tilde temporary).head?, isdigit c = false := by
  intro c first
  cases temporary with
  | false => cases first
  | true =>
    cases first
    rfl

theorem getBucketFilename_eq {b b' : BucketId} (sums : sha256 b.nameInput = sha256 b'.nameInput) :
    b = b' ∨ (b.nameInput ≠ b'.nameInput ∧ sha256 b.nameInput = sha256 b'.nameInput) := by
  by_cases inputs : b.nameInput = b'.nameInput
  · exact Or.inl (BucketId.nameInput_inj inputs)
  · exact Or.inr ⟨inputs, sums⟩

theorem StoredFile.name_append_inj {f f' : StoredFile} {temporary temporary' : Bool}
    (alike : f.name sha256 ++ tilde temporary = f'.name sha256 ++ tilde temporary') :
    tilde temporary = tilde temporary' ∧ (f = f' ∨ Collide sha256 f f') := by
  have marks : f.mark = f'.mark := by
    exact (f.mark_append (tilde temporary)).symm.trans ((congrArg (List.take 2) alike).trans (f'.mark_append (tilde temporary')))
  cases f with
  | hashes b =>
    cases f' with
    | hashes b' =>
      simp only [name, List.append_assoc] at alike
      obtain ⟨sums, rests⟩ := getBucketFilename_append_inj alike
      refine ⟨List.append_cancel_left rests, ?_⟩
      rcases getBucketFilename_eq sums with rfl | differ
      · exact Or.inl rfl
      · exact Or.inr ⟨b, b', differ.1, differ.2, Or.inl ⟨rfl, rfl⟩⟩
    | chunks b' =>
      simp only [name, List.append_assoc] at alike
      cases (getBucketFilename_append_inj alike).2
    | _ => cases marks
  | chunks b =>
    cases f' with
    | chunks b' =>
      simp only [name, List.append_assoc] at alike
      obtain ⟨sums, rests⟩ := getBucketFilename_append_inj alike
      refine ⟨List.append_cancel_left rests, ?_⟩
      rcases getBucketFilename_eq sums with rfl | differ
      · exact Or.inl rfl
      · exact Or.inr ⟨b, b', differ.1, differ.2, Or.inr ⟨rfl, rfl⟩⟩
    | hashes b' =>
      simp only [name, List.append_assoc] at alike
      cases (getBucketFilename_append_inj alike).2
    | _ => cases marks
  | journal id =>
    cases f' with
    | journal id' =>
      simp only [name, List.append_assoc] at alike
      obtain ⟨rfl, rests⟩ := digitsOf_append_inj (isdigit_tilde _) (isdigit_tilde _) (List.append_cancel_left alike)
      exact ⟨rests, Or.inl rfl⟩
    | _ => cases marks
  | _ =>
    cases f' with
    | config | lock | log | decryptFail =>
      first
      | exact ⟨List.append_cancel_left alike, Or.inl rfl⟩
      | cases marks
    | _ => cases marks

/-- Two files have one name only as the sums of two texts are the same. -/
theorem StoredFile.fullName_eq_iff (path : Str) (f f' : StoredFile) (temporary temporary' : Bool) :
    f.fullName sha256 path temporary = f'.fullName sha256 path temporary' ↔ temporary = temporary' ∧ (f = f' ∨ Collide sha256 f f') := by
  constructor
  · intro alike
    obtain ⟨tildes, files⟩ := name_append_inj (List.append_cancel_left alike)
    exact ⟨tilde_inj tildes, files⟩
  · rintro ⟨rfl, rfl | ⟨b, b', _, sums, ⟨rfl, rfl⟩ | ⟨rfl, rfl⟩⟩⟩
    · rfl
    · simp only [fullName, name, getBucketFilename, bucketFileName, sums]
    · simp only [fullName, name, getBucketFilename, bucketFileName, sums]

end Names

end CloudCryptFS.Crypto
