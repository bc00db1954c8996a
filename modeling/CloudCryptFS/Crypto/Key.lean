import CloudCryptFS.Script.Lexer
import CloudCryptFS.Util.Run
import CloudCryptFS.Util.Bytes

/-! Keys in memory. A key is kept xored with a mask that the process draws when its first
key is made; the mask counts as not drawn yet while its first two bytes are zero. -/

namespace CloudCryptFS.Crypto
open Util Bytes Script.Lexer

section Xor

/-- The whole words of a buffer. -/
def xorWords : Nat → Str → Str → Str
  | 0, buf, _ => buf
  | n + 1, buf, msk =>
    littleEndian 4 (fromLittleEndian (buf.take 4) ^^^ fromLittleEndian (msk.take 4)) ++ xorWords n (buf.drop 4) (msk.drop 4)

def xorBytes (buf msk : Str) : Str := List.zipWith (· ^^^ ·) buf msk

/-- `xorbuf`: by words of four bytes where the size allows. -/
def xorbuf (buf msk : Str) : Str :=
  if buf.length % 4 = 0 then xorWords (buf.length / 4) buf msk else xorBytes buf msk

theorem littleEndian_xor (width m n : Nat) : littleEndian width (m ^^^ n) = xorBytes (littleEndian width m) (littleEndian width n) := by
  induction width generalizing m n with
  | zero => rfl
  | succ width ih =>
    have byte : UInt8.ofNat (m ^^^ n) = UInt8.ofNat m ^^^ UInt8.ofNat n := by
      apply UInt8.toNat_inj.mp
      rw [UInt8.toNat_xor, UInt8.toNat_ofNat', UInt8.toNat_ofNat', UInt8.toNat_ofNat']
      exact Nat.xor_mod_two_pow
    have rest : (m ^^^ n) / 256 = m / 256 ^^^ n / 256 := Nat.xor_div_two_pow (n := 8)
    rw [littleEndian, byte, rest, ih]
    rfl

theorem littleEndian_fromLittleEndian (bytes : Str) : littleEndian bytes.length (fromLittleEndian bytes) = bytes := by
  induction bytes with
  | nil => rfl
  | cons byte bytes ih =>
    have small := byte.toNat_lt
    have low : UInt8.ofNat (byte.toNat + 256 * fromLittleEndian bytes) = byte := by
      apply UInt8.toNat_inj.mp
      rw [UInt8.toNat_ofNat']
      omega
    have high : (byte.toNat + 256 * fromLittleEndian bytes) / 256 = fromLittleEndian bytes := by omega
    rw [fromLittleEndian, List.length_cons, littleEndian, low, high, ih]

theorem xorWords_eq_xorBytes {n : Nat} {buf msk : Str} (size : buf.length = 4 * n) (long : buf.length ≤ msk.length) :
    xorWords n buf msk = xorBytes buf msk := by
  induction n generalizing buf msk with
  | zero =>
    rw [Nat.mul_zero, List.length_eq_zero_iff] at size
    rw [size]
    rfl
  | succ n ih =>
    have here : (buf.take 4).length = 4 := by
      rw [List.length_take]
      omega
    have there : (msk.take 4).length = 4 := by
      rw [List.length_take]
      omega
    have first := littleEndian_fromLittleEndian (buf.take 4)
    have second := littleEndian_fromLittleEndian (msk.take 4)
    rw [here] at first
    rw [there] at second
    have later : xorWords n (buf.drop 4) (msk.drop 4) = xorBytes (buf.drop 4) (msk.drop 4) := by
      apply ih
      · rw [List.length_drop]
        omega
      · rw [List.length_drop, List.length_drop]
        omega
    calc
      _ = xorBytes (buf.take 4) (msk.take 4) ++ xorBytes (buf.drop 4) (msk.drop 4) := by
        rw [xorWords, littleEndian_xor, first, second, later]
      _ = xorBytes (buf.take 4 ++ buf.drop 4) (msk.take 4 ++ msk.drop 4) :=
        (List.zipWith_append (here.trans there.symm)).symm
      _ = xorBytes buf msk := by rw [List.take_append_drop, List.take_append_drop]

/-- Both branches of `xorbuf` do the same. -/
theorem xorbuf_eq_xorBytes {buf msk : Str} (long : buf.length ≤ msk.length) : xorbuf buf msk = xorBytes buf msk := by
  unfold xorbuf
  split
  · rename_i whole
    apply xorWords_eq_xorBytes _ long
    omega
  · rfl

theorem length_xorBytes {buf msk : Str} (long : buf.length ≤ msk.length) : (xorBytes buf msk).length = buf.length := by
  rw [xorBytes, List.length_zipWith, min_eq_left long]

theorem xorBytes_xorBytes {buf msk : Str} (long : buf.length ≤ msk.length) : xorBytes (xorBytes buf msk) msk = buf := by
  induction buf generalizing msk with
  | nil => rfl
  | cons byte buf ih =>
    cases msk with
    | nil => cases long
    | cons m msk =>
      have here : byte ^^^ m ^^^ m = byte := by rw [UInt8.xor_assoc, UInt8.xor_self, UInt8.xor_zero]
      have later := ih (Nat.le_of_succ_le_succ long)
      unfold xorBytes at later ⊢
      rw [List.zipWith_cons_cons, List.zipWith_cons_cons, here, later]

/-- The mask matters as far as the buffer goes. -/
theorem xorBytes_take {buf : Str} {n : Nat} (short : buf.length ≤ n) (msk : Str) : xorBytes buf (msk.take n) = xorBytes buf msk := by
  induction buf generalizing n msk with
  | nil => rfl
  | cons byte buf ih =>
    cases n with
    | zero => cases short
    | succ n =>
      cases msk with
      | nil => rfl
      | cons m msk =>
        have later := ih (Nat.le_of_succ_le_succ short) msk
        unfold xorBytes at later ⊢
        rw [List.take_succ_cons, List.zipWith_cons_cons, List.zipWith_cons_cons, later]

end Xor

section Keys

abbrev Mask := { bytes : Str // bytes.length = 64 }

/-- `_masterkeys`, and what the next calls of `randombytes_buf` are to give. -/
structure Process where
  masterkeys : Mask
  random : Nat → Mask

/-- The process when a mask has been drawn. -/
def Process.drawn (p : Process) : Process := { masterkeys := p.random 0, random := fun n => p.random (n + 1) }

/-- The test of `getMaster` for a mask that is still to be drawn. -/
def Mask.Unset (m : Mask) : Prop := m.val.take 2 = [0, 0]

instance (m : Mask) : Decidable m.Unset := inferInstanceAs (Decidable (_ = _))

/-- `key::getMaster`. -/
def getMaster (size : Nat) : Run Process Str := do
  Run.assert (size < 64)
  fun p => some (if p.masterkeys.Unset then ((p.random 0).val, p.drawn) else (p.masterkeys.val, p))

/-- `crypto::key`. -/
structure Key where
  realKey : Str

/-- The constructors of `crypto::key`. -/
def Key.make (keydata : Str) : Run Process Key := do
  let mk ← getMaster keydata.length
  pure ⟨xorbuf keydata mk⟩

/-- `key::use`. -/
def Key.use (k : Key) : Run Process Str := do
  let mk ← getMaster k.realKey.length
  pure (xorbuf k.realKey mk)

/-- What the program does with keys. -/
inductive Access where
  | make (keydata : Str)
  | use (i : Nat)

/-- One access; the keys are numbered in the order in which they were made. -/
def access : Access → Run (Process × List Key) (Option Str)
  | .make keydata => fun s => (Key.make keydata s.1).map (fun made => (none, (made.2, s.2 ++ [made.1])))
  | .use i => fun s =>
    match s.2[i]? with
    | none => some (none, s)
    | some k => (k.use s.1).map (fun used => (some used.1, (used.2, s.2)))

/-- The same on keys that are kept as they are. -/
def plainAccess : Access → Run (List Str) (Option Str)
  | .make keydata => fun s => if keydata.length < 64 then some (none, s ++ [keydata]) else none
  | .use i => fun s => some (s[i]?, s)

/-- What a sequence of accesses gives out. -/
def outputs {σ : Type} (step : Access → Run σ (Option Str)) : List Access → σ → Option (List (Option Str))
  | [], _ => some []
  | a :: accesses, s => (step a s).bind (fun done => (outputs step accesses done.2).map (done.1 :: ·))

/-- The process as it starts. -/
def Process.start (random : Nat → Mask) : Process := { masterkeys := ⟨List.replicate 64 0, rfl⟩, random := random }

/-- Every mask that `getMaster` is to give begins with the given bytes. -/
def Gives (m : Str) (p : Process) : Prop :=
  (¬p.masterkeys.Unset ∧ p.masterkeys.val.take 63 = m) ∨
    (p.masterkeys.Unset ∧ (p.random 0).val.take 63 = m ∧ ((p.random 0).Unset → ∀ n, (p.random n).val.take 63 = m))

theorem getMaster_spec {m : Str} {p : Process} (gives : Gives m p) {size : Nat} (small : size < 64) :
    ∃ mk p', getMaster size p = some (mk, p') ∧ mk.length = 64 ∧ mk.take 63 = m ∧ Gives m p' := by
  unfold getMaster
  rcases gives with ⟨drawn, starts⟩ | ⟨unset, starts, later⟩
  · refine ⟨p.masterkeys.val, p, ?_, p.masterkeys.property, starts, Or.inl ⟨drawn, starts⟩⟩
    simp [Run.bind_apply, small, drawn]
  · refine ⟨(p.random 0).val, p.drawn, ?_, (p.random 0).property, starts, ?_⟩
    · simp [Run.bind_apply, small, unset]
    · by_cases again : (p.random 0).Unset
      · exact Or.inr ⟨again, later again 1, fun _ n => later again (n + 1)⟩
      · exact Or.inl ⟨again, starts⟩

/-- The state of the process beside the keys in the clear. -/
structure Masked (m : Str) (s : Process × List Key) (clear : List Str) : Prop where
  gives : Gives m s.1
  short : ∀ keydata ∈ clear, keydata.length < 64
  keys : s.2 = clear.map (fun keydata => ⟨xorBytes keydata m⟩)

theorem access_masked {m : Str} (size : m.length = 63) {s : Process × List Key} {clear : List Str} (masked : Masked m s clear) (a : Access) :
    (access a s = none ∧ plainAccess a clear = none) ∨
      ∃ out s' clear', access a s = some (out, s') ∧ plainAccess a clear = some (out, clear') ∧ Masked m s' clear' := by
  cases a with
  | make keydata =>
    by_cases small : keydata.length < 64
    · obtain ⟨mk, p', ran, long, starts, gives⟩ := getMaster_spec masked.gives small
      have protect : xorbuf keydata mk = xorBytes keydata m := by
        rw [xorbuf_eq_xorBytes (by omega), ← starts, xorBytes_take (by omega)]
      refine Or.inr ⟨none, (p', s.2 ++ [⟨xorBytes keydata m⟩]), clear ++ [keydata], ?_, if_pos small, gives, ?_, ?_⟩
      · simp [access, Key.make, Run.bind_apply, ran, protect]
      · intro other member
        rcases List.mem_append.mp member with before | last
        · exact masked.short other before
        · rw [List.mem_singleton.mp last]
          exact small
      · simp [masked.keys]
    · refine Or.inl ⟨?_, if_neg small⟩
      simp [access, Key.make, getMaster, Run.bind_apply, small]
  | use i =>
    apply Or.inr
    cases found : clear[i]? with
    | none =>
      have missing : s.2[i]? = none := by simp [masked.keys, found]
      refine ⟨none, s, clear, ?_, ?_, masked⟩
      · simp only [access, missing]
      · simp only [plainAccess, found]
    | some keydata =>
      have small := masked.short keydata (List.mem_of_getElem? found)
      have there : s.2[i]? = some ⟨xorBytes keydata m⟩ := by simp [masked.keys, found]
      have kept : (xorBytes keydata m).length = keydata.length := length_xorBytes (by omega)
      obtain ⟨mk, p', ran, long, starts, gives⟩ := getMaster_spec masked.gives (kept.symm ▸ small)
      have unprotect : xorbuf (xorBytes keydata m) mk = keydata := by
        rw [xorbuf_eq_xorBytes (by omega), ← xorBytes_take (n := 63) (by omega), starts, xorBytes_xorBytes (by omega)]
      refine ⟨some keydata, (p', s.2), clear, ?_, ?_, gives, masked.short, masked.keys⟩
      · simp [access, there, Key.use, Run.bind_apply, ran, unprotect]
      · simp only [plainAccess, found]

theorem outputs_masked {m : Str} (size : m.length = 63) (accesses : List Access) {s : Process × List Key} {clear : List Str}
    (masked : Masked m s clear) : outputs access accesses s = outputs plainAccess accesses clear := by
  induction accesses generalizing s clear with
  | nil => rfl
  | cons a accesses ih =>
    rcases access_masked size masked a with ⟨failed, failed'⟩ | ⟨out, s', clear', ran, ran', masked'⟩
    · rw [outputs, outputs, failed, failed']
      rfl
    · rw [outputs, outputs, ran, ran', Option.bind_some, Option.bind_some, ih masked']

theorem outputs_use {p : Process} (unset : p.masterkeys.Unset) {m : Str} (small : m.length < 64) (accesses : List Access) :
    outputs access (.use 0 :: accesses) (p, [⟨m⟩]) =
      (outputs access accesses (p.drawn, [⟨m⟩])).map (some (xorBytes m (p.random 0).val) :: ·) := by
  have masked : xorbuf m (p.random 0).val = xorBytes m (p.random 0).val := by
    apply xorbuf_eq_xorBytes
    rw [(p.random 0).property]
    exact small.le
  simp [outputs, access, Key.use, getMaster, Run.bind_apply, small, unset, masked]

theorem xorBytes_zeros (n : Nat) (msk : Str) : xorBytes (List.replicate n 0) msk = msk.take n := by
  induction n generalizing msk with
  | zero => rfl
  | succ n ih =>
    cases msk with
    | nil => rfl
    | cons m msk =>
      have later := ih msk
      unfold xorBytes at later ⊢
      rw [List.replicate_succ, List.zipWith_cons_cons, later, UInt8.zero_xor, List.take_succ_cons]

theorem outputs_make {p : Process} (unset : p.masterkeys.Unset) {keydata : Str} (small : keydata.length < 64) (accesses : List Access) :
    outputs access (.make keydata :: accesses) (p, []) =
      (outputs access accesses (p.drawn, [⟨xorBytes keydata (p.random 0).val⟩])).map (none :: ·) := by
  have masked : xorbuf keydata (p.random 0).val = xorBytes keydata (p.random 0).val := by
    apply xorbuf_eq_xorBytes
    rw [(p.random 0).property]
    exact small.le
  simp [outputs, access, Key.make, getMaster, Run.bind_apply, small, unset, masked]

/-- The longest key, of zeros. -/
def zeros : Str := List.replicate 63 0

theorem length_take_mask (m : Mask) : (m.val.take 63).length = 63 := by
  rw [List.length_take, m.property]
  rfl

theorem started_unset {random : Nat → Mask} : (Process.start random).masterkeys.Unset := rfl

theorem take_mask_short (m : Mask) : (m.val.take 63).length < 64 := by
  rw [length_take_mask]
  decide

theorem plain_use (accesses : List Access) :
    outputs plainAccess (.use 0 :: accesses) [zeros] = (outputs plainAccess accesses [zeros]).map (some zeros :: ·) := rfl

/-- A key of zeros that is used under a mask other than the one it was made under. -/
theorem use_once {p : Process} (unset : p.masterkeys.Unset)
    (agree : outputs access [.use 0] (p, [⟨p.masterkeys.val.take 63⟩]) = outputs plainAccess [.use 0] [zeros]) :
    (p.random 0).val.take 63 = p.masterkeys.val.take 63 ∧ xorBytes (p.masterkeys.val.take 63) (p.random 0).val = zeros := by
  have masked : xorBytes (p.masterkeys.val.take 63) (p.random 0).val = zeros := by
    rw [outputs_use unset (take_mask_short p.masterkeys), plain_use] at agree
    simpa [outputs] using agree
  refine ⟨?_, masked⟩
  calc
    _ = xorBytes (xorBytes (p.masterkeys.val.take 63) (p.random 0).val) (p.random 0).val := by rw [masked, zeros, xorBytes_zeros]
    _ = p.masterkeys.val.take 63 := by
      apply xorBytes_xorBytes
      rw [length_take_mask, (p.random 0).property]
      decide

/-- A key of zeros under a mask that is drawn again each time. -/
theorem take_random_of_outputs {p : Process} (unset : p.masterkeys.Unset)
    (agree : ∀ n, outputs access (List.replicate n (.use 0)) (p, [⟨p.masterkeys.val.take 63⟩]) =
      outputs plainAccess (List.replicate n (.use 0)) [zeros]) (n : Nat) :
    (p.random n).val.take 63 = p.masterkeys.val.take 63 := by
  induction n generalizing p with
  | zero => exact (use_once unset (agree 1)).1
  | succ n ih =>
    obtain ⟨first, masked⟩ := use_once unset (agree 1)
    have again : p.drawn.masterkeys.Unset := by
      have same := congrArg (List.take 2) first
      rw [List.take_take, List.take_take] at same
      exact same.trans unset
    rw [← first]
    apply ih again
    intro k
    have later := agree (k + 1)
    rw [List.replicate_succ, outputs_use unset (take_mask_short p.masterkeys), plain_use, masked] at later
    calc
      _ = outputs access (List.replicate k (.use 0)) (p.drawn, [⟨p.masterkeys.val.take 63⟩]) := by rw [← first]; rfl
      _ = _ := Option.map_injective List.cons_injective later

/-- Keys come out of memory as they were put in, whatever the program does with them, unless the first mask begins with two
zero bytes: such a mask is drawn again at each access, and then only masks that do not differ do no harm. -/
theorem outputs_eq_plain_iff (random : Nat → Mask) :
    (∀ accesses, outputs access accesses (Process.start random, []) = outputs plainAccess accesses []) ↔
      ¬(random 0).Unset ∨ ∀ n, (random n).val.take 63 = (random 0).val.take 63 := by
  constructor
  · intro agree
    by_cases unset : (random 0).Unset
    · apply Or.inr
      have later : ∀ n, (random (n + 1)).val.take 63 = (random 0).val.take 63 := by
        apply take_random_of_outputs (p := (Process.start random).drawn) unset
        intro k
        have started : _ = outputs plainAccess (.make zeros :: List.replicate k (.use 0)) [] := agree _
        rw [outputs_make started_unset (by decide), zeros, xorBytes_zeros] at started
        exact Option.map_injective List.cons_injective started
      intro n
      cases n with
      | zero => rfl
      | succ n => exact later n
    · exact Or.inl unset
  · intro good accesses
    apply outputs_masked (length_take_mask (random 0))
    apply Masked.mk
    · exact Or.inr ⟨rfl, rfl, good.resolve_left ∘ not_not.mpr⟩
    · intro keydata member
      cases member
    · rfl

end Keys

end CloudCryptFS.Crypto
