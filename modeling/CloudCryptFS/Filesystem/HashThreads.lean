import CloudCryptFS.Filesystem.Bucket
import CloudCryptFS.Util.Linked
import CloudCryptFS.Util.Schedule

/-! Threads on the index of hashes. Looking a sum up, inserting its hash, taking and giving
back references and deleting are separate steps, and no lock holds them together. -/

namespace CloudCryptFS.Filesystem
open Util Linked

/-- A hash object; `fixed` is `FLAG_NOAUTOLOAD|FLAG_NOAUTOSTORE`, which the zero hash has. -/
structure HashObject where
  sum : Sha256
  bucketIndex : BucketIndex
  refcnt : Int
  deleted : Bool
  fixed : Bool

/-- The next step of `newHash` and `incRefCnt`, up to `checkRevived`, or of `decRefCnt`. -/
inductive HashStage where
  | lookup (sum : Sha256)
  | fetch (sum : Sha256)
  | put (sum : Sha256) (i : BucketIndex)
  | insert (sum : Sha256) (o : Nat)
  | increment (o : Nat)
  | checkRevived (o : Nat)
  | decrement (o : Nat)
  | checkFlags (o : Nat)
  | test (o : Nat)
  | setDeleted (o : Nat)
  | verify (o : Nat)
  | erase (o : Nat)
  | clear (o : Nat)
  | post (o : Nat)
  deriving DecidableEq

/-- The object of a stage. -/
def HashStage.object : HashStage → Option Nat
  | .insert _ o => some o
  | .increment o => some o
  | .checkRevived o => some o
  | .decrement o => some o
  | .checkFlags o => some o
  | .test o => some o
  | .setDeleted o => some o
  | .verify o => some o
  | .erase o => some o
  | .clear o => some o
  | .post o => some o
  | _ => none

/-- A thread owns a hash once for each reference that it has taken and not given back. -/
structure HashThread where
  owned : List Nat
  call : Option HashStage

/-- The hashes of the data buckets, with one slot for each index. After a failed assertion
nothing goes on. -/
structure Dedup where
  objects : Nat → Option HashObject
  created : Nat
  hashesIndex : Sha256 → Option Nat
  slots : BucketIndex → Option Nat
  accounting : Accounting
  threads : List HashThread
  failed : Bool

inductive HashStep where
  | obtain (thread : Nat) (sum : Sha256)
  | release (thread : Nat) (o : Nat)
  | next (thread : Nat)

namespace Dedup

def become (k : Nat) (owned : List Nat) (call : Option HashStage) (s : Dedup) : Dedup :=
  { s with threads := s.threads.set k ⟨owned, call⟩ }

def update (o : Nat) (obj : HashObject) (s : Dedup) : Dedup := { s with objects := Function.update s.objects o (some obj) }

/-- One step on a hash object. -/
def stepHash (k : Nat) (owned : List Nat) (s : Dedup) (o : Nat) (obj : HashObject) : HashStage → Option Dedup
  | .insert sum _ => some { s.become k owned (some (.increment o)) with hashesIndex := Function.update s.hashesIndex sum (some o) }
  | .increment _ => some ((s.update o { obj with refcnt := obj.refcnt + 1 }).become k owned (some (.checkRevived o)))
  | .checkRevived _ =>
    -- a dead hash is not revived
    if obj.fixed = false ∧ obj.deleted then some { s.become k owned none with failed := true }
    else some (s.become k (o :: owned) none)
  | .decrement _ => some ((s.update o { obj with refcnt := obj.refcnt - 1 }).become k owned (some (.checkFlags o)))
  | .checkFlags _ => some (s.become k owned (if obj.fixed ∨ obj.deleted then none else some (.test o)))
  | .test _ => some (s.become k owned (if obj.refcnt = 0 then some (.setDeleted o) else none))
  | .setDeleted _ => some ((s.update o { obj with deleted := true }).become k owned (some (.verify o)))
  | .verify _ =>
    if s.hashesIndex obj.sum = some o then some (s.become k owned (some (.erase o)))
    else some { s.become k owned none with failed := true }
  | .erase _ =>
    some { s.become k owned (if (s.hashesIndex obj.sum).isSome then some (.clear o) else none) with
      hashesIndex := Function.update s.hashesIndex obj.sum none }
  | .clear _ => some { s.become k owned (some (.post o)) with slots := Function.update s.slots obj.bucketIndex none }
  | .post _ => (s.accounting.post obj.bucketIndex).map (fun a => { s.become k owned none with accounting := a })
  | _ => none

def stepCall (k : Nat) (owned : List Nat) (s : Dedup) : HashStage → Option Dedup
  | .lookup sum =>
    match s.hashesIndex sum with
    | some o => some (s.become k owned (some (.increment o)))
    | none => some (s.become k owned (some (.fetch sum)))
  | .fetch sum => s.accounting.fetch.map (fun fetched => { s.become k owned (some (.put sum fetched.1)) with accounting := fetched.2 })
  | .put sum i =>
    some { (s.update s.created ⟨sum, i, 0, false, false⟩).become k owned (some (.insert sum s.created)) with
      created := s.created + 1
      slots := Function.update s.slots i (some s.created) }
  | stage => stage.object.bind (fun o => (s.objects o).bind (fun obj => s.stepHash k owned o obj stage))

def step : HashStep → Dedup → Option Dedup
  | .obtain k sum, s =>
    if s.failed then none
    else s.threads[k]?.bind (fun th => if th.call.isNone then some (s.become k th.owned (some (.lookup sum))) else none)
  | .release k o, s =>
    if s.failed then none
    else s.threads[k]?.bind (fun th =>
      if th.call.isNone ∧ o ∈ th.owned then some (s.become k (th.owned.erase o) (some (.decrement o))) else none)
  | .next k, s => if s.failed then none else s.threads[k]?.bind (fun th => th.call.bind (fun stage => s.stepCall k th.owned stage))

abbrev run : List HashStep → Dedup → Option Dedup := Schedule.run step

end Dedup

namespace HashThread

/-- One if the call is at such a stage. -/
def standing (p : HashStage → Prop) [DecidablePred p] (th : HashThread) : Nat :=
  match th.call with
  | some stage => if p stage then 1 else 0
  | none => 0

/-- The references that a thread has, beside those it is about to own or to give back. -/
def refs (o : Nat) (th : HashThread) : Nat := th.owned.count o + th.standing (fun stage => stage = .checkRevived o ∨ stage = .decrement o)

end HashThread

/-- The sum of a stage between a lookup that found nothing and the insertion. -/
def HashStage.missing : HashStage → Option Sha256
  | .fetch sum => some sum
  | .put sum _ => some sum
  | .insert sum _ => some sum
  | _ => none

/-- The object of a stage between the decision to delete and the removal from the index. -/
def HashStage.deleting : HashStage → Option Nat
  | .setDeleted o => some o
  | .verify o => some o
  | .erase o => some o
  | _ => none

namespace Dedup

/-- Nobody else is about to insert the hash that is not found; what is found is not about to
be deleted; and what is about to be deleted is neither deleted already nor found. -/
def Ordered (s : Dedup) : HashStep → Prop
  | .next k => ∀ th, s.threads[k]? = some th →
    match th.call with
    | some (.lookup sum) =>
      match s.hashesIndex sum with
      | none => ∀ th ∈ s.threads, ∀ stage, th.call = some stage → stage.missing ≠ some sum
      | some o => ∀ th ∈ s.threads, ∀ stage, th.call = some stage → stage.deleting ≠ some o
    | some (.test o) => ∀ obj, s.objects o = some obj → obj.refcnt = 0 →
      obj.deleted = false ∧ ∀ th ∈ s.threads, th.call ≠ some (.setDeleted o) ∧ th.call ≠ some (.increment o)
    | _ => True
  | _ => True

abbrev OrderedRun : List HashStep → Dedup → Prop := Schedule.OrderedRun step Ordered

/-- Threads at rest, an object for each sum in the index and no other, and for each but the
zero hash a count of the references. -/
structure Consistent (s : Dedup) : Prop where
  idle : ∀ th ∈ s.threads, th.call = none
  sound : s.failed = false
  created : ∀ o, s.objects o ≠ none → o < s.created
  index : ∀ sum o, s.hashesIndex sum = some o → ∃ obj, s.objects o = some obj ∧ obj.sum = sum
  live : ∀ o obj, s.objects o = some obj → obj.deleted = false ∧ s.hashesIndex obj.sum = some o
  counts : ∀ o obj, s.objects o = some obj → obj.fixed = false → obj.refcnt = (s.threads.map (fun th => th.owned.count o)).sum
  owned : ∀ th ∈ s.threads, ∀ o ∈ th.owned, s.objects o ≠ none

/-- No assertion has failed, no two live hashes have the same sum, and what is owned is live. -/
structure OneLive (s : Dedup) : Prop where
  sound : s.failed = false
  unique : ∀ o o' obj obj', s.objects o = some obj → s.objects o' = some obj' → obj.deleted = false → obj'.deleted = false →
    obj.sum = obj'.sum → o = o'
  owned : ∀ th ∈ s.threads, ∀ o ∈ th.owned, ∃ obj, s.objects o = some obj ∧ obj.deleted = false

/-- How the objects and the index fit a stage. -/
def StageOk (s : Dedup) : HashStage → Prop
  | .lookup _ => True
  | .fetch sum => s.hashesIndex sum = none
  | .put sum _ => s.hashesIndex sum = none
  | .insert sum o => s.hashesIndex sum = none ∧ ∃ obj, s.objects o = some obj ∧ obj.sum = sum ∧ obj.deleted = false
  | .increment o => ∃ obj, s.objects o = some obj ∧ s.hashesIndex obj.sum = some o
  | .checkRevived o => ∃ obj, s.objects o = some obj ∧ s.hashesIndex obj.sum = some o
  | .decrement o => ∃ obj, s.objects o = some obj ∧ s.hashesIndex obj.sum = some o
  | .checkFlags o => ∃ obj, s.objects o = some obj ∧ (obj.deleted = true ∨ s.hashesIndex obj.sum = some o)
  | .test o => ∃ obj, s.objects o = some obj ∧ obj.fixed = false ∧ (obj.deleted = true ∨ s.hashesIndex obj.sum = some o)
  | .setDeleted o => ∃ obj, s.objects o = some obj ∧ obj.deleted = false ∧ s.hashesIndex obj.sum = some o
  | .verify o => ∃ obj, s.objects o = some obj ∧ obj.deleted = true ∧ s.hashesIndex obj.sum = some o
  | .erase o => ∃ obj, s.objects o = some obj ∧ obj.deleted = true ∧ s.hashesIndex obj.sum = some o
  | .clear o => ∃ obj, s.objects o = some obj ∧ obj.deleted = true
  | .post o => ∃ obj, s.objects o = some obj ∧ obj.deleted = true

def count (f : HashThread → Nat) (s : Dedup) : Nat := (s.threads.map f).sum

/-- The threads that are at a stage. -/
abbrev standing (p : HashStage → Prop) [DecidablePred p] (s : Dedup) : Nat := s.count (HashThread.standing p)

structure Inv (s : Dedup) : Prop where
  sound : s.failed = false
  created : ∀ o, s.objects o ≠ none → o < s.created
  index : ∀ sum o, s.hashesIndex sum = some o → ∃ obj, s.objects o = some obj ∧ obj.sum = sum
  live : ∀ o obj, s.objects o = some obj → obj.deleted = false → s.hashesIndex obj.sum = some o ∨ 0 < s.standing (· = .insert obj.sum o)
  leaving : ∀ o obj, s.objects o = some obj → obj.deleted = true → s.hashesIndex obj.sum = some o → 0 < s.standing (·.deleting = some o)
  counts : ∀ o obj, s.objects o = some obj → obj.fixed = false → obj.refcnt = s.count (HashThread.refs o)
  owned : ∀ o, 0 < s.count (HashThread.refs o) → ∃ obj, s.objects o = some obj ∧ s.hashesIndex obj.sum = some o
  dead : ∀ o obj, s.objects o = some obj → obj.deleted = true ∨ 0 < s.standing (· = .setDeleted o) →
    s.count (HashThread.refs o) = 0 ∧ s.standing (· = .increment o) = 0
  stages : ∀ th ∈ s.threads, ∀ stage, th.call = some stage → s.StageOk stage
  deletingOnce : ∀ o, s.standing (·.deleting = some o) ≤ 1
  missingOnce : ∀ sum, s.standing (·.missing = some sum) ≤ 1

section Counting
variable {s t : Dedup} {k : Nat} {owned owned' : List Nat} {call call' : Option HashStage}

/-- What a step of a thread does to a count. -/
theorem count_become (found : s.threads[k]? = some ⟨owned, call⟩) (threads : t.threads = s.threads.set k ⟨owned', call'⟩) (f : HashThread → Nat) :
    t.count f + f ⟨owned, call⟩ = s.count f + f ⟨owned', call'⟩ := by
  unfold count
  rw [threads]
  exact sum_set found _ (fun _ _ _ _ => rfl)

theorem count_pos_of_found {th : HashThread} (found : s.threads[k]? = some th) {f : HashThread → Nat} (here : 0 < f th) : 0 < s.count f :=
  here.trans_le (le_sum found)

theorem standing_eq_zero {p : HashStage → Prop} [DecidablePred p] (none : ∀ th ∈ s.threads, ∀ stage, th.call = some stage → ¬p stage) :
    s.standing p = 0 := by
  apply List.sum_eq_zero
  intro n member
  obtain ⟨th, inside, rfl⟩ := List.mem_map.mp member
  unfold HashThread.standing
  split
  · rename_i stage call
    exact if_neg (none th inside stage call)
  · rfl

theorem mem_become (found : s.threads[k]? = some ⟨owned, call⟩) (threads : t.threads = s.threads.set k ⟨owned', call'⟩) {th : HashThread}
    (member : th ∈ t.threads) : th = ⟨owned', call'⟩ ∨ ∃ j, j ≠ k ∧ s.threads[j]? = some th := by
  rw [threads] at member
  obtain ⟨j, there⟩ := List.mem_iff_getElem?.mp member
  by_cases same : j = k
  · rw [same, List.getElem?_set_self (List.getElem?_eq_some_iff.mp found).1] at there
    exact Or.inl (Option.some.inj there).symm
  · exact Or.inr ⟨j, same, (List.getElem?_set_ne (Ne.symm same)).symm.trans there⟩

/-- Two threads are at such a stage. -/
theorem two_le_standing {p : HashStage → Prop} [DecidablePred p] {j : Nat} {th : HashThread} {stage stage' : HashStage}
    (found : s.threads[k]? = some ⟨owned, some stage⟩) (there : s.threads[j]? = some th) (different : j ≠ k) (other : th.call = some stage')
    (first : p stage) (second : p stage') : 2 ≤ s.standing p := by
  have both := add_le_sum (f := HashThread.standing p) found there different
  have one : HashThread.standing p ⟨owned, some stage⟩ = 1 := if_pos first
  have two : HashThread.standing p th = 1 := by
    unfold HashThread.standing
    rw [other]
    exact if_pos second
  change 2 ≤ (s.threads.map (HashThread.standing p)).sum
  omega

theorem standing_pos {p : HashStage → Prop} [DecidablePred p] {th : HashThread} {stage : HashStage} (member : th ∈ s.threads)
    (call : th.call = some stage) (holds : p stage) : 0 < s.standing p := by
  obtain ⟨j, found⟩ := List.mem_iff_getElem?.mp member
  apply count_pos_of_found found
  unfold HashThread.standing
  rw [call]
  exact Nat.lt_of_lt_of_eq Nat.one_pos (if_pos holds).symm

/-- A step from and to a stage that does not count. -/
theorem standing_eq {stage : HashStage} (found : s.threads[k]? = some ⟨owned, some stage⟩)
    (threads : t.threads = s.threads.set k ⟨owned', call'⟩) (p : HashStage → Prop) [DecidablePred p] (before : ¬p stage)
    (after : ∀ stage', call' = some stage' → ¬p stage') : t.standing p = s.standing p := by
  have moved := count_become found threads (HashThread.standing p)
  have zero : HashThread.standing p ⟨owned, some stage⟩ = 0 := if_neg before
  have zero' : HashThread.standing p ⟨owned', call'⟩ = 0 := by
    unfold HashThread.standing
    split
    · rename_i stage' call
      exact if_neg (after stage' call)
    · rfl
  rw [zero, zero', Nat.add_zero, Nat.add_zero] at moved
  exact moved

theorem exists_of_standing_pos {p : HashStage → Prop} [DecidablePred p] (positive : 0 < s.standing p) :
    ∃ th ∈ s.threads, ∃ stage, th.call = some stage ∧ p stage := by
  obtain ⟨th, member, here⟩ := exists_of_sum_pos positive
  unfold HashThread.standing at here
  split at here
  · rename_i stage call
    split at here
    · rename_i holds
      exact ⟨th, member, stage, call, holds⟩
    · exact absurd here (Nat.lt_irrefl 0)
  · exact absurd here (Nat.lt_irrefl 0)

end Counting

end Dedup

end CloudCryptFS.Filesystem
