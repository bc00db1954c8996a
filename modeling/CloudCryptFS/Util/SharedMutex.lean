import CloudCryptFS.Util.Linked
import CloudCryptFS.Util.Schedule

/-! The shared recursive mutex. Each operation on the flag, the owner and the two
counters is a step of its own. The counters are 32 bits wide and wrap. -/

namespace CloudCryptFS.Util.SharedMutex
open Linked

/-- The next step of a call; `tries` tells `try_lock` and `try_lock_shared` from the
calls that spin. -/
inductive MutexStage where
  | lock (tries : Bool)
  | nest
  | acquire (tries : Bool)
  | wait (tries : Bool)
  | giveUp
  | own
  | setCount
  | unlock
  | decrement
  | clearOwner
  | clearCount
  | clear
  | lockShared
  | acquireShared (tries : Bool)
  | addShared
  | clearShared
  | unlockShared
  deriving DecidableEq

/-- How many unique and shared locks a thread has been given and has not released. -/
structure MutexThread where
  locks : Nat
  shared : Nat
  call : Option MutexStage
  deriving DecidableEq

structure SharedRecursiveMutex where
  lck : Bool
  owner : Option Nat
  count : BitVec 32
  shared_locks : BitVec 32
  threads : List MutexThread

inductive MutexStep where
  | lock (thread : Nat)
  | try_lock (thread : Nat)
  | unlock (thread : Nat)
  | lock_shared (thread : Nat)
  | try_lock_shared (thread : Nat)
  | unlock_shared (thread : Nat)
  | next (thread : Nat)
  deriving DecidableEq

namespace SharedRecursiveMutex

def atRest (threads : Nat) : SharedRecursiveMutex := ⟨false, none, 0, 0, List.replicate threads ⟨0, 0, none⟩⟩

def hasUniqueLock (s : SharedRecursiveMutex) (k : Nat) : Bool := s.owner = some k

def become (k locks shared : Nat) (call : Option MutexStage) (s : SharedRecursiveMutex) : SharedRecursiveMutex :=
  { s with threads := s.threads.set k ⟨locks, shared, call⟩ }

/-- A step inside a call of thread `k`. -/
def stepCall (k locks shared : Nat) (s : SharedRecursiveMutex) : MutexStage → Option SharedRecursiveMutex
  | .lock tries => some (s.become k locks shared (some (if s.owner = some k then .nest else .acquire tries)))
  | .nest => some { s.become k (locks + 1) shared none with count := s.count + 1 }
  | .acquire tries =>
    if s.lck then some (s.become k locks shared (if tries then none else some (.acquire tries)))
    else some { s.become k locks shared (some (.wait tries)) with lck := true }
  | .wait tries =>
    if 0 < s.shared_locks.toInt then some (s.become k locks shared (some (if tries then .giveUp else .wait tries)))
    else some (s.become k locks shared (some .own))
  | .giveUp => some { s.become k locks shared none with lck := false }
  | .own => some { s.become k locks shared (some .setCount) with owner := some k }
  | .setCount => some { s.become k (locks + 1) shared none with count := 1 }
  | .unlock => some (s.become k locks shared (some (if 1 < s.count.toInt then .decrement else .clearOwner)))
  | .decrement => some { s.become k (locks - 1) shared none with count := s.count - 1 }
  | .clearOwner => some { s.become k locks shared (some .clearCount) with owner := none }
  | .clearCount => some { s.become k locks shared (some .clear) with count := 0 }
  | .clear => some { s.become k (locks - 1) shared none with lck := false }
  | .lockShared =>
    -- the failed assertion ends the program
    if s.owner = some k then none else some (s.become k locks shared (some (.acquireShared false)))
  | .acquireShared tries =>
    if s.lck then some (s.become k locks shared (if tries then none else some (.acquireShared tries)))
    else some { s.become k locks shared (some .addShared) with lck := true }
  | .addShared => some { s.become k locks shared (some .clearShared) with shared_locks := s.shared_locks + 1 }
  | .clearShared => some { s.become k locks (shared + 1) none with lck := false }
  | .unlockShared =>
    if -1 < s.shared_locks.toInt then
      some { s.become k locks (shared - 1) none with shared_locks := s.shared_locks - 1 }
    else none

/-- A thread that is in no call begins one, if its locks allow it. -/
def call (k : Nat) (allowed : MutexThread → Bool) (stage : MutexStage) (s : SharedRecursiveMutex) : Option SharedRecursiveMutex :=
  s.threads[k]?.bind (fun th =>
    if th.call.isNone ∧ allowed th then some (s.become k th.locks th.shared (some stage)) else none)

/-- Threads release what they hold, and ask for no unique lock while they hold a shared one. -/
def step : MutexStep → SharedRecursiveMutex → Option SharedRecursiveMutex
  | .lock k, s => s.call k (fun th => th.shared = 0) (.lock false)
  | .try_lock k, s => s.call k (fun th => th.shared = 0) (.lock true)
  | .unlock k, s => s.call k (fun th => 0 < th.locks) .unlock
  | .lock_shared k, s => s.call k (fun _ => true) .lockShared
  | .try_lock_shared k, s => s.call k (fun _ => true) (.acquireShared true)
  | .unlock_shared k, s => s.call k (fun th => 0 < th.shared) .unlockShared
  | .next k, s => s.threads[k]?.bind (fun th => th.call.bind (s.stepCall k th.locks th.shared))

abbrev run : List MutexStep → SharedRecursiveMutex → Option SharedRecursiveMutex := Schedule.run step

end SharedRecursiveMutex

namespace MutexThread

/-- The shared locks of a thread, with the one it is about to be given. -/
def sharing (th : MutexThread) : Nat := th.shared + if th.call = some .clearShared then 1 else 0

/-- A thread that has set the flag and not cleared it. -/
def inside (th : MutexThread) : Prop :=
  0 < th.locks ∨ match th.call with
    | some (.wait _) | some .giveUp | some .own | some .setCount | some .addShared | some .clearShared => True
    | _ => False

end MutexThread

namespace SharedRecursiveMutex

def sharers (s : SharedRecursiveMutex) : Nat := (s.threads.map MutexThread.sharing).sum

/-- Mutual exclusion: a unique lock excludes the locks of all others, it is given up in the
unlock that matches the outermost lock only, and a thread between two calls has the unique
lock exactly when it is told so. -/
structure Excludes (s : SharedRecursiveMutex) : Prop where
  unique : ∀ (j k : Nat) (th th' : MutexThread), s.threads[j]? = some th → s.threads[k]? = some th' → 0 < th.locks → 0 < th'.locks → j = k
  shared : ∀ (j k : Nat) (th th' : MutexThread), s.threads[j]? = some th → s.threads[k]? = some th' → 0 < th.locks → th'.shared = 0
  nested : ∀ (k : Nat) (th : MutexThread), s.threads[k]? = some th → 0 < th.locks →
    s.lck = true ∧ (s.owner = some k ∨ th.locks = 1 ∧ (th.call = some .clearCount ∨ th.call = some .clear))
  has : ∀ (k : Nat) (th : MutexThread), s.threads[k]? = some th → th.call = none → (s.hasUniqueLock k = true ↔ 0 < th.locks)

/-- The counters do not wrap. -/
def Ordered (s : SharedRecursiveMutex) : MutexStep → Prop
  | .next k => ∀ th, s.threads[k]? = some th →
    (th.call = some .nest → th.locks + 1 < 2 ^ 31) ∧ (th.call = some .addShared → s.sharers + 1 < 2 ^ 31)
  | _ => True

abbrev OrderedRun : List MutexStep → SharedRecursiveMutex → Prop := Schedule.OrderedRun step Ordered

/-- What a thread that holds the unique lock relies on. -/
structure Owned (s : SharedRecursiveMutex) (k locks : Nat) : Prop where
  lck : s.lck = true
  owner : s.owner = some k
  count : s.count.toInt = locks
  sharers : s.sharers = 0

/-- A thread has no unique lock, or all that comes with one. -/
def Standing (s : SharedRecursiveMutex) (k locks : Nat) : Prop :=
  locks = 0 ∧ s.owner ≠ some k ∨ 0 < locks ∧ s.Owned k locks

/-- What holds at each stage. -/
def StageOk (s : SharedRecursiveMutex) (k locks shared : Nat) : Option MutexStage → Prop
  | none => s.Standing k locks
  | some (.lock _) => shared = 0 ∧ s.Standing k locks
  | some .nest => 0 < locks ∧ s.Owned k locks
  | some (.acquire _) => locks = 0 ∧ s.owner ≠ some k
  | some (.wait _) => locks = 0 ∧ s.owner ≠ some k ∧ s.lck = true
  | some .giveUp => locks = 0 ∧ s.owner ≠ some k ∧ s.lck = true
  | some .own => locks = 0 ∧ s.owner ≠ some k ∧ s.lck = true ∧ s.sharers = 0
  | some .setCount => locks = 0 ∧ s.owner = some k ∧ s.lck = true ∧ s.sharers = 0
  | some .unlock => 0 < locks ∧ s.Owned k locks
  | some .decrement => 1 < locks ∧ s.Owned k locks
  | some .clearOwner => locks = 1 ∧ s.Owned k locks
  | some .clearCount => locks = 1 ∧ s.owner ≠ some k ∧ s.lck = true ∧ s.sharers = 0
  | some .clear => locks = 1 ∧ s.owner ≠ some k ∧ s.lck = true ∧ s.sharers = 0
  | some .lockShared => s.Standing k locks
  | some (.acquireShared _) => s.Standing k locks
  | some .addShared => locks = 0 ∧ s.owner ≠ some k ∧ s.lck = true
  | some .clearShared => locks = 0 ∧ s.owner ≠ some k ∧ s.lck = true
  | some .unlockShared => 0 < shared ∧ locks = 0 ∧ s.owner ≠ some k

structure Inv (s : SharedRecursiveMutex) : Prop where
  stages : ∀ (k : Nat) (th : MutexThread), s.threads[k]? = some th → s.StageOk k th.locks th.shared th.call
  inside : ∀ (j k : Nat) (th th' : MutexThread), s.threads[j]? = some th → s.threads[k]? = some th' → th.inside → th'.inside → j = k
  total : s.shared_locks.toInt = s.sharers

variable {s t : SharedRecursiveMutex} {k : Nat} {th th' : MutexThread}

section Invariant

theorem owned_congr (lck : t.lck = s.lck) (owner : t.owner = s.owner) (count : t.count = s.count)
    (sharers : t.sharers = s.sharers) (locks : Nat) : t.Owned k locks ↔ s.Owned k locks := by
  constructor
  · exact fun h => ⟨lck ▸ h.lck, owner ▸ h.owner, count ▸ h.count, sharers ▸ h.sharers⟩
  · exact fun h => ⟨lck.trans h.lck, owner.trans h.owner, by rw [count, h.count], sharers.trans h.sharers⟩

/-- What a stage says about the mutex depends on the flag, the owner, the count and the
shared locks, and outside the flag on the owner alone. -/
theorem stageOk_congr (lck : t.lck = s.lck) (owner : t.owner = s.owner) (count : t.count = s.count)
    (sharers : t.sharers = s.sharers) {locks shared : Nat} {call : Option MutexStage} (ok : s.StageOk k locks shared call) :
    t.StageOk k locks shared call := by
  have owned := owned_congr (k := k) lck owner count sharers
  cases call with
  | none => simpa only [StageOk, Standing, owned, owner] using ok
  | some stage => cases stage <;> simpa only [StageOk, Standing, owned, lck, owner, sharers] using ok

theorem stageOk_outside (outside : ¬th.inside) (owner : t.owner ≠ some k) (ok : s.StageOk k th.locks th.shared th.call) :
    t.StageOk k th.locks th.shared th.call := by
  obtain ⟨locks, shared, call⟩ := th
  have free : locks = 0 := Nat.eq_zero_of_not_pos (fun positive => outside (Or.inl positive))
  subst free
  cases call with
  | none => exact Or.inl ⟨rfl, owner⟩
  | some stage => cases stage <;> simp_all [StageOk, Standing, MutexThread.inside]

theorem Standing.owned {locks : Nat} (standing : s.Standing k locks) (positive : 0 < locks) : s.Owned k locks := by
  obtain ⟨rfl, _⟩ | ⟨_, owned⟩ := standing
  · exact absurd positive (Nat.lt_irrefl 0)
  · exact owned

/-- A thread that has the flag finds it set. -/
theorem lck_of_inside (inside : th.inside) (ok : s.StageOk k th.locks th.shared th.call) : s.lck = true := by
  obtain ⟨locks, shared, call⟩ := th
  have lck (owned : s.Owned k locks) : s.lck = true := owned.lck
  cases call with
  | none => exact lck (Standing.owned ok (inside.elim id False.elim))
  | some stage => cases stage <;> simp only [StageOk, Standing, MutexThread.inside] at ok inside <;> grind

/-- A thread that owns the mutex has the flag. -/
theorem inside_of_owner (owner : s.owner = some k) (ok : s.StageOk k th.locks th.shared th.call) : th.inside := by
  obtain ⟨locks, shared, call⟩ := th
  cases call with
  | none => exact Or.inl (ok.elim (fun free => absurd owner free.2) And.left)
  | some stage => cases stage <;> simp only [StageOk, Standing, MutexThread.inside] at ok ⊢ <;> grind

section Update
variable (inv : Inv s) (found : s.threads[k]? = some th) (threads : t.threads = s.threads.set k th')
include found threads

theorem sharers_update : t.sharers + th.sharing = s.sharers + th'.sharing := by
  unfold sharers
  rw [threads]
  exact sum_set found th' (fun _ _ _ _ => rfl)

include inv

/-- A step of one thread keeps the invariant if it suits the thread and the others, and
only takes the flag when it is free. -/
theorem Inv.update (ok : t.StageOk k th'.locks th'.shared th'.call)
    (others : ∀ (j : Nat) (other : MutexThread), j ≠ k → s.threads[j]? = some other →
      s.StageOk j other.locks other.shared other.call → t.StageOk j other.locks other.shared other.call)
    (inside : th'.inside → th.inside ∨ s.lck = false) (total : t.shared_locks.toInt = t.sharers) : Inv t := by
  have at_ {j : Nat} {other : MutexThread} (there : t.threads[j]? = some other) :
      j = k ∧ other = th' ∨ j ≠ k ∧ s.threads[j]? = some other := by
    rw [threads, List.getElem?_set] at there
    split_ifs at there with same
    · exact Or.inl ⟨same.symm, (Option.some.inj there).symm⟩
    · exact Or.inr ⟨Ne.symm same, there⟩
  have alone {j : Nat} {other : MutexThread} (different : j ≠ k) (there : s.threads[j]? = some other)
      (here : other.inside) (entered : th'.inside) : False := by
    obtain before | free := inside entered
    · exact different (inv.inside j k other th there found here before)
    · have set_ := lck_of_inside here (inv.stages j other there)
      rw [free] at set_
      cases set_
  refine ⟨fun j other there => ?_, fun i j one other there there' here here' => ?_, total⟩
  · obtain ⟨rfl, rfl⟩ | ⟨different, before⟩ := at_ there
    · exact ok
    · exact others j other different before (inv.stages j other before)
  · obtain ⟨rfl, rfl⟩ | ⟨different, before⟩ := at_ there <;> obtain ⟨rfl, rfl⟩ | ⟨different', before'⟩ := at_ there'
    · rfl
    · exact (alone different' before' here' here).elim
    · exact (alone different before here here').elim
    · exact inv.inside i j one other before before' here here'

/-- A step that leaves the mutex alone. -/
theorem Inv.silent (lck : t.lck = s.lck) (owner : t.owner = s.owner) (count : t.count = s.count)
    (shared_locks : t.shared_locks = s.shared_locks) (same : th'.sharing = th.sharing)
    (ok : s.StageOk k th'.locks th'.shared th'.call) (inside : th'.inside → th.inside) : Inv t := by
  have sharers : t.sharers = s.sharers := by
    have moved := sharers_update found threads
    omega
  refine inv.update found threads (stageOk_congr lck owner count sharers ok) (fun j other _ _ before => ?_)
    (fun here => Or.inl (inside here)) ?_
  · exact stageOk_congr lck owner count sharers before
  · rw [shared_locks, sharers, inv.total]

/-- A step of the thread that has the flag or takes it. -/
theorem Inv.guarded (alone : th.inside ∨ s.lck = false) (owner : ∀ j, j ≠ k → t.owner = some j → s.owner = some j)
    (ok : t.StageOk k th'.locks th'.shared th'.call) (total : t.shared_locks.toInt = t.sharers) : Inv t := by
  refine inv.update found threads ok (fun j other different there before => ?_) (fun _ => alone) total
  have outside : ¬other.inside := by
    intro here
    obtain inside | free := alone
    · exact different (inv.inside j k other th there found here inside)
    · rw [lck_of_inside here before] at free
      cases free
  exact stageOk_outside outside (fun same => outside (inside_of_owner (owner j different same) before)) before

/-- The same where the shared locks stay as they are. -/
theorem Inv.exclusive (alone : th.inside ∨ s.lck = false) (shared_locks : t.shared_locks = s.shared_locks) (same : th'.sharing = th.sharing)
    (owner : ∀ j, j ≠ k → t.owner = some j → s.owner = some j)
    (ok : t.sharers = s.sharers → t.StageOk k th'.locks th'.shared th'.call) : Inv t := by
  have sharers : t.sharers = s.sharers := by
    have moved := sharers_update found threads
    omega
  exact inv.guarded found threads alone owner (ok sharers) (by rw [shared_locks, sharers, inv.total])

/-- A step that gives a shared lock back. -/
theorem Inv.unshare (lck : t.lck = s.lck) (owner : t.owner = s.owner) (held : 0 < th.sharing)
    (ok : t.StageOk k th'.locks th'.shared th'.call) (inside : th'.inside → th.inside)
    (total : t.shared_locks.toInt = t.sharers) : Inv t := by
  refine inv.update found threads ok (fun j other _ _ before => ?_) (fun here => Or.inl (inside here)) total
  have positive : 0 < s.sharers := held.trans_le (le_sum found)
  have unowned (locks : Nat) : ¬s.Owned j locks := fun owned => absurd owned.sharers (Nat.ne_of_gt positive)
  obtain ⟨locks, shared, call⟩ := other
  cases call with
  | none =>
    obtain free | held := before
    · exact Or.inl ⟨free.1, owner ▸ free.2⟩
    · exact absurd held.2 (unowned locks)
  | some stage => cases stage <;> simp only [StageOk, Standing, unowned, owner, lck] at before ⊢ <;> grind

end Update

section Counters

theorem toInt_succ {x : BitVec 32} {n : Nat} (value : x.toInt = n) (bound : n + 1 < 2 ^ 31) : (x + 1).toInt = (n + 1 : Nat) := by
  rw [BitVec.toInt_add, value, show (1 : BitVec 32).toInt = 1 by decide, Int.bmod_eq_of_le (by omega) (by omega)]
  omega

theorem toInt_pred {x : BitVec 32} {n : Nat} (value : x.toInt = n) (positive : 0 < n) : (x - 1).toInt = (n - 1 : Nat) := by
  have upper := BitVec.toInt_lt (x := x)
  rw [BitVec.toInt_sub, value, show (1 : BitVec 32).toInt = 1 by decide, Int.bmod_eq_of_le (by omega) (by omega)]
  omega

end Counters

section Steps
variable {locks shared : Nat} {stage : MutexStage}

/-- Taking, nesting and releasing the unique lock. -/
theorem Inv.step_unique (inv : Inv s) (found : s.threads[k]? = some ⟨locks, shared, some stage⟩)
    (bound : stage = .nest → locks + 1 < 2 ^ 31) (unique : stage ∈ [.nest, .giveUp, .own, .setCount, .decrement,
      .clearOwner, .clearCount, .clear])
    (stepped : s.stepCall k locks shared stage = some t) : Inv t := by
  have ok : s.StageOk k locks shared (some stage) := inv.stages k _ found
  simp only [List.mem_cons, List.not_mem_nil, or_false] at unique
  rcases unique with rfl | rfl | rfl | rfl | rfl | rfl | rfl | rfl <;> cases stepped
  · obtain ⟨positive, owned⟩ := ok
    refine inv.exclusive found rfl (Or.inl (Or.inl positive)) rfl rfl (fun _ _ same => same) (fun sharers => Or.inr ⟨Nat.succ_pos _, ?_⟩)
    exact ⟨owned.lck, owned.owner, toInt_succ owned.count (bound rfl), sharers.trans owned.sharers⟩
  · obtain ⟨free, other, _⟩ := ok
    exact inv.exclusive found rfl (Or.inl (Or.inr trivial)) rfl rfl (fun _ _ same => same) (fun _ => Or.inl ⟨free, other⟩)
  · obtain ⟨free, _, lck, alone⟩ := ok
    refine inv.exclusive found rfl (Or.inl (Or.inr trivial)) rfl rfl (fun j different same => ?_) (fun sharers => ?_)
    · exact absurd (Option.some.inj same).symm different
    · exact ⟨free, rfl, lck, sharers.trans alone⟩
  · obtain ⟨free, owner, lck, alone⟩ := ok
    refine inv.exclusive found rfl (Or.inl (Or.inr trivial)) rfl rfl (fun _ _ same => same) (fun sharers => Or.inr ⟨Nat.succ_pos _, ?_⟩)
    exact ⟨lck, owner, by rw [free]; rfl, sharers.trans alone⟩
  · obtain ⟨nested, owned⟩ := ok
    refine inv.exclusive found rfl (Or.inl (Or.inl (Nat.zero_lt_of_lt nested))) rfl rfl (fun _ _ same => same)
      (fun sharers => Or.inr ⟨Nat.sub_pos_of_lt nested, ?_⟩)
    exact ⟨owned.lck, owned.owner, toInt_pred owned.count (Nat.zero_lt_of_lt nested), sharers.trans owned.sharers⟩
  · obtain ⟨one, owned⟩ := ok
    refine inv.exclusive found rfl (Or.inl (Or.inl (one ▸ Nat.one_pos))) rfl rfl (fun _ _ same => ?_) (fun sharers => ?_)
    · cases same
    · exact ⟨one, (nofun : none ≠ some k), owned.lck, sharers.trans owned.sharers⟩
  · obtain ⟨one, owner, lck, alone⟩ := ok
    exact inv.exclusive found rfl (Or.inl (Or.inl (one ▸ Nat.one_pos))) rfl rfl (fun _ _ same => same)
      (fun sharers => ⟨one, owner, lck, sharers.trans alone⟩)
  · obtain ⟨one, owner, lck, alone⟩ := ok
    exact inv.exclusive found rfl (Or.inl (Or.inl (one ▸ Nat.one_pos))) rfl rfl (fun _ _ same => same)
      (fun sharers => Or.inl ⟨by rw [one], owner⟩)

/-- The checks of a lock before it goes on. -/
theorem Inv.step_test (tries : Bool) (inv : Inv s) (found : s.threads[k]? = some ⟨locks, shared, some stage⟩)
    (tests : stage ∈ [.lock tries, .wait tries, .unlock, .lockShared])
    (stepped : s.stepCall k locks shared stage = some t) : Inv t := by
  have ok : s.StageOk k locks shared (some stage) := inv.stages k _ found
  simp only [List.mem_cons, List.not_mem_nil, or_false] at tests
  rcases tests with rfl | rfl | rfl | rfl
  · cases stepped
    by_cases mine : s.owner = some k
    · rw [if_pos mine]
      have owned : 0 < locks ∧ s.Owned k locks := ok.2.resolve_left (fun free => free.2 mine)
      exact inv.silent found rfl rfl rfl rfl rfl rfl owned id
    · rw [if_neg mine]
      have free : locks = 0 ∧ s.owner ≠ some k := ok.2.resolve_right (fun held => mine held.2.owner)
      exact inv.silent found rfl rfl rfl rfl rfl rfl free id
  · by_cases shares : 0 < s.shared_locks.toInt
    · simp only [stepCall, if_pos shares, Option.some.injEq] at stepped
      subst stepped
      cases tries
      · exact inv.silent found rfl rfl rfl rfl rfl rfl ok id
      · exact inv.silent found rfl rfl rfl rfl rfl rfl ok id
    · simp only [stepCall, if_neg shares, Option.some.injEq] at stepped
      subst stepped
      have total := inv.total
      have alone : s.sharers = 0 := by omega
      exact inv.silent found rfl rfl rfl rfl rfl rfl ⟨ok.1, ok.2.1, ok.2.2, alone⟩ id
  · cases stepped
    have value := ok.2.count
    by_cases nested : 1 < s.count.toInt
    · have deep : 1 < locks := by omega
      rw [if_pos nested]
      exact inv.silent found rfl rfl rfl rfl rfl rfl ⟨deep, ok.2⟩ id
    · have positive : 0 < locks := ok.1
      have last : locks = 1 := by omega
      rw [if_neg nested]
      exact inv.silent found rfl rfl rfl rfl rfl rfl ⟨last, ok.2⟩ id
  · obtain ⟨_, rest⟩ := Option.ite_none_left_eq_some.mp stepped
    cases rest
    exact inv.silent found rfl rfl rfl rfl rfl rfl ok id

/-- Taking the flag. -/
theorem Inv.step_acquire (tries : Bool) (inv : Inv s) (found : s.threads[k]? = some ⟨locks, shared, some stage⟩)
    (acquires : stage ∈ [.acquire tries, .acquireShared tries])
    (stepped : s.stepCall k locks shared stage = some t) : Inv t := by
  have ok : s.StageOk k locks shared (some stage) := inv.stages k _ found
  simp only [List.mem_cons, List.not_mem_nil, or_false] at acquires
  rcases acquires with rfl | rfl
  · by_cases taken : s.lck
    · simp only [stepCall, if_pos taken, Option.some.injEq] at stepped
      subst stepped
      cases tries
      · exact inv.silent found rfl rfl rfl rfl rfl rfl ok id
      · exact inv.silent found rfl rfl rfl rfl rfl rfl (Or.inl ok) id
    · simp only [stepCall, if_neg taken, Option.some.injEq] at stepped
      subst stepped
      exact inv.exclusive found rfl (Or.inr (Bool.eq_false_of_not_eq_true taken)) rfl rfl (fun _ _ same => same)
        (fun _ => ⟨ok.1, ok.2, rfl⟩)
  · by_cases taken : s.lck
    · simp only [stepCall, if_pos taken, Option.some.injEq] at stepped
      subst stepped
      cases tries
      · exact inv.silent found rfl rfl rfl rfl rfl rfl ok id
      · exact inv.silent found rfl rfl rfl rfl rfl rfl ok id
    · simp only [stepCall, if_neg taken, Option.some.injEq] at stepped
      subst stepped
      have free : locks = 0 ∧ s.owner ≠ some k := Or.resolve_right ok (fun held => taken held.2.lck)
      exact inv.exclusive found rfl (Or.inr (Bool.eq_false_of_not_eq_true taken)) rfl rfl (fun _ _ same => same)
        (fun _ => ⟨free.1, free.2, rfl⟩)

theorem Inv.step_shared (inv : Inv s) (found : s.threads[k]? = some ⟨locks, shared, some stage⟩)
    (bound : stage = .addShared → s.sharers + 1 < 2 ^ 31) (shares : stage ∈ [.addShared, .clearShared, .unlockShared])
    (stepped : s.stepCall k locks shared stage = some t) : Inv t := by
  have ok : s.StageOk k locks shared (some stage) := inv.stages k _ found
  simp only [List.mem_cons, List.not_mem_nil, or_false] at shares
  rcases shares with rfl | rfl | rfl
  · have made := Option.some.inj stepped
    have moved : t.sharers + shared = s.sharers + (shared + 1) := sharers_update found (congrArg threads made.symm)
    have total : t.shared_locks.toInt = t.sharers := by
      rw [show t.sharers = s.sharers + 1 by omega, ← toInt_succ inv.total (bound rfl), ← made]
    subst made
    exact inv.guarded found rfl (Or.inl (Or.inr trivial)) (fun _ _ same => same) ok total
  · cases stepped
    refine inv.exclusive found rfl (Or.inl (Or.inr trivial)) rfl ?_ (fun _ _ same => same) (fun _ => Or.inl ⟨ok.1, ok.2.1⟩)
    simp [MutexThread.sharing]
  · obtain ⟨_, rest⟩ := Option.ite_none_right_eq_some.mp stepped
    obtain ⟨held, free, other⟩ := ok
    have made := Option.some.inj rest
    have moved : t.sharers + shared = s.sharers + (shared - 1) := sharers_update found (congrArg threads made.symm)
    have enough : shared ≤ s.sharers := le_sum (f := MutexThread.sharing) found
    have total : t.shared_locks.toInt = t.sharers := by
      rw [show t.sharers = s.sharers - 1 by omega, ← toInt_pred inv.total (held.trans_le enough), ← made]
    subst made
    exact inv.unshare found rfl rfl rfl held (Or.inl ⟨free, other⟩) id total

theorem Inv.step_call (inv : Inv s) (found : s.threads[k]? = some ⟨locks, shared, some stage⟩)
    (ordered : s.Ordered (.next k)) (stepped : s.stepCall k locks shared stage = some t) : Inv t := by
  obtain ⟨nests, adds⟩ := ordered _ found
  cases stage with
  | nest => exact inv.step_unique found (fun _ => nests rfl) (by decide) stepped
  | giveUp => exact inv.step_unique found nofun (by decide) stepped
  | own => exact inv.step_unique found nofun (by decide) stepped
  | setCount => exact inv.step_unique found nofun (by decide) stepped
  | decrement => exact inv.step_unique found nofun (by decide) stepped
  | clearOwner => exact inv.step_unique found nofun (by decide) stepped
  | clearCount => exact inv.step_unique found nofun (by decide) stepped
  | clear => exact inv.step_unique found nofun (by decide) stepped
  | lock tries => exact inv.step_test tries found (by simp) stepped
  | wait tries => exact inv.step_test tries found (by simp) stepped
  | unlock => exact inv.step_test false found (by decide) stepped
  | lockShared => exact inv.step_test false found (by decide) stepped
  | acquire tries => exact inv.step_acquire tries found (by simp) stepped
  | acquireShared tries => exact inv.step_acquire tries found (by simp) stepped
  | addShared => exact inv.step_shared found (fun _ => adds rfl) (by decide) stepped
  | clearShared => exact inv.step_shared found nofun (by decide) stepped
  | unlockShared => exact inv.step_shared found nofun (by decide) stepped

theorem Inv.call {allowed : MutexThread → Bool} (inv : Inv s) (started : s.call k allowed stage = some t)
    (plain : stage ≠ .clearShared)
    (ok : ∀ locks shared, allowed ⟨locks, shared, none⟩ = true → s.Standing k locks → shared ≤ s.sharers →
      s.StageOk k locks shared (some stage) ∧ (MutexThread.inside ⟨locks, shared, some stage⟩ → 0 < locks)) : Inv t := by
  obtain ⟨⟨locks, shared, during⟩, found, rest⟩ := Option.bind_eq_some_iff.mp started
  obtain ⟨⟨idle, able⟩, made⟩ := Option.ite_none_right_eq_some.mp rest
  have idle : during = none := Option.isNone_iff_eq_none.mp idle
  subst idle
  have bounded : shared ≤ s.sharers := le_sum (f := MutexThread.sharing) found
  have next := ok locks shared able (inv.stages k _ found) bounded
  cases made
  refine inv.silent found rfl rfl rfl rfl rfl ?_ next.1 (fun here => Or.inl (next.2 here))
  simp [MutexThread.sharing, plain]

theorem Inv.step {next : MutexStep} (inv : Inv s) (ordered : s.Ordered next) (stepped : step next s = some t) : Inv t := by
  have outer {locks : Nat} {side : Prop} (nothing : ¬side) : 0 < locks ∨ side → 0 < locks := fun h => h.resolve_right nothing
  cases next with
  | lock k => exact inv.call stepped nofun (fun _ _ able standing _ => ⟨⟨by simpa using able, standing⟩, outer id⟩)
  | try_lock k => exact inv.call stepped nofun (fun _ _ able standing _ => ⟨⟨by simpa using able, standing⟩, outer id⟩)
  | unlock k =>
    refine inv.call stepped nofun (fun locks _ able standing _ => ?_)
    have positive : 0 < locks := by simpa using able
    exact ⟨⟨positive, standing.owned positive⟩, outer id⟩
  | lock_shared k => exact inv.call stepped nofun (fun _ _ _ standing _ => ⟨standing, outer id⟩)
  | try_lock_shared k => exact inv.call stepped nofun (fun _ _ _ standing _ => ⟨standing, outer id⟩)
  | unlock_shared k =>
    refine inv.call stepped nofun (fun _ shared able standing bounded => ?_)
    have positive : 0 < shared := by simpa using able
    have free := standing.resolve_right (fun held => absurd held.2.sharers (by omega))
    exact ⟨⟨positive, free⟩, outer id⟩
  | next k =>
    obtain ⟨⟨locks, shared, during⟩, found, rest⟩ := Option.bind_eq_some_iff.mp stepped
    obtain ⟨stage, here, made⟩ := Option.bind_eq_some_iff.mp rest
    cases here
    exact inv.step_call found ordered made

theorem inv_atRest (threads : Nat) : Inv (atRest threads) := by
  have at_ {k : Nat} {th : MutexThread} (found : (atRest threads).threads[k]? = some th) : th = ⟨0, 0, none⟩ := by
    simp only [atRest, List.getElem?_replicate] at found
    split_ifs at found
    exact (Option.some.inj found).symm
  refine ⟨fun k th found => ?_, fun j k th th' found _ here _ => ?_, ?_⟩
  · rw [at_ found]
    exact Or.inl ⟨rfl, nofun⟩
  · rw [at_ found] at here
    exact (here.elim (Nat.lt_irrefl 0) id).elim
  · simp [atRest, sharers, MutexThread.sharing]

/-- What a thread with the unique lock can rely on, at every stage. -/
theorem stageOk_locks (positive : 0 < th.locks) (ok : s.StageOk k th.locks th.shared th.call) :
    s.sharers = 0 ∧ s.lck = true ∧
      (s.owner = some k ∨ th.locks = 1 ∧ (th.call = some .clearCount ∨ th.call = some .clear)) := by
  obtain ⟨locks, shared, call⟩ := th
  have owned (locks : Nat) (owned : s.Owned k locks) : s.sharers = 0 ∧ s.lck = true ∧ s.owner = some k :=
    ⟨owned.sharers, owned.lck, owned.owner⟩
  cases call with
  | none =>
    have all := owned locks (Standing.owned ok positive)
    exact ⟨all.1, all.2.1, Or.inl all.2.2⟩
  | some stage => cases stage <;> simp only [StageOk, Standing] at ok <;> grind

theorem Inv.excludes (inv : Inv s) : s.Excludes where
  unique j k th th' there found first second := inv.inside j k th th' there found (Or.inl first) (Or.inl second)
  shared j k th th' there found positive := by
    have none := (stageOk_locks positive (inv.stages j th there)).1
    have bounded : th'.shared ≤ s.sharers := (Nat.le_add_right _ _).trans (le_sum (f := MutexThread.sharing) found)
    omega
  nested k th found positive := (stageOk_locks positive (inv.stages k th found)).2
  has k th found idle := by
    have standing : s.Standing k th.locks := by
      have ok := inv.stages k th found
      rwa [idle] at ok
    rw [hasUniqueLock, decide_eq_true_iff]
    constructor
    · exact fun mine => Nat.pos_of_ne_zero (fun free => (standing.resolve_right (fun held => by omega)).2 mine)
    · exact fun positive => (standing.owned positive).owner

/-- As long as the counters do not wrap, the mutex excludes in every state of every run. -/
theorem excludes_orderedRun {threads : Nat} {steps : List MutexStep} (ordered : OrderedRun steps (atRest threads))
    (ran : run steps (atRest threads) = some t) : t.Excludes :=
  (Schedule.invariant_run (I := Inv) (fun inv here stepped => inv.step here stepped) (inv_atRest threads) ordered ran).excludes

end Steps

/-- A lock against a thread that tries for a shared one. -/
theorem excludes_oneLock :
    ∃ s, run (.lock 0 :: .next 0 :: .next 0 :: .next 0 :: [.next 0, .next 0, .try_lock_shared 1, .next 1]) (atRest 2) = some s ∧
      s.threads = [⟨1, 0, none⟩, ⟨0, 0, none⟩] ∧ s.Excludes := by
  have ordered : OrderedRun (.lock 0 :: .next 0 :: .next 0 :: .next 0 :: [.next 0, .next 0, .try_lock_shared 1, .next 1])
      (atRest 2) := by
    refine ⟨trivial, fun th found => ?_, fun th found => ?_, fun th found => ?_, fun th found => ?_, fun th found => ?_,
      trivial, fun th found => ?_, trivial⟩ <;> cases found <;> exact ⟨nofun, nofun⟩
  exact ⟨_, rfl, rfl, excludes_orderedRun ordered rfl⟩

end Invariant

section Overflow

/-- The owner locks so many times more. -/
def nesting : Nat → List MutexStep
  | 0 => []
  | n + 1 => .lock 0 :: .next 0 :: .next 0 :: nesting n

theorem run_nesting (n m : Nat) (c : BitVec 32) (th : MutexThread) :
    run (nesting n) ⟨true, some 0, c, 0, [⟨m, 0, none⟩, th]⟩ =
      some ⟨true, some 0, c + BitVec.ofNat 32 n, 0, [⟨m + n, 0, none⟩, th]⟩ := by
  induction n generalizing m c with
  | zero => simp [nesting, Schedule.run]
  | succ n ih =>
    calc run (nesting (n + 1)) ⟨true, some 0, c, 0, [⟨m, 0, none⟩, th]⟩
      _ = run (nesting n) ⟨true, some 0, c + 1, 0, [⟨m + 1, 0, none⟩, th]⟩ := rfl
      _ = _ := ih (m + 1) (c + 1)
      _ = _ := by
        have counted : c + 1 + BitVec.ofNat 32 n = c + BitVec.ofNat 32 (n + 1) := by
          rw [BitVec.ofNat_add, BitVec.add_comm (BitVec.ofNat 32 n), BitVec.add_assoc]
          rfl
        have deeper : m + 1 + n = m + (n + 1) := by omega
        rw [counted, deeper]

/-- A first thread locks more often than it unlocks, and a second one locks. -/
def overlapping (n : Nat) : List MutexStep :=
  .lock 0 :: List.replicate 5 (.next 0) ++ (nesting n ++
    (.unlock 0 :: List.replicate 4 (.next 0) ++ .lock 1 :: List.replicate 5 (.next 1)))

/-- With a count that is no more than one, the first unlock lets the second thread in. -/
theorem run_overlapping {n : Nat} (wraps : ¬1 < (1 + BitVec.ofNat 32 n).toInt) :
    run (overlapping n) (atRest 2) = some ⟨true, some 1, 1, 0, [⟨n, 0, none⟩, ⟨1, 0, none⟩]⟩ := by
  have locked : run (.lock 0 :: List.replicate 5 (.next 0)) (atRest 2) =
      some ⟨true, some 0, 1, 0, [⟨1, 0, none⟩, ⟨0, 0, none⟩]⟩ := rfl
  have unlocks : step (.unlock 0) ⟨true, some 0, 1 + BitVec.ofNat 32 n, 0, [⟨1 + n, 0, none⟩, ⟨0, 0, none⟩]⟩ =
      some ⟨true, some 0, 1 + BitVec.ofNat 32 n, 0, [⟨1 + n, 0, some .unlock⟩, ⟨0, 0, none⟩]⟩ := by
    simp [step, call, become]
  have tests : step (.next 0) ⟨true, some 0, 1 + BitVec.ofNat 32 n, 0, [⟨1 + n, 0, some .unlock⟩, ⟨0, 0, none⟩]⟩ =
      some ⟨true, some 0, 1 + BitVec.ofNat 32 n, 0, [⟨1 + n, 0, some .clearOwner⟩, ⟨0, 0, none⟩]⟩ := by
    simp only [step, stepCall, List.getElem?_cons_zero, Option.bind_some, if_neg wraps, become, List.set_cons_zero]
  have clears : run (List.replicate 3 (.next 0) ++ .lock 1 :: List.replicate 5 (.next 1))
      ⟨true, some 0, 1 + BitVec.ofNat 32 n, 0, [⟨1 + n, 0, some .clearOwner⟩, ⟨0, 0, none⟩]⟩ =
      some ⟨true, some 1, 1, 0, [⟨1 + n - 1, 0, none⟩, ⟨1, 0, none⟩]⟩ := rfl
  calc run (overlapping n) (atRest 2)
    _ = _ := Schedule.run_append locked
    _ = _ := Schedule.run_append (run_nesting n 1 1 ⟨0, 0, none⟩)
    _ = _ := Schedule.run_cons unlocks
    _ = _ := Schedule.run_cons tests
    _ = _ := clears
    _ = _ := by rw [Nat.add_sub_cancel_left]

/-- The count of nested locks wraps, and two threads hold the unique lock. -/
theorem twoOwners : ∃ t, run (overlapping (2 ^ 31 - 1)) (atRest 2) = some t ∧
    t.threads = [⟨2 ^ 31 - 1, 0, none⟩, ⟨1, 0, none⟩] ∧ ¬t.Excludes := by
  refine ⟨_, run_overlapping (by decide), rfl, fun excludes => ?_⟩
  exact absurd (excludes.unique 0 1 _ _ rfl rfl (by decide) (by decide)) (by decide)

end Overflow

end SharedRecursiveMutex

end CloudCryptFS.Util.SharedMutex
