import CloudCryptFS.Filesystem.Accounting
import CloudCryptFS.Util.Linked
import CloudCryptFS.Util.Schedule

/-! Threads on the accounting of bucket indexes. The records go back and forth between two
linked lists, and every access to a head, to a next node and to the data of a node is a
step of its own. Only the calls that make or release buckets hold the mutex. -/

namespace CloudCryptFS.Filesystem
open Util Linked BucketIndex
open Accounting (maxBuckets indexesOf createLoop)

inductive ListName where
  | available
  | free
  deriving DecidableEq

/-- `_records.size()`. -/
def recordCount : Nat := chunksInBucket * maxBuckets

/-- What the threads share; a node is its position in `_records`. -/
structure Memory where
  data : Nat → BucketIndex
  nextNode : Nat → Option Nat
  head : ListName → Option Nat
  hint : Nat
  bucketsInUse : Finset Nat

inductive Write where
  | data (node : Nat) (i : BucketIndex)
  | next (node : Nat) (n : Option Nat)
  | head (l : ListName) (n : Option Nat)
  | use (bucket : Nat)

namespace Memory

def setData (node : Nat) (i : BucketIndex) (m : Memory) : Memory := { m with data := Function.update m.data node i }
def setNext (node : Nat) (n : Option Nat) (m : Memory) : Memory := { m with nextNode := Function.update m.nextNode node n }
def setHead (l : ListName) (n : Option Nat) (m : Memory) : Memory := { m with head := Function.update m.head l n }

theorem head_setHead_self (l : ListName) (n : Option Nat) (m : Memory) : (m.setHead l n).head l = n := by
  simp only [setHead, Function.update_self]

theorem head_setHead_of_ne {l l' : ListName} (different : l' ≠ l) (n : Option Nat) (m : Memory) : (m.setHead l n).head l' = m.head l' := by
  simp only [setHead, Function.update_of_ne different]

def write : Write → Memory → Memory
  | .data node i, m => m.setData node i
  | .next node n, m => m.setNext node n
  | .head l n, m => m.setHead l n
  | .use bucket, m => { m with bucketsInUse := insert bucket m.bucketsInUse, hint := bucket + 1 }

def writeAll (writes : List Write) (m : Memory) : Memory := writes.foldl (fun m w => m.write w) m

end Memory

/-- `cleanRecords`. -/
def cleanRecords : List Write :=
  (List.range (recordCount - 1)).flatMap (fun a => [.next a (some (a + 1)), .next (a + 1) none])

/-- The records of new buckets, from the record `recId` on. -/
def recordWrites : (recId : Nat) → List Nat → List Write
  | _, [] => []
  | recId, id :: ids =>
    .use id :: (List.range chunksInBucket).map (fun b => .data (recId + b) (make id b)) ++ recordWrites (recId + chunksInBucket) ids

/-- All that `createBuckets` writes, in its order. -/
def createWrites (buckets : List Nat) : List Write :=
  recordWrites 0 buckets ++ cleanRecords ++ [.head .available (some 0), .head .free none]

/-- The next step of `takeFromList`. -/
inductive Taking where
  | load
  | next (expected : Nat)
  | exchange (expected : Nat) (newNode : Option Nat)

/-- The next step of `insertIntoList`. -/
inductive Inserting where
  | load
  | next (expected : Option Nat)
  | exchange (expected : Option Nat)

/-- The next step for a node in the second loop of `releaseBuckets`. -/
inductive Sorting where
  | zero
  | find
  | clear

inductive PoolStage where
  | take (next : Taking)
  | read (node : Nat)
  | clear (node : Nat)
  | write (node : Nat)
  | insert (node : Nat) (next : Inserting)
  | lock
  | checkEmpty
  | checkFilled
  | create (buckets : List Nat) (writes : List Write)
  | assertEmpty
  | steal (expected : Option Nat)
  | count (seen : List BucketIndex)
  | sort (toDelete : Finset Nat) (node : Nat) (delList availList : List Nat) (next : Sorting)
  | link (toDelete : Finset Nat) (delList availList : List Nat) (next : Inserting)
  | remove (toDelete : Finset Nat)
  | assertFilled
  | unlock

/-- `fetch`, before and after it has read its index, or `post`. -/
inductive PoolCall where
  | fetch
  | fetched (ret : BucketIndex)
  | post (data : BucketIndex)

namespace PoolCall

def source : PoolCall → ListName
  | post _ => .free
  | _ => .available

def target : PoolCall → ListName
  | post _ => .available
  | _ => .free

/-- The index that a call has in hand. -/
def carried : PoolCall → List BucketIndex
  | fetch => []
  | fetched ret => [ret]
  | post data => [data]

def returned : PoolCall → List BucketIndex
  | fetched ret => [ret]
  | _ => []

end PoolCall

/-- A thread holds the indexes that it has fetched and not posted. -/
structure PoolThread where
  held : List BucketIndex
  call : Option (PoolCall × PoolStage)

structure Pool where
  memory : Memory
  mutex : Option Nat
  threads : List PoolThread

inductive PoolStep where
  | fetch (thread : Nat)
  | post (thread : Nat) (data : BucketIndex)
  | next (thread : Nat)

namespace Pool

/-- The constructor, on the buckets in use and threads that hold their indexes. -/
def create (buckets : Finset Nat) (threads : List PoolThread) : Pool where
  memory := Memory.writeAll cleanRecords
    { data := fun _ => 0
      nextNode := fun _ => none
      head := fun l => match l with
        | .available => none
        | .free => some 0
      hint := 1
      bucketsInUse := buckets }
  mutex := none
  threads := threads

def become (k : Nat) (th : PoolThread) (m : Memory) (s : Pool) : Pool := { s with memory := m, threads := s.threads.set k th }

/-- Nothing but the stage of the thread changes. -/
def goOn (k : Nat) (held : List BucketIndex) (call : PoolCall) (stage : PoolStage) (s : Pool) : Pool :=
  s.become k ⟨held, some (call, stage)⟩ s.memory

/-- The loop of `takeFromList` on what is expected at the head now. -/
def takeNext : Option Nat → PoolStage
  | some expected => .take (.next expected)
  | none => .lock

/-- What a call does with a node that it has taken. -/
def taken (node : Nat) : PoolCall → PoolStage
  | .post _ => .write node
  | _ => .read node

def stepTake (k : Nat) (held : List BucketIndex) (call : PoolCall) (s : Pool) : Taking → Pool
  | .load => s.goOn k held call (takeNext (s.memory.head call.source))
  | .next expected => s.goOn k held call (.take (.exchange expected (s.memory.nextNode expected)))
  | .exchange expected newNode =>
    if s.memory.head call.source = some expected then
      s.become k ⟨held, some (call, taken expected call)⟩ (s.memory.setHead call.source newNode)
    else s.goOn k held call (takeNext (s.memory.head call.source))

/-- One step of `insertIntoList`: the node is in the list, or the call goes on. -/
def stepInsert (l : ListName) (node : Nat) (m : Memory) : Inserting → Memory × Option Inserting
  | .load => (m, some (.next (m.head l)))
  | .next expected => (m.setNext node expected, some (.exchange expected))
  | .exchange expected => if m.head l = expected then (m.setHead l (some node), none) else (m, some .load)

/-- The buckets that are found 256 times. -/
def fullBuckets (seen : List BucketIndex) : Finset Nat :=
  (seen.map bucket).toFinset.filter (fun id => (seen.map bucket).count id = chunksInBucket)

def stepSort (k : Nat) (held : List BucketIndex) (call : PoolCall) (toDelete : Finset Nat) (node : Nat) (delList availList : List Nat)
    (s : Pool) : Sorting → Pool
  | .zero =>
    if node < recordCount then
      s.goOn k held call (.sort toDelete node delList availList (if s.memory.data node = 0 then .clear else .find))
    else s.goOn k held call (.link toDelete delList.reverse availList.reverse .load)
  | .find =>
    if bucket (s.memory.data node) ∈ toDelete then s.goOn k held call (.sort toDelete node delList availList .clear)
    else s.goOn k held call (.sort toDelete (node + 1) delList (availList ++ [node]) .zero)
  | .clear =>
    s.become k ⟨held, some (call, .sort toDelete (node + 1) (delList ++ [node]) availList .zero)⟩ (s.memory.setData node 0)

/-- The last node of `delList`, or else of `availList`, is inserted; both are kept from
their last node on. -/
def stepLink (k : Nat) (held : List BucketIndex) (call : PoolCall) (toDelete : Finset Nat) (s : Pool) : List Nat → List Nat → Inserting → Pool
  | node :: delList, availList, next =>
    match stepInsert .free node s.memory next with
    | (m, some next) => s.become k ⟨held, some (call, .link toDelete (node :: delList) availList next)⟩ m
    | (m, none) => s.become k ⟨held, some (call, .link toDelete delList availList .load)⟩ m
  | [], node :: availList, next =>
    match stepInsert .available node s.memory next with
    | (m, some next) => s.become k ⟨held, some (call, .link toDelete [] (node :: availList) next)⟩ m
    | (m, none) => s.become k ⟨held, some (call, .link toDelete [] availList .load)⟩ m
  | [], [], _ => s.goOn k held call (.remove toDelete)

/-- The next step of a call; `none` where it waits for the mutex or an assertion fails. -/
def stepCall (k : Nat) (held : List BucketIndex) (call : PoolCall) (s : Pool) : PoolStage → Option Pool
  | .take next => some (s.stepTake k held call next)
  | .read node =>
    match call with
    | .fetch => some (s.goOn k held (.fetched (s.memory.data node)) (.clear node))
    | _ => none
  | .clear node => some (s.become k ⟨held, some (call, .insert node .load)⟩ (s.memory.setData node 0))
  | .write node =>
    match call with
    | .post data => some (s.become k ⟨held, some (call, .insert node .load)⟩ (s.memory.setData node data))
    | _ => none
  | .insert node next =>
    match stepInsert call.target node s.memory next with
    | (m, some next) => some (s.become k ⟨held, some (call, .insert node next)⟩ m)
    | (m, none) => some (s.become k ⟨call.returned ++ held, none⟩ m)
  | .lock => if s.mutex = none then some { s.goOn k held call .checkEmpty with mutex := some k } else none
  | .checkEmpty => some (s.goOn k held call (if s.memory.head call.source = none then .checkFilled else .unlock))
  | .checkFilled =>
    if s.memory.head call.target = none then some (s.goOn k held call .unlock)
    else
      match call with
      | .post _ => some (s.goOn k held call .assertEmpty)
      | _ =>
        let buckets := (createLoop maxBuckets s.memory.hint s.memory.bucketsInUse).1
        some (s.goOn k held call (.create buckets (createWrites buckets)))
  | .create _ [] => some (s.goOn k held call .unlock)
  | .create buckets (w :: writes) => some (s.become k ⟨held, some (call, .create buckets writes)⟩ (s.memory.write w))
  | .assertEmpty => if s.memory.head .free = none then some (s.goOn k held call (.steal none)) else none
  | .steal none => (s.memory.head .available).map (fun expected => s.goOn k held call (.steal (some expected)))
  | .steal (some expected) =>
    if s.memory.head .available = some expected then
      some (s.become k ⟨held, some (call, .count [])⟩ (s.memory.setHead .available none))
    else (s.memory.head .available).map (fun expected => s.goOn k held call (.steal (some expected)))
  | .count seen =>
    if seen.length < recordCount then some (s.goOn k held call (.count (seen ++ [s.memory.data seen.length])))
    else if fullBuckets seen = ∅ then none
    else some (s.goOn k held call (.sort (fullBuckets seen) 0 [] [] .zero))
  | .sort toDelete node delList availList next => some (s.stepSort k held call toDelete node delList availList next)
  | .link toDelete delList availList next => some (s.stepLink k held call toDelete delList availList next)
  | .remove toDelete =>
    some (s.become k ⟨held, some (call, .assertFilled)⟩ { s.memory with bucketsInUse := s.memory.bucketsInUse \ toDelete })
  | .assertFilled => if s.memory.head .free = none then none else some (s.goOn k held call .unlock)
  | .unlock => some { s.goOn k held call (.take .load) with mutex := none }

def step : PoolStep → Pool → Option Pool
  | .fetch k, s =>
    s.threads[k]?.bind (fun th =>
      if th.call.isNone then some (s.goOn k th.held .fetch (.take .load)) else none)
  | .post k i, s =>
    s.threads[k]?.bind (fun th =>
      if th.call.isNone ∧ i ∈ th.held then some (s.goOn k (th.held.erase i) (.post i) (.take .load)) else none)
  | .next k, s =>
    s.threads[k]?.bind (fun th => th.call.bind (fun going => s.stepCall k th.held going.1 going.2))

abbrev run : List PoolStep → Pool → Option Pool := Schedule.run step

end Pool

section Writes
variable {m : Memory}

theorem writeAll_append (first later : List Write) (m : Memory) : m.writeAll (first ++ later) = (m.writeAll first).writeAll later :=
  List.foldl_append

theorem writeAll_cons (w : Write) (later : List Write) (m : Memory) : m.writeAll (w :: later) = (m.write w).writeAll later := rfl

theorem writeAll_data (first : Nat) (f : Nat → BucketIndex) (count : Nat) (m : Memory) :
    m.writeAll ((List.range count).map (fun b => .data (first + b) (f b))) =
      { m with data := fun n => if first ≤ n ∧ n < first + count then f (n - first) else m.data n } := by
  induction count with
  | zero =>
    have none : ∀ n, ¬(first ≤ n ∧ n < first + 0) := fun n => by omega
    simp only [if_neg (none _)]
    rfl
  | succ count ih =>
    rw [List.range_succ, List.map_append, writeAll_append, ih]
    simp only [Memory.writeAll, List.map_cons, List.map_nil, List.foldl_cons, List.foldl_nil, Memory.write, Memory.setData]
    congr 1
    funext n
    by_cases here : n = first + count
    · rw [here, Function.update_self, if_pos (by omega), Nat.add_sub_cancel_left]
    · rw [Function.update_of_ne here]
      by_cases before : first ≤ n ∧ n < first + count
      · rw [if_pos before, if_pos (by omega)]
      · rw [if_neg before, if_neg (by omega)]

/-- The nodes from the first one on, one after the other. -/
theorem writeAll_next (count : Nat) (m : Memory) :
    m.writeAll ((List.range count).flatMap (fun a => [.next a (some (a + 1)), .next (a + 1) none])) =
      { m with nextNode := fun n => if n < count then some (n + 1) else if n = count ∧ 0 < count then none else m.nextNode n } := by
  induction count with
  | zero => simp [Memory.writeAll]
  | succ count ih =>
    rw [List.range_succ, List.flatMap_append, writeAll_append, ih]
    simp only [Memory.writeAll, List.flatMap_cons, List.flatMap_nil, List.append_nil, List.foldl_cons, List.foldl_nil, Memory.write, Memory.setNext]
    congr 1
    funext n
    by_cases last : n = count + 1
    · rw [last, Function.update_self, if_neg (by omega), if_pos ⟨rfl, Nat.succ_pos count⟩]
    · rw [Function.update_of_ne last]
      by_cases here : n = count
      · rw [here, Function.update_self, if_pos (by omega)]
      · rw [Function.update_of_ne here]
        by_cases before : n < count
        · rw [if_pos before, if_pos (by omega)]
        · rw [if_neg before, if_neg (fun both => here both.1), if_neg (by omega), if_neg (fun both => last both.1)]

/-- `cleanRecords` only links the nodes. -/
theorem writeAll_cleanRecords (m : Memory) : ∃ next, m.writeAll cleanRecords = { m with nextNode := next } := by
  rw [cleanRecords, writeAll_next]
  exact ⟨_, rfl⟩

theorem cleanRecords_chain (m : Memory) : Chain (m.writeAll cleanRecords).nextNode (some 0) (List.range recordCount) := by
  have chain : Chain (m.writeAll cleanRecords).nextNode _ _ := Chain.range' 0 recordCount (fun n _ below => by
    rw [cleanRecords, writeAll_next]
    dsimp only
    by_cases before : n < recordCount - 1
    · rw [if_pos before, if_pos (by omega)]
    · have some : 0 < recordCount := by decide
      have more : 1 < recordCount := by decide
      rw [if_neg before, if_pos (by omega), if_neg (by omega)])
  rwa [if_pos (by decide), ← List.range_eq_range'] at chain

theorem recordWrites_spec (recId : Nat) (ids : List Nat) (m : Memory) :
    (m.writeAll (recordWrites recId ids)).head = m.head ∧ (∀ n < recId, (m.writeAll (recordWrites recId ids)).data n = m.data n) ∧
      (List.range' recId (chunksInBucket * ids.length)).map (m.writeAll (recordWrites recId ids)).data = ids.flatMap indexesOf ∧
      (∀ id, id ∈ (m.writeAll (recordWrites recId ids)).bucketsInUse ↔ id ∈ m.bucketsInUse ∨ id ∈ ids) ∧
      (0 < m.hint → 0 < (m.writeAll (recordWrites recId ids)).hint) := by
  induction ids generalizing recId m with
  | nil => exact ⟨rfl, fun _ _ => rfl, rfl, fun id => by simp [recordWrites, Memory.writeAll], fun positive => positive⟩
  | cons id ids ih =>
    let filled : Memory :=
      { m with
        bucketsInUse := insert id m.bucketsInUse
        hint := id + 1
        data := fun n => if recId ≤ n ∧ n < recId + chunksInBucket then make id (n - recId) else m.data n }
    have shape : m.writeAll (recordWrites recId (id :: ids)) = filled.writeAll (recordWrites (recId + chunksInBucket) ids) := by
      have first := writeAll_data recId (make id) chunksInBucket (m.write (.use id))
      calc m.writeAll (recordWrites recId (id :: ids))
        _ = (m.write (.use id)).writeAll ((List.range chunksInBucket).map (fun b => .data (recId + b) (make id b)) ++
            recordWrites (recId + chunksInBucket) ids) := by rw [recordWrites, List.cons_append, writeAll_cons]
        _ = ((m.write (.use id)).writeAll ((List.range chunksInBucket).map (fun b => .data (recId + b) (make id b)))).writeAll
            (recordWrites (recId + chunksInBucket) ids) := writeAll_append _ _ _
        _ = filled.writeAll (recordWrites (recId + chunksInBucket) ids) := by rw [first]; rfl
    rw [shape]
    obtain ⟨head, before, data, used, hint⟩ := ih (recId + chunksInBucket) filled
    refine ⟨head, fun n below => ?_, ?_, fun other => ?_, fun _ => hint (Nat.succ_pos id)⟩
    · rw [before n (by omega)]
      exact if_neg (by omega)
    · have here : (List.range' recId chunksInBucket).map (filled.writeAll (recordWrites (recId + chunksInBucket) ids)).data = indexesOf id := by
        rw [indexesOf, List.range'_eq_map_range, List.map_map]
        apply List.map_congr_left
        intro b inside
        have below := List.mem_range.mp inside
        change (filled.writeAll (recordWrites (recId + chunksInBucket) ids)).data (recId + b) = make id b
        rw [before (recId + b) (by omega)]
        exact (if_pos (by omega)).trans (by rw [Nat.add_sub_cancel_left])
      have more : chunksInBucket * (id :: ids).length = chunksInBucket + chunksInBucket * ids.length := by
        rw [List.length_cons, Nat.mul_succ, Nat.add_comm]
      rw [more, ← List.range'_append_1, List.map_append, here, data, List.flatMap_cons]
    · rw [used other, List.mem_cons]
      change other ∈ insert id m.bucketsInUse ∨ _ ↔ _
      rw [Finset.mem_insert]
      tauto

/-- What the memory is after `createBuckets`. -/
theorem createWrites_spec (buckets : List Nat) (all : buckets.length = maxBuckets) (m : Memory) :
    Chain (m.writeAll (createWrites buckets)).nextNode (some 0) (List.range recordCount) ∧
      (m.writeAll (createWrites buckets)).head .available = some 0 ∧ (m.writeAll (createWrites buckets)).head .free = none ∧
      (List.range recordCount).map (m.writeAll (createWrites buckets)).data = buckets.flatMap indexesOf ∧
      (∀ id, id ∈ (m.writeAll (createWrites buckets)).bucketsInUse ↔ id ∈ m.bucketsInUse ∨ id ∈ buckets) ∧
      (0 < m.hint → 0 < (m.writeAll (createWrites buckets)).hint) := by
  obtain ⟨head, _, data, used, hint⟩ := recordWrites_spec 0 buckets m
  have chain := cleanRecords_chain (m.writeAll (recordWrites 0 buckets))
  obtain ⟨next, linked⟩ := writeAll_cleanRecords (m.writeAll (recordWrites 0 buckets))
  have last : ∀ cleaned : Memory, cleaned.writeAll [.head .available (some 0), .head .free none] =
    (cleaned.setHead .available (some 0)).setHead .free none := fun _ => rfl
  obtain ⟨cleaned, here⟩ : ∃ cleaned, (m.writeAll (recordWrites 0 buckets)).writeAll cleanRecords = cleaned := ⟨_, rfl⟩
  rw [here] at chain linked
  rw [createWrites, writeAll_append, writeAll_append, last, here]
  have available : ((cleaned.setHead .available (some 0)).setHead .free none).head .available = some 0 := by
    rw [Memory.head_setHead_of_ne (by decide), Memory.head_setHead_self]
  have free : ((cleaned.setHead .available (some 0)).setHead .free none).head .free = none := Memory.head_setHead_self .free none _
  refine ⟨chain, available, free, ?_, ?_, ?_⟩
  · have same : cleaned.data = (m.writeAll (recordWrites 0 buckets)).data := by rw [linked]
    change (List.range recordCount).map cleaned.data = _
    rw [same, List.range_eq_range', recordCount, ← all]
    exact data
  · intro id
    change id ∈ cleaned.bucketsInUse ↔ _
    rw [linked]
    exact used id
  · intro positive
    change 0 < cleaned.hint
    rw [linked]
    exact hint positive

end Writes

/-- The nodes that a call has in hand. -/
def PoolStage.nodes : PoolStage → List Nat
  | .read node => [node]
  | .clear node => [node]
  | .write node => [node]
  | .insert node _ => [node]
  | .count _ => List.range recordCount
  | .sort _ node delList availList _ => delList ++ availList ++ List.range' node (recordCount - node)
  | .link _ delList availList _ => delList ++ availList
  | _ => []

/-- How often an index is in the nodes that a call has in hand, or in the buckets that it
makes or releases. -/
def PoolStage.indexCount (data : Nat → BucketIndex) (i : BucketIndex) : PoolStage → Nat
  | .read node => [data node].count i
  | .create buckets _ => if bucket i ∈ buckets then 1 else 0
  | .count _ => ((List.range recordCount).map data).count i
  | .sort toDelete node _ availList _ =>
    (availList.map data).count i + (((List.range' node (recordCount - node)).filter (fun n => bucket (data n) ∉ toDelete)).map data).count i +
      if bucket i ∈ toDelete then 1 else 0
  | .link toDelete _ availList _ => (availList.map data).count i + if bucket i ∈ toDelete then 1 else 0
  | .remove toDelete => if bucket i ∈ toDelete then 1 else 0
  | _ => 0

/-- Between `lock` and `unlock`. -/
def PoolStage.Locked : PoolStage → Prop
  | .take _ => False
  | .read _ => False
  | .clear _ => False
  | .write _ => False
  | .insert _ _ => False
  | .lock => False
  | _ => True

/-- What a call relies on at a stage. -/
def PoolStage.Ok (call : PoolCall) (m : Memory) : PoolStage → Prop
  | .clear _ => ∀ i, call ≠ .post i
  | .insert node next =>
    (∀ i, call = .post i → m.data node = i) ∧ ∀ expected, next = .exchange expected → m.nextNode node = expected
  | .count seen => seen.length ≤ recordCount ∧ seen = (List.range seen.length).map m.data
  | .sort toDelete node _ _ next =>
    match next with
    | .zero => node ≤ recordCount
    | .find => node < recordCount
    | .clear => node < recordCount ∧ bucket (m.data node) ∈ toDelete
  | .link _ delList availList next => ∀ expected node, next = .exchange expected → (delList ++ availList).head? = some node → m.nextNode node = expected
  | _ => True

namespace PoolThread

def nodes (th : PoolThread) : List Nat :=
  match th.call with
  | some (_, stage) => stage.nodes
  | none => []

/-- How often an index is in a call of the thread. -/
def flightCount (data : Nat → BucketIndex) (i : BucketIndex) (th : PoolThread) : Nat :=
  match th.call with
  | some (call, stage) => call.carried.count i + stage.indexCount data i
  | none => 0

def indexCount (data : Nat → BucketIndex) (i : BucketIndex) (th : PoolThread) : Nat := th.held.count i + th.flightCount data i

def Creating (th : PoolThread) : Prop :=
  match th.call with
  | some (_, .create _ _) => True
  | _ => False

def Locked (th : PoolThread) : Prop :=
  match th.call with
  | some (_, stage) => stage.Locked
  | none => False

def Ok (m : Memory) (th : PoolThread) : Prop :=
  match th.call with
  | some (call, stage) => stage.Ok call m
  | none => True

end PoolThread

namespace Pool

/-- No other call has a node in hand. -/
def Alone (k : Nat) (s : Pool) : Prop := ∀ j th, j ≠ k → s.threads[j]? = some th → th.nodes = []

/-- A node is taken only while its next node is still what was read, and while no buckets
are made. They are made when the list of available nodes is still empty and no other call
has a node in hand, and released when the list of free nodes is empty and no other call
has one. -/
def Ordered (s : Pool) : PoolStep → Prop
  | .next k => ∀ th, s.threads[k]? = some th →
    match th.call with
    | some (call, .take (.exchange expected newNode)) => s.memory.head call.source = some expected →
      s.memory.nextNode expected = newNode ∧ ∀ th ∈ s.threads, ¬th.Creating
    | some (call, .checkFilled) => call.source = .available → s.memory.head .free ≠ none → s.memory.head .available = none ∧ s.Alone k
    | some (_, .steal (some expected)) => s.memory.head .available = some expected → s.memory.head .free = none ∧ s.Alone k
    | _ => True
  | _ => True

abbrev OrderedRun : List PoolStep → Pool → Prop := Schedule.OrderedRun step Ordered

/-- The index is in a node of `availableList`. -/
def Available (s : Pool) (i : BucketIndex) : Prop :=
  ∃ l, Chain s.memory.nextNode (s.memory.head .available) l ∧ i ∈ l.map s.memory.data

/-- The index is in a call of some thread. -/
def InFlight (s : Pool) (i : BucketIndex) : Prop := ∃ th ∈ s.threads, 0 < th.flightCount s.memory.data i

/-- Every node and every index of a bucket in use is in one place, and nothing else is. -/
structure Normal (s : Pool) (L : ListName → List Nat) : Prop where
  chain : ∀ l, Chain s.memory.nextNode (s.memory.head l) (L l)
  nodes : ∀ n, (L .available).count n + (L .free).count n + (s.threads.map (fun th => th.nodes.count n)).sum =
    if n < recordCount then 1 else 0
  indexes : ∀ i, ((L .available).map s.memory.data).count i + (s.threads.map (fun th => th.indexCount s.memory.data i)).sum =
    if bucket i ∈ s.memory.bucketsInUse then 1 else 0
  ok : ∀ th ∈ s.threads, th.Ok s.memory
  hint : 0 < s.memory.hint
  positive : ∀ id ∈ s.memory.bucketsInUse, 0 < id
  idle : ∀ th ∈ s.threads, ¬th.Creating

/-- Who is between `lock` and `unlock` has the mutex. -/
def Locks (s : Pool) : Prop := ∀ k th, s.threads[k]? = some th → th.Locked → s.mutex = some k

end Pool

end CloudCryptFS.Filesystem
