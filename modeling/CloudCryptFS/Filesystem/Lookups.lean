import CloudCryptFS.Filesystem.Namespace
import CloudCryptFS.Util.Schedule

/-! Threads that look up the file of an inode or a bucket. What the map does not hold is
made and inserted in a later step, and no lock holds the steps together. -/

namespace CloudCryptFS.Filesystem
open Util Script

/-- A call of `inodeToFile` or `getBucket`. -/
inductive Lookup where
  | inodeToFile (i : BucketIndex) (filename : Path) (pPerm : List BucketIndex)
  | getBucket (id : Nat)
  deriving DecidableEq

namespace Lookup

/-- The index that a call looks up, in the map that the call is about. -/
def key : Lookup → BucketIndex ⊕ Nat
  | .inodeToFile i _ _ => .inl i
  | .getBucket id => .inr id

end Lookup

/-- The next step of a call; `reget` is the second `get` of `getBucket`. -/
inductive LookupStage where
  | get
  | load
  | insert
  | reget
  deriving DecidableEq

/-- The two maps. Objects are told apart by their addresses, which are given out in
order; `returned` lists what the calls have returned, where `none` is the error file. -/
structure Lookups where
  inodeFileCache : BucketIndex → Option (Nat × FileObject)
  loaded : Nat → Option Nat
  created : Nat
  threads : List (Option (Lookup × LookupStage))
  returned : List (Lookup × Option Nat)

inductive LookupStep where
  | call (thread : Nat) (lookup : Lookup)
  | next (thread : Nat)
  deriving DecidableEq

namespace Lookups

def atRest (threads : Nat) : Lookups := ⟨fun _ => none, fun _ => none, 0, List.replicate threads none, []⟩

/-- The address of what the map holds at an index. -/
def held (s : Lookups) : BucketIndex ⊕ Nat → Option Nat
  | .inl i => (s.inodeFileCache i).map Prod.fst
  | .inr id => s.loaded id

def become (k : Nat) (lookup : Lookup) (stage : LookupStage) (s : Lookups) : Lookups :=
  { s with threads := s.threads.set k (some (lookup, stage)) }

def give (k : Nat) (lookup : Lookup) (result : Option Nat) (s : Lookups) : Lookups :=
  { s with threads := s.threads.set k none, returned := (lookup, result) :: s.returned }

/-- A step of `inodeToFile`. `nodes` is the `myID` of each inode, and `none` for what is
no inode; loading index 0 fails an assertion. -/
def stepInodeToFile (nodes : BucketIndex → Option BucketIndex) (k : Nat) (i : BucketIndex) (filename : Path)
    (pPerm : List BucketIndex) (s : Lookups) : LookupStage → Option Lookups
  | .get =>
    match s.inodeFileCache i with
    | some fPtr => some (s.give k (.inodeToFile i filename pPerm) (some fPtr.1))
    | none => some (s.become k (.inodeToFile i filename pPerm) .load)
  | .load =>
    if i = 0 then none
    else if nodes i = some i then some (s.become k (.inodeToFile i filename pPerm) .insert)
    else some (s.give k (.inodeToFile i filename pPerm) none)
  | .insert =>
    some (give k (.inodeToFile i filename pPerm) (some s.created) { s with
      inodeFileCache := Function.update s.inodeFileCache i (some (s.created, ⟨pPerm, specialPath filename, 0⟩))
      created := s.created + 1 })
  | .reget => none

/-- A step of `getBucket`, which returns what the map holds after the insertion. -/
def stepGetBucket (k : Nat) (id : Nat) (s : Lookups) : LookupStage → Option Lookups
  | .get =>
    match s.loaded id with
    | some it => some (s.give k (.getBucket id) (some it))
    | none => some (s.become k (.getBucket id) .insert)
  | .insert =>
    some (become k (.getBucket id) .reget { s with
      loaded := Function.update s.loaded id (some s.created)
      created := s.created + 1 })
  | .reget => (s.loaded id).map (fun ret => s.give k (.getBucket id) (some ret))
  | .load => none

def stepLookup (nodes : BucketIndex → Option BucketIndex) (k : Nat) (s : Lookups) : Lookup → LookupStage → Option Lookups
  | .inodeToFile i filename pPerm => s.stepInodeToFile nodes k i filename pPerm
  | .getBucket id => s.stepGetBucket k id

def step (nodes : BucketIndex → Option BucketIndex) : LookupStep → Lookups → Option Lookups
  | .call k lookup, s => s.threads[k]?.bind (fun th => if th.isNone then some (s.become k lookup .get) else none)
  | .next k, s => s.threads[k]?.bind (fun th => th.bind (fun call => s.stepLookup nodes k call.1 call.2))

/-- Every call has returned what its map holds, and the error file where it holds nothing. -/
def Shared (s : Lookups) : Prop := ∀ result ∈ s.returned, result.2 = s.held result.1.key

/-- A call inserts its object before any call has returned one for the index. -/
def Ordered (s : Lookups) : LookupStep → Prop
  | .call _ _ => True
  | .next k => ∀ lookup, s.threads[k]? = some (some (lookup, .insert)) →
      ∀ result ∈ s.returned, result.1.key ≠ lookup.key

abbrev run (nodes : BucketIndex → Option BucketIndex) : List LookupStep → Lookups → Option Lookups := Schedule.run (step nodes)

abbrev OrderedRun (nodes : BucketIndex → Option BucketIndex) : List LookupStep → Lookups → Prop :=
  Schedule.OrderedRun (step nodes) Ordered

/-- Addresses are given out once, and only inodes have files. -/
structure Inv (nodes : BucketIndex → Option BucketIndex) (s : Lookups) : Prop where
  held : ∀ index o, s.held index = some o → o < s.created
  returned : ∀ result ∈ s.returned, ∀ o, result.2 = some o → o < s.created
  files : ∀ i, s.held (.inl i) ≠ none → nodes i = some i
  inserting : ∀ (k : Nat) i filename pPerm,
    s.threads[k]? = some (some (Lookup.inodeToFile i filename pPerm, LookupStage.insert)) → nodes i = some i

/-- A step that leaves the maps alone: it may return what the map of the call holds. -/
structure Quiet (s t : Lookups) : Prop where
  held : t.held = s.held
  created : t.created = s.created
  returned : t.returned = s.returned ∨ ∃ lookup, t.returned = (lookup, s.held lookup.key) :: s.returned

/-- A step that inserts the object of a call, and may return it. -/
structure Inserted (lookup : Lookup) (s t : Lookups) : Prop where
  held : t.held = Function.update s.held lookup.key (some s.created)
  created : t.created = s.created + 1
  returned : t.returned = s.returned ∨ t.returned = (lookup, some s.created) :: s.returned

variable {nodes : BucketIndex → Option BucketIndex} {s t : Lookups}

section Steps

@[simp]
theorem held_become (k : Nat) (lookup : Lookup) (stage : LookupStage) : (s.become k lookup stage).held = s.held := by
  funext index
  cases index <;> rfl

@[simp]
theorem held_give (k : Nat) (lookup : Lookup) (result : Option Nat) : (s.give k lookup result).held = s.held := by
  funext index
  cases index <;> rfl

theorem quiet_become (k : Nat) (lookup : Lookup) (stage : LookupStage) : Quiet s (s.become k lookup stage) :=
  ⟨held_become k lookup stage, rfl, Or.inl rfl⟩

theorem quiet_give (k : Nat) {lookup : Lookup} {result : Option Nat} (same : result = s.held lookup.key) :
    Quiet s (s.give k lookup result) :=
  ⟨held_give k lookup result, rfl, Or.inr ⟨lookup, by rw [← same]; rfl⟩⟩

/-- What a step does: the thread goes on, and comes to an insertion only with an inode. -/
def Goes (nodes : BucketIndex → Option BucketIndex) (k : Nat) (lookup : Lookup) (stage : LookupStage) (s t : Lookups) : Prop :=
  (∃ th, t.threads = s.threads.set k th ∧
    ∀ i filename pPerm, th = some (.inodeToFile i filename pPerm, .insert) → nodes i = some i) ∧
  (Quiet s t ∨ stage = .insert ∧ Inserted lookup s t)

theorem stepInodeToFile_goes {k : Nat} {i : BucketIndex} {filename : Path} {pPerm : List BucketIndex} {stage : LookupStage}
    (inv : Inv nodes s) (stepped : s.stepInodeToFile nodes k i filename pPerm stage = some t) :
    Goes nodes k (.inodeToFile i filename pPerm) stage s t := by
  cases stage with
  | get =>
    cases found : s.inodeFileCache i with
    | some fPtr =>
      simp only [stepInodeToFile, found, Option.some.injEq] at stepped
      subst stepped
      refine ⟨⟨none, rfl, by simp⟩, Or.inl (quiet_give k ?_)⟩
      simp [held, Lookup.key, found]
    | none =>
      simp only [stepInodeToFile, found, Option.some.injEq] at stepped
      subst stepped
      exact ⟨⟨_, rfl, by simp⟩, Or.inl (quiet_become k _ _)⟩
  | load =>
    by_cases zero : i = 0
    · simp only [stepInodeToFile, if_pos zero, reduceCtorEq] at stepped
    by_cases inode : nodes i = some i
    · simp only [stepInodeToFile, if_neg zero, if_pos inode, Option.some.injEq] at stepped
      subst stepped
      refine ⟨⟨_, rfl, fun j _ _ same => ?_⟩, Or.inl (quiet_become k _ _)⟩
      cases same
      exact inode
    · simp only [stepInodeToFile, if_neg zero, if_neg inode, Option.some.injEq] at stepped
      subst stepped
      refine ⟨⟨none, rfl, by simp⟩, Or.inl (quiet_give k ?_)⟩
      by_contra file
      exact inode (inv.files i (Ne.symm file))
  | insert =>
    simp only [stepInodeToFile, Option.some.injEq] at stepped
    subst stepped
    refine ⟨⟨none, rfl, by simp⟩, Or.inr ⟨rfl, ?_, rfl, Or.inr rfl⟩⟩
    rw [held_give]
    funext index
    cases index with
    | inl j => by_cases same : j = i <;> simp [held, Lookup.key, Function.update_apply, same]
    | inr id => simp [held, Lookup.key]
  | reget => cases stepped

theorem stepGetBucket_goes {k id : Nat} {stage : LookupStage} (stepped : s.stepGetBucket k id stage = some t) :
    Goes nodes k (.getBucket id) stage s t := by
  cases stage with
  | get =>
    cases found : s.loaded id with
    | some it =>
      simp only [stepGetBucket, found, Option.some.injEq] at stepped
      subst stepped
      exact ⟨⟨none, rfl, by simp⟩, Or.inl (quiet_give k found.symm)⟩
    | none =>
      simp only [stepGetBucket, found, Option.some.injEq] at stepped
      subst stepped
      exact ⟨⟨_, rfl, by simp⟩, Or.inl (quiet_become k _ _)⟩
  | insert =>
    simp only [stepGetBucket, Option.some.injEq] at stepped
    subst stepped
    refine ⟨⟨_, rfl, by simp⟩, Or.inr ⟨rfl, ?_, rfl, Or.inl rfl⟩⟩
    rw [held_become]
    funext index
    cases index <;> simp [held, Lookup.key, Function.update_apply]
  | reget =>
    obtain ⟨ret, found, rfl⟩ := Option.map_eq_some_iff.mp stepped
    exact ⟨⟨none, rfl, by simp⟩, Or.inl (quiet_give k found.symm)⟩
  | load => cases stepped

/-- A step leaves the maps alone, or inserts the object of the call that takes it. -/
theorem step_goes {next : LookupStep} (inv : Inv nodes s) (stepped : step nodes next s = some t) :
    (∃ k th, t.threads = s.threads.set k th ∧
      ∀ i filename pPerm, th = some (.inodeToFile i filename pPerm, .insert) → nodes i = some i) ∧
    (Quiet s t ∨ ∃ k lookup, next = .next k ∧ s.threads[k]? = some (some (lookup, .insert)) ∧ Inserted lookup s t) := by
  cases next with
  | call k lookup =>
    obtain ⟨th, _, made⟩ := Option.bind_eq_some_iff.mp stepped
    obtain ⟨_, made⟩ := Option.ite_none_right_eq_some.mp made
    cases made
    exact ⟨⟨k, _, rfl, by simp⟩, Or.inl (quiet_become k _ _)⟩
  | next k =>
    obtain ⟨th, found, rest⟩ := Option.bind_eq_some_iff.mp stepped
    obtain ⟨⟨lookup, stage⟩, rfl, made⟩ := Option.bind_eq_some_iff.mp rest
    have goes : Goes nodes k lookup stage s t := by
      cases lookup with
      | inodeToFile i filename pPerm => exact stepInodeToFile_goes inv made
      | getBucket id => exact stepGetBucket_goes made
    obtain ⟨⟨th', threads, inode⟩, quiet | ⟨rfl, inserted⟩⟩ := goes
    · exact ⟨⟨k, th', threads, inode⟩, Or.inl quiet⟩
    · exact ⟨⟨k, th', threads, inode⟩, Or.inr ⟨k, lookup, rfl, found, inserted⟩⟩

theorem Inv.step {next : LookupStep} (inv : Inv nodes s) (stepped : step nodes next s = some t) : Inv nodes t := by
  obtain ⟨⟨k, th, threads, inode⟩, change⟩ := step_goes inv stepped
  have inserting : ∀ (j : Nat) i filename pPerm,
      t.threads[j]? = some (some (Lookup.inodeToFile i filename pPerm, LookupStage.insert)) → nodes i = some i := by
    intro j i filename pPerm at_
    rw [threads, List.getElem?_set] at at_
    split_ifs at at_
    · exact inode i filename pPerm (Option.some.inj at_)
    · exact inv.inserting j i filename pPerm at_
  obtain quiet | ⟨j, lookup, _, found, inserted⟩ := change
  · refine ⟨fun index o => ?_, fun result member o same => ?_, fun i => ?_, inserting⟩
    · rw [quiet.held, quiet.created]
      exact inv.held index o
    · rw [quiet.created]
      obtain returned | ⟨lookup, returned⟩ := quiet.returned
      · exact inv.returned result (returned ▸ member) o same
      · obtain rfl | before := List.mem_cons.mp (returned ▸ member)
        · exact inv.held _ o same
        · exact inv.returned result before o same
    · rw [quiet.held]
      exact inv.files i
  · refine ⟨fun index o => ?_, fun result member o same => ?_, fun i => ?_, inserting⟩
    · rw [inserted.held, inserted.created, Function.update_apply]
      split_ifs
      · intro same
        cases same
        exact Nat.lt_succ_self _
      · exact fun same => Nat.lt_succ_of_lt (inv.held index o same)
    · rw [inserted.created]
      obtain returned | returned := inserted.returned
      · exact Nat.lt_succ_of_lt (inv.returned result (returned ▸ member) o same)
      · obtain rfl | before := List.mem_cons.mp (returned ▸ member)
        · cases same
          exact Nat.lt_succ_self _
        · exact Nat.lt_succ_of_lt (inv.returned result before o same)
    · rw [inserted.held, Function.update_apply]
      split_ifs with here
      · intro _
        cases lookup with
        | inodeToFile j filename pPerm =>
          cases here
          exact inv.inserting _ _ _ _ found
        | getBucket id => cases here
      · exact inv.files i

end Steps

section Sharing

theorem inv_atRest (threads : Nat) : Inv nodes (atRest threads) where
  held index o same := by cases index <;> cases same
  returned _ member := by cases member
  files i file := absurd rfl file
  inserting k i filename pPerm there := by
    rw [atRest, List.getElem?_replicate] at there
    split_ifs at there
    cases there

/-- An insertion in order leaves what was returned in the maps. -/
theorem shared_step {next : LookupStep} (inv : Inv nodes s) (shared : Shared s) (ordered : Ordered s next)
    (stepped : step nodes next s = some t) : Shared t := by
  obtain ⟨_, quiet | ⟨k, lookup, rfl, found, inserted⟩⟩ := step_goes inv stepped
  · intro result member
    rw [quiet.held]
    obtain returned | ⟨lookup, returned⟩ := quiet.returned
    · exact shared result (returned ▸ member)
    · obtain rfl | before := List.mem_cons.mp (returned ▸ member)
      · rfl
      · exact shared result before
  · have others : ∀ result ∈ s.returned, result.2 = t.held result.1.key := by
      intro result member
      rw [inserted.held, Function.update_of_ne (ordered lookup found result member)]
      exact shared result member
    intro result member
    obtain returned | returned := inserted.returned
    · exact others result (returned ▸ member)
    · obtain rfl | before := List.mem_cons.mp (returned ▸ member)
      · rw [inserted.held, Function.update_self]
      · exact others result before

/-- An insertion out of order gives the map another object than the one returned. -/
theorem ordered_of_shared {next : LookupStep} (inv : Inv nodes s)
    (after : ∀ t, step nodes next s = some t → Shared t) : Ordered s next := by
  cases next with
  | call k lookup => trivial
  | next k =>
    intro lookup found result member same
    obtain ⟨t, made, counted⟩ : ∃ t, step nodes (.next k) s = some t ∧ t.created = s.created + 1 := by
      cases lookup <;> exact ⟨_, by rw [step, found]; rfl, rfl⟩
    obtain ⟨_, quiet | ⟨_, lookup', next, found', inserted⟩⟩ := step_goes inv made
    · have unchanged := quiet.created
      omega
    · cases next
      cases found.symm.trans found'
      have kept : result ∈ t.returned := by
        obtain returned | returned := inserted.returned
        · exact returned ▸ member
        · exact returned ▸ List.mem_cons_of_mem _ member
      have new : result.2 = some s.created := by
        rw [after t made result kept, inserted.held, same, Function.update_self]
      exact absurd (inv.returned result member s.created new) (Nat.lt_irrefl _)

/-- All calls for an index get the object that its map holds, as long as each insertion
comes before anything has been returned for the index; and not beyond that. -/
theorem shared_iff (nodes : BucketIndex → Option BucketIndex) (threads : Nat) (steps : List LookupStep) :
    (∀ first later, steps = first ++ later → ∀ t, run nodes first (atRest threads) = some t → Shared t) ↔
      OrderedRun nodes steps (atRest threads) :=
  Schedule.always_iff (fun inv made => inv.step made) (fun inv shared now made => shared_step inv shared now made)
    (fun inv _ after => ordered_of_shared inv after) (inv_atRest threads) (fun _ member => absurd member List.not_mem_nil)

/-- Two threads that both find nothing for an inode, and then for a bucket. -/
theorem lookups_race :
    ∃ t, run some [.call 0 (.inodeToFile 5 [] []), .call 1 (.inodeToFile 5 [] []), .next 0, .next 1, .next 0, .next 1,
        .next 0, .next 1, .call 0 (.getBucket 7), .call 1 (.getBucket 7), .next 0, .next 1, .next 0, .next 0, .next 1,
        .next 1] (atRest 2) = some t ∧
      t.returned = [(.getBucket 7, some 3), (.getBucket 7, some 2), (.inodeToFile 5 [] [], some 1),
        (.inodeToFile 5 [] [], some 0)] ∧
      t.held (.inl 5) = some 1 ∧ t.held (.inr 7) = some 3 ∧ ¬Shared t := by
  refine ⟨_, rfl, rfl, rfl, rfl, fun shared => ?_⟩
  exact absurd (shared (.getBucket 7, some 2) (by decide)) (by decide)

end Sharing

end Lookups

end CloudCryptFS.Filesystem
