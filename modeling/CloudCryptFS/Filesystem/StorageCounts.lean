import CloudCryptFS.Filesystem.StorageRep

/-! The references to hash objects. What each operation on hashes does to the objects, apart
from the chunks that they cache, and that the count of a live object is the number of its
references. -/

namespace CloudCryptFS.Filesystem
open Util Script.Lexer BucketIndex

namespace Storage
variable {sha : Chunk → Sha256} {s t u : Storage} {o : Nat}

/-- A hash object without the chunk that it caches. -/
def bare (s : Storage) (o : Nat) : Hash := { s.objects o with data := none }

/-- Only buckets and cached chunks differ. -/
structure Still (s t : Storage) : Prop where
  created : t.created = s.created
  hashesIndex : t.hashesIndex = s.hashesIndex
  accounting : t.accounting = s.accounting
  bare : ∀ o, t.bare o = s.bare o

namespace Still

theorem refl (s : Storage) : Still s s := ⟨rfl, rfl, rfl, fun _ => rfl⟩

theorem trans (first : Still s t) (second : Still t u) : Still s u :=
  ⟨second.created.trans first.created, second.hashesIndex.trans first.hashesIndex, second.accounting.trans first.accounting,
    fun o => (second.bare o).trans (first.bare o)⟩

instance : IsPreorder Storage Still where
  refl := refl
  trans _ _ _ := trans

theorem of_sameOn {P : BucketIndex → Prop} (same : SameOn P s t) : Still s t := by
  refine ⟨same.created, same.hashesIndex, same.accounting, fun o => ?_⟩
  unfold Storage.bare
  rw [same.objects]

variable (still : Still s t) (o : Nat)
include still

theorem sum : (t.objects o).sum = (s.objects o).sum := (congrArg Hash.sum (still.bare o) :)
theorem bucketIndex : (t.objects o).bucketIndex = (s.objects o).bucketIndex := (congrArg Hash.bucketIndex (still.bare o) :)
theorem refcnt : (t.objects o).refcnt = (s.objects o).refcnt := (congrArg Hash.refcnt (still.bare o) :)
theorem deleted : (t.objects o).deleted = (s.objects o).deleted := (congrArg Hash.deleted (still.bare o) :)
theorem fixed : (t.objects o).fixed = (s.objects o).fixed := (congrArg Hash.fixed (still.bare o) :)

theorem live : t.Live o ↔ s.Live o := by
  unfold Live
  rw [still.deleted o]

end Still

theorem bare_setObject_self (o : Nat) (h : Hash) (s : Storage) : (s.setObject o h).bare o = { h with data := none } := by
  unfold bare
  rw [objects_setObject_self]

theorem bare_setObject_of_ne {o' : Nat} (different : o' ≠ o) (h : Hash) (s : Storage) : (s.setObject o h).bare o' = s.bare o' := by
  unfold bare
  rw [objects_setObject_of_ne different]

theorem still_setObject (s : Storage) (o : Nat) (d : Option Chunk) : Still s (s.setObject o { s.objects o with data := d }) := by
  refine ⟨rfl, rfl, rfl, fun o' => ?_⟩
  by_cases same : o' = o
  · rw [same, bare_setObject_self]
    rfl
  · rw [bare_setObject_of_ne same]

theorem clearData_still (o : Nat) : Run.Within Still (clearData o) := by
  apply Run.Within.modify
  intro s
  split
  · exact Still.refl s
  · exact still_setObject s o none

theorem addChange_still (je : Bool) (hashes : List Nat) : Run.Within Still (addChange je hashes) :=
  fun _ _ _ ran => Still.of_sameOn (addChange_spec ran)

theorem data_still (o : Nat) : Run.Within Still (data o) := by
  intro s c t ran
  obtain ⟨_, _, got, rest⟩ := Run.bind_eq_some.mp ran
  cases got
  cases there : (s.objects o).data with
  | some c' =>
    simp only [there] at rest
    cases rest
    exact Still.refl s
  | none =>
    simp only [there] at rest
    split at rest
    · cases rest
    · obtain ⟨c', mid, got, rest⟩ := Run.bind_eq_some.mp rest
      obtain ⟨_, _, changed, rest⟩ := Run.bind_eq_some.mp rest
      cases changed
      cases rest
      obtain ⟨same, _⟩ := getChunk_spec got
      refine (Still.of_sameOn same).trans ?_
      rw [← same.objects]
      exact still_setObject mid o _

theorem readHash_still (o offset size : Nat) : Run.Within Still (readHash o offset size) := by
  refine Run.Within.bind (data_still o) (fun d => ?_)
  split
  · exact Run.Within.pure _
  · exact Run.Within.abort

theorem incRefCnt_still {n : Nat} (ran : incRefCnt o n s = some ((), t)) : Still (s.recount o n) t := by
  obtain ⟨_, _, changed, rest⟩ := Run.bind_eq_some.mp ran
  cases changed
  obtain ⟨_, _, got, rest⟩ := Run.bind_eq_some.mp rest
  cases got
  split at rest
  · obtain ⟨_, mid, holds, rest⟩ := Run.bind_eq_some.mp rest
    obtain ⟨_, rfl⟩ := Run.assert_eq_some.mp holds
    exact Still.of_sameOn (hashChanged_spec rest)
  · cases rest
    exact Still.refl _

/-- The state in which a hash object is gone. -/
def dropped (s : Storage) (o : Nat) (a : Accounting) : Storage :=
  { s.setObject o { s.objects o with refcnt := 0, deleted := true } with
    hashesIndex := Function.update s.hashesIndex (s.objects o).sum none
    accounting := a }

theorem deleteHash_still {h : Hash} (ran : deleteHash o h s = some ((), t)) : ∃ a, s.accounting.post h.bucketIndex = some a ∧
    Still { s.setObject o { h with deleted := true } with hashesIndex := Function.update s.hashesIndex h.sum none, accounting := a } t := by
  obtain ⟨_, s₁, marked, rest⟩ := Run.bind_eq_some.mp ran
  cases marked
  obtain ⟨_, _, got, rest⟩ := Run.bind_eq_some.mp rest
  cases got
  obtain ⟨_, _, found, rest⟩ := Run.bind_eq_some.mp rest
  obtain ⟨there, rfl⟩ := Run.assert_eq_some.mp found
  obtain ⟨_, _, erased, rest⟩ := Run.bind_eq_some.mp rest
  cases erased
  obtain ⟨_, s₃, cleared, rest⟩ := Run.bind_eq_some.mp rest
  obtain ⟨_, s₄, posted, rest⟩ := Run.bind_eq_some.mp rest
  obtain ⟨same, _⟩ := putHashAndChunk_spec cleared
  obtain ⟨accounting, objects, created, hashesIndex, _⟩ := post_spec posted
  rw [same.accounting] at accounting
  refine ⟨s₄.accounting, accounting, Still.trans (t := s₄) ⟨?_, ?_, rfl, fun o' => ?_⟩ (clearData_still o _ _ _ rest)⟩
  · exact created.trans same.created
  · exact hashesIndex.trans same.hashesIndex
  · unfold bare
    rw [objects, same.objects]

/-- One reference less, or none left: then the hash object is deleted. -/
theorem decRefCnt_still (ran : decRefCnt o s = some ((), t)) :
    (Still (s.recount o (-1)) t ∧ ((s.objects o).fixed = false → s.Live o → (s.objects o).refcnt ≠ 1)) ∨
      ((s.objects o).fixed = false ∧ s.Live o ∧ (s.objects o).refcnt = 1 ∧
        ∃ a, s.accounting.post (s.objects o).bucketIndex = some a ∧ Still (s.dropped o a) t) := by
  obtain ⟨_, _, changed, rest⟩ := Run.bind_eq_some.mp ran
  cases changed
  obtain ⟨_, _, got, rest⟩ := Run.bind_eq_some.mp rest
  cases got
  have own : (s.recount o (-1)).objects o = { s.objects o with refcnt := (s.objects o).refcnt + -1 } := objects_setObject_self o _ s
  split at rest
  · rename_i flags
    obtain ⟨_, mid, deleted, rest⟩ := Run.bind_eq_some.mp rest
    have last := Still.of_sameOn (hashChanged_spec rest)
    rw [own] at flags deleted
    unfold deleteUnused at deleted
    split at deleted
    · rename_i unused
      have one : (s.objects o).refcnt = 1 := by
        dsimp only at unused
        omega
      right
      obtain ⟨a, posted, still⟩ := deleteHash_still deleted
      refine ⟨flags.1, flags.2, one, a, posted, Still.trans ?_ (still.trans last)⟩
      refine ⟨rfl, rfl, rfl, fun o' => ?_⟩
      by_cases same : o' = o
      · subst same
        unfold bare dropped
        simp only [objects_setObject_self, one]
        rfl
      · unfold bare dropped recount
        simp only [objects_setObject_of_ne same]
    · rename_i used
      cases deleted
      refine Or.inl ⟨last, fun _ _ one => used ?_⟩
      dsimp only
      omega
  · rename_i flags
    cases rest
    rw [own] at flags
    exact Or.inl ⟨Still.refl _, fun loose live _ => flags ⟨loose, live⟩⟩

/-- The state in which there is one more hash object, to which nothing refers. -/
def made (s : Storage) (sum : Sha256) (i : BucketIndex) (a : Accounting) : Storage :=
  { s.setObject s.created ⟨sum, i, 0, none, false, false⟩ with
    created := s.created + 1
    hashesIndex := Function.update s.hashesIndex sum (some s.created)
    accounting := a }

theorem newHash_still {sum : Sha256} {c : Chunk} (ran : newHash sum c s = some (o, t)) :
    (s.hashesIndex sum = some o ∧ Still s t) ∨
      (s.hashesIndex sum = none ∧ o = s.created ∧ ∃ i a, s.accounting.fetch = some (i, a) ∧ Still (s.made sum i a) t) := by
  obtain ⟨_, _, got, rest⟩ := Run.bind_eq_some.mp ran
  cases got
  cases there : s.hashesIndex sum with
  | some o' =>
    simp only [there] at rest
    obtain ⟨d, mid, loaded, rest⟩ := Run.bind_eq_some.mp rest
    cases rest
    exact Or.inl ⟨rfl, data_still o _ _ _ loaded⟩
  | none =>
    simp only [there] at rest
    obtain ⟨i, mid, fetched, rest⟩ := Run.bind_eq_some.mp rest
    obtain ⟨⟨j, a⟩, found, shape⟩ := Option.map_eq_some_iff.mp fetched
    cases shape
    obtain ⟨_, _, got, rest⟩ := Run.bind_eq_some.mp rest
    cases got
    obtain ⟨_, _, new, rest⟩ := Run.bind_eq_some.mp rest
    cases new
    obtain ⟨_, last, put, rest⟩ := Run.bind_eq_some.mp rest
    obtain ⟨_, _, inserted, rest⟩ := Run.bind_eq_some.mp rest
    cases inserted
    cases rest
    obtain ⟨same, _⟩ := putHashAndChunk_spec put
    refine Or.inr ⟨rfl, rfl, j, a, found, ?_, ?_, same.accounting, fun o' => ?_⟩
    · exact same.created
    · exact congrArg (fun f => Function.update f sum (some s.created)) same.hashesIndex
    · unfold bare
      simp only [same.objects, made]
      by_cases new : o' = s.created
      · rw [new, objects_setObject_self, objects_setObject_self]
      · rw [objects_setObject_of_ne new, objects_setObject_of_ne new]

/-- The count of a live hash object is the number of references to it, of which there are these. -/
structure Counted (sha : Chunk → Sha256) (held : List Nat) (s : Storage) : Prop where
  rep : s.Rep sha
  live : ∀ o ∈ held, s.Live o
  refcnt : ∀ o, s.Live o → (s.objects o).fixed = false → (s.objects o).refcnt = held.count o

namespace Counted
variable {held : List Nat} (counted : s.Counted sha held)
include counted

theorem congr {l : List Nat} (same : ∀ o, l.count o = held.count o) : s.Counted sha l := by
  refine ⟨counted.rep, fun o member => counted.live o ?_, fun o live loose => ?_⟩
  · rw [← List.count_pos_iff, ← same o]
    exact List.count_pos_iff.mpr member
  · rw [same o]
    exact counted.refcnt o live loose

theorem of_still (still : Still s t) (advance : Advance sha s t) : t.Counted sha held := by
  refine ⟨advance.rep counted.rep, fun o member => (still.live o).mpr (counted.live o member), fun o live loose => ?_⟩
  rw [still.refcnt o]
  exact counted.refcnt o ((still.live o).mp live) ((still.fixed o).symm.trans loose)

/-- What is referred to before and after keeps its chunk. -/
theorem content (advance : Advance sha s t) (member : o ∈ held) (live : t.Live o) : t.content o = s.content o :=
  (advance.content counted.rep o (counted.rep.made o (counted.live o member)) live).2

end Counted

theorem refcnt_recount_self (s : Storage) (o : Nat) (n : Int) : ((s.recount o n).objects o).refcnt = (s.objects o).refcnt + n := by
  unfold recount
  rw [objects_setObject_self]

theorem refcnt_recount_of_ne {o' : Nat} (different : o' ≠ o) (n : Int) : ((s.recount o n).objects o').refcnt = (s.objects o').refcnt := by
  unfold recount
  rw [objects_setObject_of_ne different]

theorem deleted_recount (s : Storage) (o o' : Nat) (n : Int) : ((s.recount o n).objects o').deleted = (s.objects o').deleted := by
  unfold recount
  by_cases same : o' = o
  · rw [same, objects_setObject_self]
  · rw [objects_setObject_of_ne same]

theorem fixed_recount (s : Storage) (o o' : Nat) (n : Int) : ((s.recount o n).objects o').fixed = (s.objects o').fixed := by
  unfold recount
  by_cases same : o' = o
  · rw [same, objects_setObject_self]
  · rw [objects_setObject_of_ne same]

theorem live_recount (s : Storage) (o o' : Nat) (n : Int) : (s.recount o n).Live o' ↔ s.Live o' := by
  unfold Live
  rw [deleted_recount]

theorem incRefCnt_counted {held : List Nat} {n : Nat} (counted : s.Counted sha held) (live : s.Live o) (ran : incRefCnt o n s = some ((), t)) :
    t.Counted sha (List.replicate n o ++ held) := by
  have still := incRefCnt_still ran
  have alive : ∀ o', t.Live o' ↔ s.Live o' := fun o' => (still.live o').trans (live_recount s o o' n)
  refine ⟨(incRefCnt_within o n _ _ _ ran).rep counted.rep, fun o' member => (alive o').mpr ?_, fun o' there loose => ?_⟩
  · rcases List.mem_append.mp member with new | old
    · rw [List.eq_of_mem_replicate new]
      exact live
    · exact counted.live o' old
  · rw [still.fixed, fixed_recount] at loose
    have before := counted.refcnt o' ((alive o').mp there) loose
    rw [still.refcnt, List.count_append, List.count_replicate]
    by_cases same : o' = o
    · subst same
      rw [refcnt_recount_self, before, if_pos (by simp)]
      omega
    · rw [refcnt_recount_of_ne same, before, if_neg (by simpa using Ne.symm same), Nat.zero_add]

theorem decRefCnt_counted {held : List Nat} (counted : s.Counted sha (o :: held)) (ran : decRefCnt o s = some ((), t)) :
    t.Counted sha held := by
  have rep := (decRefCnt_within o _ _ _ ran).rep counted.rep
  rcases decRefCnt_still ran with ⟨still, _⟩ | ⟨loose, alive, one, a, _, still⟩
  · have live : ∀ o', t.Live o' ↔ s.Live o' := fun o' => (still.live o').trans (live_recount s o o' (-1))
    refine ⟨rep, fun o' member => (live o').mpr (counted.live o' (List.mem_cons_of_mem o member)), fun o' there loose => ?_⟩
    rw [still.fixed, fixed_recount] at loose
    have before := counted.refcnt o' ((live o').mp there) loose
    rw [still.refcnt]
    by_cases same : o' = o
    · subst same
      rw [List.count_cons_self] at before
      rw [refcnt_recount_self, before]
      omega
    · rw [List.count_cons_of_ne (Ne.symm same)] at before
      rw [refcnt_recount_of_ne same, before]
  · have last : held.count o = 0 := by
      have before := counted.refcnt o alive loose
      rw [one, List.count_cons_self] at before
      omega
    have other : ∀ {o'}, o' ≠ o → t.bare o' = s.bare o' := fun {o'} different => (still.bare o').trans (bare_setObject_of_ne different _ s)
    have gone : (t.bare o).deleted = true := by
      rw [still.bare o]
      unfold dropped bare
      dsimp only
      rw [objects_setObject_self]
    refine ⟨rep, fun o' member => ?_, fun o' there loose => ?_⟩
    · have different : o' ≠ o := by
        rintro rfl
        exact List.count_eq_zero.mp last member
      exact (congrArg Hash.deleted (other different) :).trans (counted.live o' (List.mem_cons_of_mem o member))
    · have different : o' ≠ o := by
        rintro rfl
        cases gone.symm.trans there
      have flags := other different
      have before := counted.refcnt o' ((congrArg Hash.deleted flags :).symm.trans there) ((congrArg Hash.fixed flags :).symm.trans loose)
      rw [List.count_cons_of_ne (Ne.symm different)] at before
      exact (congrArg Hash.refcnt flags :).trans before

theorem newHash_counted {held : List Nat} {c : Chunk} (counted : s.Counted sha held) (ran : newHash (sha c) c s = some (o, t)) :
    t.Counted sha held := by
  obtain ⟨advance, _⟩ := newHash_spec ran
  rcases newHash_still ran with ⟨_, still⟩ | ⟨_, rfl, i, a, _, still⟩
  · exact counted.of_still still advance
  · have other : ∀ {o'}, o' ≠ s.created → t.bare o' = s.bare o' := fun {o'} different => (still.bare o').trans (bare_setObject_of_ne different _ s)
    have own : t.bare s.created = ⟨sha c, i, 0, none, false, false⟩ := by
      rw [still.bare]
      unfold made bare
      dsimp only
      rw [objects_setObject_self]
    have older : ∀ o' ∈ held, o' ≠ s.created := fun o' member => (counted.rep.made o' (counted.live o' member)).ne
    refine ⟨advance.rep counted.rep, fun o' member => ?_, fun o' there loose => ?_⟩
    · exact (congrArg Hash.deleted (other (older o' member)) :).trans (counted.live o' member)
    · by_cases new : o' = s.created
      · subst new
        have none : held.count s.created = 0 := List.count_eq_zero.mpr (fun member => older _ member rfl)
        rw [none]
        exact (congrArg Hash.refcnt own :)
      · have flags := other new
        exact (congrArg Hash.refcnt flags :).trans
          (counted.refcnt o' ((congrArg Hash.deleted flags :).symm.trans there) ((congrArg Hash.fixed flags :).symm.trans loose))

theorem writeHash_counted {held : List Nat} {offset : Nat} {input : Str} {r : Option Nat} (counted : s.Counted sha held)
    (ran : writeHash sha o offset input s = some (r, t)) : t.Counted sha held ∧ ∀ n, r = some n → t.Live n := by
  obtain ⟨c, mid, loaded, rest⟩ := Run.bind_eq_some.mp ran
  have before := counted.of_still (data_still o _ _ _ loaded) (data_spec loaded).1
  cases written : c.write offset input with
  | none =>
    simp only [written] at rest
    cases rest
  | some new =>
    simp only [written] at rest
    obtain ⟨_, _, got, rest⟩ := Run.bind_eq_some.mp rest
    cases got
    split at rest
    · cases rest
      exact ⟨before, fun n same => by cases same⟩
    · obtain ⟨n, last, made, rest⟩ := Run.bind_eq_some.mp rest
      cases rest
      refine ⟨newHash_counted before made, fun m same => ?_⟩
      cases same
      exact ((newHash_spec made).2 before.rep).1

/-- The references to the zero hash make no difference. -/
theorem Counted.congr_of_ne {held l : List Nat} (counted : s.Counted sha held) (same : ∀ o, o ≠ zeroHash → l.count o = held.count o) :
    s.Counted sha l := by
  refine ⟨counted.rep, fun o member => ?_, fun o live loose => ?_⟩
  · by_cases zero : o = zeroHash
    · rw [zero]
      exact counted.rep.zero.1
    · apply counted.live o
      rw [← List.count_pos_iff, ← same o zero]
      exact List.count_pos_iff.mpr member
  · have different : o ≠ zeroHash := by
      rintro rfl
      cases counted.rep.zero.2.1.symm.trans loose
    rw [same o different]
    exact counted.refcnt o live loose

theorem decRefCnt_created (ran : decRefCnt o s = some ((), t)) : t.created = s.created := by
  rcases decRefCnt_still ran with ⟨still, _⟩ | ⟨_, _, _, a, _, still⟩
  · exact still.created
  · exact still.created

/-- A reference is only taken to a hash object that is live. -/
theorem incRefCnt_live {n : Nat} (rep : s.Rep sha) (ran : incRefCnt o n s = some ((), t)) : s.Live o := by
  obtain ⟨_, _, changed, rest⟩ := Run.bind_eq_some.mp ran
  cases changed
  obtain ⟨_, _, got, rest⟩ := Run.bind_eq_some.mp rest
  cases got
  split at rest
  · obtain ⟨_, _, asserted, _⟩ := Run.bind_eq_some.mp rest
    have alive := (Run.assert_eq_some.mp asserted).1
    rw [deleted_recount] at alive
    exact alive
  · rename_i fixed
    rw [fixed_recount, Bool.not_eq_false] at fixed
    rw [rep.fixed o fixed]
    exact rep.zero.1

section Zero

theorem incRefCnt_zero {n : Nat} (ran : incRefCnt o n s = some ((), t)) :
    (t.objects zeroHash).refcnt = (s.objects zeroHash).refcnt + ((List.replicate n o).count zeroHash : Nat) := by
  rw [(incRefCnt_still ran).refcnt, List.count_replicate]
  by_cases same : o = zeroHash
  · rw [same, refcnt_recount_self, if_pos (by simp)]
  · rw [refcnt_recount_of_ne (Ne.symm same), if_neg (by simpa using same), Nat.cast_zero, Int.add_zero]

theorem decRefCnt_zero (rep : s.Rep sha) (ran : decRefCnt o s = some ((), t)) :
    (t.objects zeroHash).refcnt + ([o].count zeroHash : Nat) = (s.objects zeroHash).refcnt := by
  rw [List.count_singleton]
  rcases decRefCnt_still ran with ⟨still, _⟩ | ⟨loose, _, _, a, _, still⟩
  · rw [still.refcnt]
    by_cases same : o = zeroHash
    · rw [same, refcnt_recount_self, if_pos (by simp)]
      omega
    · rw [refcnt_recount_of_ne (Ne.symm same), if_neg (by simpa using same), Nat.cast_zero, Int.add_zero]
  · have different : zeroHash ≠ o := by
      rintro rfl
      cases rep.zero.2.1.symm.trans loose
    have kept := (still.bare zeroHash).trans (bare_setObject_of_ne different _ s)
    rw [if_neg (by simpa using different.symm), Nat.cast_zero, Int.add_zero]
    exact (congrArg Hash.refcnt kept :)

theorem writeHash_zero {offset : Nat} {input : Str} {r : Option Nat} (rep : s.Rep sha) (ran : writeHash sha o offset input s = some (r, t)) :
    (t.objects zeroHash).refcnt = (s.objects zeroHash).refcnt := by
  obtain ⟨c, mid, loaded, rest⟩ := Run.bind_eq_some.mp ran
  have before := (data_still o _ _ _ loaded).refcnt zeroHash
  have zero := ((data_within o _ _ _ loaded).rep rep).zero.1
  have made := ((data_within o _ _ _ loaded).rep rep).made zeroHash zero
  cases written : c.write offset input with
  | none =>
    simp only [written] at rest
    cases rest
  | some new =>
    simp only [written] at rest
    obtain ⟨_, _, got, rest⟩ := Run.bind_eq_some.mp rest
    cases got
    split at rest
    · cases rest
      exact before
    · obtain ⟨n, last, found, rest⟩ := Run.bind_eq_some.mp rest
      cases rest
      rcases newHash_still found with ⟨_, still⟩ | ⟨_, _, i, a, _, still⟩
      · exact (still.refcnt zeroHash).trans before
      · have kept := (still.bare zeroHash).trans (bare_setObject_of_ne made.ne _ mid)
        exact (congrArg Hash.refcnt kept :).trans before

end Zero

end Storage

end CloudCryptFS.Filesystem
