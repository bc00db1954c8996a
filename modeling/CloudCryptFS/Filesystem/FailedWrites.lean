import CloudCryptFS.Filesystem.Throwing

/-! What a write that throws leaves behind. It leaves everything as it was just when it did not
grow the file, and threw before it replaced a hash. -/

namespace CloudCryptFS.Filesystem
open Util Script.Lexer BucketIndex

namespace Throwing
open Storage
variable {sha : Chunk → Sha256} {unreadable : Nat → Bool} {s t u : Storage} {o : Nat}

/-- The number of references to a hash; one that has not been made has none. -/
def references (s : Storage) (o : Nat) : Int := if o < s.created then (s.objects o).refcnt else 0

theorem references_still (still : Still s t) (o : Nat) : references t o = references s o := by
  unfold references
  rw [still.created, still.refcnt]

section Loading
variable (unreadable)

/-- The chunks of a bucket are not in memory and cannot be read. -/
def Unloadable (s : Storage) (id : Nat) : Prop := unreadable id = true ∧ (s.loaded id).bind DataBucket.chunks = none

/-- Asking for the chunk of a hash object throws. -/
def Lost (s : Storage) (o : Nat) : Prop := (s.objects o).data = none ∧ Unloadable unreadable s (bucket (s.objects o).bucketIndex)

/-- Asking for a hash with a sum throws: comparing with the one that has it, or putting a new one in its slot. -/
def Blocked (s : Storage) (sum : Sha256) : Prop :=
  match s.hashesIndex sum with
  | some o => Lost unreadable s o
  | none => ∃ i a, s.accounting.fetch = some (i, a) ∧ Unloadable unreadable s (bucket i)

/-- Nothing but chunks of buckets that can be read came into memory. -/
structure Loaded (s t : Storage) : Prop where
  still : Still s t
  unloadable : ∀ id, Unloadable unreadable t id ↔ Unloadable unreadable s id
  lost : ∀ o, Lost unreadable t o ↔ Lost unreadable s o

end Loading

theorem Loaded.blocked (loaded : Loaded unreadable s t) (sum : Sha256) : Blocked unreadable t sum ↔ Blocked unreadable s sum := by
  unfold Blocked
  rw [loaded.still.hashesIndex, loaded.still.accounting]
  split
  · exact loaded.lost _
  · simp only [loaded.unloadable]

theorem unloadable_congr {id : Nat} (same : (t.loaded id).bind DataBucket.chunks = (s.loaded id).bind DataBucket.chunks) :
    Unloadable unreadable t id ↔ Unloadable unreadable s id := by
  unfold Unloadable
  rw [same]

theorem chunks_getBucket {id : Nat} {b : DataBucket} (ran : getBucket id s = some (b, t)) (j : Nat) :
    (t.loaded j).bind DataBucket.chunks = (s.loaded j).bind DataBucket.chunks := by
  unfold getBucket at ran
  split at ran
  · cases ran
    rfl
  · rename_i absent
    cases ran
    by_cases same : j = id
    · rw [same, loaded_setBucket_self, absent]
      rfl
    · rw [loaded_setBucket_of_ne same]

theorem bucket_getBucket {id : Nat} {b : DataBucket} (ran : getBucket id s = some (b, t)) : b.chunks = (s.loaded id).bind DataBucket.chunks := by
  rw [← chunks_getBucket ran id, (getBucket_spec ran).2]
  rfl

theorem chunks_loadHashes {id : Nat} {H : SlotIndex → HashSlot} (ran : Storage.loadHashes id s = some (H, t)) (j : Nat) :
    (t.loaded j).bind DataBucket.chunks = (s.loaded j).bind DataBucket.chunks := by
  obtain ⟨b, mid, got, rest⟩ := Run.bind_eq_some.mp ran
  rw [← chunks_getBucket got j]
  cases hashes : b.hashes with
  | some H' =>
    simp only [hashes] at rest
    cases rest
    rfl
  | none =>
    simp only [hashes] at rest
    cases rest
    by_cases same : j = id
    · rw [same, loaded_setBucket_self, (getBucket_spec got).2]
      rfl
    · rw [loaded_setBucket_of_ne same]

theorem chunks_loadChunks {id : Nat} {C : SlotIndex → Chunk} (ran : Storage.loadChunks id s = some (C, t)) {j : Nat} (other : j ≠ id) :
    (t.loaded j).bind DataBucket.chunks = (s.loaded j).bind DataBucket.chunks := by
  obtain ⟨b, mid, got, rest⟩ := Run.bind_eq_some.mp ran
  rw [← chunks_getBucket got j]
  cases chunks : b.chunks with
  | some C' =>
    simp only [chunks] at rest
    cases rest
    rfl
  | none =>
    simp only [chunks] at rest
    cases rest
    rw [loaded_setBucket_of_ne other]

/-- Loading throws for just these buckets. -/
theorem loadChunks_cases {id : Nat} {r : Option (SlotIndex → Chunk)} (ran : (loadChunks unreadable id).run s = some (r, t)) :
    (r = none ∧ Unloadable unreadable s id ∧ Still s t) ∨
      (r ≠ none ∧ ¬Unloadable unreadable s id ∧ Still s t ∧ ∀ j, Unloadable unreadable t j ↔ Unloadable unreadable s j) := by
  obtain ⟨b, mid, got, rest⟩ := Tried.run_lift_bind.mp ran
  have chunks := bucket_getBucket got
  have still := Still.of_sameOn (getBucket_spec got).1
  split at rest
  · rename_i bad
    cases rest
    refine Or.inl ⟨rfl, ⟨bad.2, ?_⟩, still⟩
    rw [← chunks]
    exact Option.isNone_iff_eq_none.mp bad.1
  · rename_i good
    obtain ⟨C, rfl, loaded⟩ := Tried.run_lift.mp rest
    have loadable : ¬Unloadable unreadable s id := by
      rintro ⟨bad, absent⟩
      rw [← chunks] at absent
      exact good ⟨Option.isNone_iff_eq_none.mpr absent, bad⟩
    obtain ⟨same, _, ⟨b', here, now⟩, _⟩ := loadChunks_spec loaded
    refine Or.inr ⟨Option.some_ne_none C, loadable, still.trans (Still.of_sameOn same), fun j => ?_⟩
    by_cases at_id : j = id
    · subst at_id
      refine ⟨fun there => ?_, fun there => absurd there loadable⟩
      have absent := there.2
      rw [here] at absent
      cases now.symm.trans absent
    · exact unloadable_congr ((chunks_loadChunks loaded at_id).trans (chunks_getBucket got j))

theorem getChunk_cases {i : BucketIndex} {r : Option Chunk} (ran : (getChunk unreadable i).run s = some (r, t)) :
    (r = none ∧ Unloadable unreadable s (bucket i) ∧ Still s t) ∨
      (r ≠ none ∧ ¬Unloadable unreadable s (bucket i) ∧ Still s t ∧ ∀ j, Unloadable unreadable t j ↔ Unloadable unreadable s j) := by
  rcases Tried.run_bind.mp ran with ⟨C, mid, first, rest⟩ | ⟨first, rfl⟩
  · cases rest
    rcases loadChunks_cases first with ⟨impossible, _⟩ | ⟨_, rest⟩
    · cases impossible
    · exact Or.inr ⟨Option.some_ne_none _, rest⟩
  · rcases loadChunks_cases first with ⟨_, rest⟩ | ⟨impossible, _⟩
    · exact Or.inl ⟨rfl, rest⟩
    · exact absurd rfl impossible

/-- Asking for the chunk throws for just these hash objects. -/
theorem data_cases {r : Option Chunk} (ran : (data unreadable o).run s = some (r, t)) :
    (r = none ∧ Lost unreadable s o ∧ Still s t) ∨ (r ≠ none ∧ ¬Lost unreadable s o ∧ Loaded unreadable s t) := by
  obtain ⟨_, _, got, rest⟩ := Tried.run_lift_bind.mp ran
  cases got
  cases there : (s.objects o).data with
  | some c =>
    simp only [there] at rest
    cases rest
    refine Or.inr ⟨Option.some_ne_none c, fun lost => ?_, Still.refl s, fun _ => Iff.rfl, fun _ => Iff.rfl⟩
    cases there.symm.trans lost.1
  | none =>
    simp only [there] at rest
    split at rest
    · obtain ⟨_, _, impossible⟩ := Tried.run_lift.mp rest
      cases impossible
    · rcases Tried.run_bind.mp rest with ⟨c, mid, first, rest⟩ | ⟨first, rfl⟩
      · obtain ⟨_, _, changed, rest⟩ := Tried.run_lift_bind.mp rest
        cases changed
        cases rest
        rcases getChunk_cases first with ⟨impossible, _⟩ | ⟨_, loadable, still, unloadable⟩
        · cases impossible
        · have objects := (getChunk_spec ((mirrors_getChunk _).returns _ _ _ first)).1.objects
          have kept : ¬Lost unreadable s o := fun lost => loadable lost.2
          have step : Still mid (mid.setObject o { s.objects o with data := some c }) := by
            rw [← objects]
            exact still_setObject mid o _
          refine Or.inr ⟨Option.some_ne_none c, kept, still.trans step, unloadable, fun o' => ?_⟩
          by_cases same : o' = o
          · subst same
            refine ⟨fun lost => ?_, fun lost => absurd lost kept⟩
            have absent := lost.1
            rw [objects_setObject_self] at absent
            cases absent
          · unfold Lost
            rw [objects_setObject_of_ne same, objects]
            exact and_congr_right (fun _ => unloadable _)
      · rcases getChunk_cases first with ⟨_, unloadable, still⟩ | ⟨impossible, _⟩
        · exact Or.inl ⟨rfl, ⟨there, unloadable⟩, still⟩
        · exact absurd rfl impossible

theorem putHashAndChunk_cases {i : BucketIndex} {h : HashSlot} {c : Chunk} {r : Option Unit}
    (ran : (putHashAndChunk unreadable i h c).run s = some (r, t)) :
    (r = none ∧ Unloadable unreadable s (bucket i)) ∨ (r ≠ none ∧ ¬Unloadable unreadable s (bucket i)) := by
  obtain ⟨H, mid, hashes, rest⟩ := Tried.run_lift_bind.mp ran
  rw [← unloadable_congr (chunks_loadHashes hashes (bucket i))]
  rcases Tried.run_bind.mp rest with ⟨C, mid₂, first, rest⟩ | ⟨first, rfl⟩
  · obtain ⟨_, _, _, rest⟩ := Tried.run_lift_bind.mp rest
    obtain ⟨_, rfl, _⟩ := Tried.run_lift.mp rest
    rcases loadChunks_cases first with ⟨impossible, _⟩ | ⟨_, loadable, _⟩
    · cases impossible
    · exact Or.inr ⟨Option.some_ne_none _, loadable⟩
  · rcases loadChunks_cases first with ⟨_, unloadable, _⟩ | ⟨impossible, _⟩
    · exact Or.inl ⟨rfl, unloadable⟩
    · exact absurd rfl impossible

/-- A hash that is asked for costs no references; asking throws just when the sum is blocked. -/
theorem newHash_cases {sum : Sha256} {c : Chunk} {r : Option Nat} (ran : (newHash unreadable sum c).run s = some (r, t)) :
    (r = none ↔ Blocked unreadable s sum) ∧ ∀ o, references t o = references s o := by
  obtain ⟨_, _, got, rest⟩ := Tried.run_lift_bind.mp ran
  cases got
  unfold Blocked
  cases there : s.hashesIndex sum with
  | some o =>
    simp only [there] at rest
    dsimp only
    rcases Tried.run_bind.mp rest with ⟨d, mid, first, rest⟩ | ⟨first, rfl⟩
    · cases rest
      rcases data_cases first with ⟨impossible, _⟩ | ⟨_, kept, loaded⟩
      · cases impossible
      · exact ⟨⟨fun impossible => absurd impossible (Option.some_ne_none _), fun lost => absurd lost kept⟩, references_still loaded.still⟩
    · rcases data_cases first with ⟨_, lost, still⟩ | ⟨impossible, _⟩
      · exact ⟨⟨fun _ => lost, fun _ => rfl⟩, references_still still⟩
      · exact absurd rfl impossible
  | none =>
    simp only [there] at rest
    dsimp only
    obtain ⟨i, mid, fetched, rest⟩ := Tried.run_lift_bind.mp rest
    obtain ⟨⟨j, a⟩, found, shape⟩ := Option.map_eq_some_iff.mp fetched
    cases shape
    have only : (∃ i a, s.accounting.fetch = some (i, a) ∧ Unloadable unreadable s (bucket i)) ↔ Unloadable unreadable s (bucket j) := by
      constructor
      · rintro ⟨i, a', found', unloadable⟩
        cases found.symm.trans found'
        exact unloadable
      · exact fun unloadable => ⟨j, a, found, unloadable⟩
    rw [only]
    obtain ⟨_, _, got, rest⟩ := Tried.run_lift_bind.mp rest
    cases got
    obtain ⟨_, _, new, rest⟩ := Tried.run_lift_bind.mp rest
    cases new
    rcases Tried.run_bind.mp rest with ⟨_, last, put, rest⟩ | ⟨put, rfl⟩
    · rcases Tried.run_cleanUp.mp put with ⟨_, shape, put⟩ | ⟨impossible, _⟩
      · cases shape
        obtain ⟨_, _, indexed, rest⟩ := Tried.run_lift_bind.mp rest
        cases indexed
        cases rest
        rcases putHashAndChunk_cases put with ⟨impossible, _⟩ | ⟨_, loadable⟩
        · cases impossible
        · have same := (putHashAndChunk_spec ((mirrors_putHashAndChunk _ _ _).returns _ _ _ put)).1
          refine ⟨⟨fun impossible => absurd impossible (Option.some_ne_none _), fun unloadable => absurd unloadable loadable⟩, fun o => ?_⟩
          have created : last.created = s.created + 1 := same.created
          unfold references
          dsimp only
          rw [created, same.objects]
          by_cases new : o = s.created
          · subst new
            rw [if_pos (Nat.lt_succ_self _), if_neg (Nat.lt_irrefl _)]
            dsimp only
            rw [objects_setObject_self]
          · dsimp only
            rw [objects_setObject_of_ne new]
            have bound : o < s.created + 1 ↔ o < s.created := by omega
            simp only [bound]
      · cases impossible
    · rcases Tried.run_cleanUp.mp put with ⟨_, impossible, _⟩ | ⟨_, last, threw, cleaned⟩
      · cases impossible
      · cases cleaned
        rcases putHashAndChunk_cases threw with ⟨_, unloadable⟩ | ⟨impossible, _⟩
        · exact ⟨⟨fun _ => unloadable, fun _ => rfl⟩, fun o => rfl⟩
        · exact absurd rfl impossible

/-- Writing to the chunk of a hash throws: its chunk is lost, or the hash that it needs instead is blocked. -/
def Stops (sha : Chunk → Sha256) (unreadable : Nat → Bool) (s : Storage) (o offset : Nat) (input : Str) : Prop :=
  Lost unreadable s o ∨ ∃ new, (s.content o).write offset input = some new ∧ sha new ≠ (s.objects o).sum ∧ Blocked unreadable s (sha new)

/-- Writing leaves the chunk as it was. -/
def Unchanged (sha : Chunk → Sha256) (unreadable : Nat → Bool) (s : Storage) (o offset : Nat) (input : Str) : Prop :=
  ¬Lost unreadable s o ∧ ∃ new, (s.content o).write offset input = some new ∧ sha new = (s.objects o).sum

/-- A write to a chunk costs no references. -/
theorem writeHash_references {offset : Nat} {input : Str} {r : Option (Option Nat)}
    (ran : (writeHash sha unreadable o offset input).run s = some (r, t)) (o' : Nat) : references t o' = references s o' := by
  rcases Tried.run_bind.mp ran with ⟨c, mid, first, rest⟩ | ⟨first, rfl⟩
  · rcases data_cases first with ⟨impossible, _⟩ | ⟨_, _, loaded⟩
    · cases impossible
    · have before := references_still loaded.still o'
      cases written : c.write offset input with
      | none =>
        simp only [written] at rest
        obtain ⟨_, _, impossible⟩ := Tried.run_lift.mp rest
        cases impossible
      | some new =>
        simp only [written] at rest
        obtain ⟨_, _, got, rest⟩ := Tried.run_lift_bind.mp rest
        cases got
        split at rest
        · cases rest
          exact before
        · rcases Tried.run_bind.mp rest with ⟨n, last, made, rest⟩ | ⟨made, _⟩
          · cases rest
            exact ((newHash_cases made).2 o').trans before
          · exact ((newHash_cases made).2 o').trans before
  · rcases data_cases first with ⟨_, _, still⟩ | ⟨impossible, _⟩
    · exact references_still still o'
    · exact absurd rfl impossible

/-- It throws, or needs no other hash, just as these say. -/
theorem writeHash_cases {offset : Nat} {input : Str} {r : Option (Option Nat)} (rep : s.Rep sha) (live : s.Live o)
    (ran : (writeHash sha unreadable o offset input).run s = some (r, t)) :
    (r = none ∧ Stops sha unreadable s o offset input) ∨
      (r = some none ∧ ¬Stops sha unreadable s o offset input ∧ Unchanged sha unreadable s o offset input ∧ Loaded unreadable s t ∧ Advance sha s t) ∨
      (∃ n, r = some (some n) ∧ ¬Stops sha unreadable s o offset input ∧ ¬Unchanged sha unreadable s o offset input) := by
  rcases Tried.run_bind.mp ran with ⟨c, mid, first, rest⟩ | ⟨first, rfl⟩
  · rcases data_cases first with ⟨impossible, _⟩ | ⟨_, kept, loaded⟩
    · cases impossible
    · obtain ⟨advance, facts⟩ : Advance sha _ _ ∧ _ := data_spec ((mirrors_data _).returns _ _ _ first)
      obtain ⟨content, _, _⟩ := facts rep live
      rw [content] at rest
      cases written : (s.content o).write offset input with
      | none =>
        simp only [written] at rest
        obtain ⟨_, _, impossible⟩ := Tried.run_lift.mp rest
        cases impossible
      | some new =>
        have only : ∀ {new'}, (s.content o).write offset input = some new' → new' = new := fun written' => Option.some.inj (written'.symm.trans written)
        simp only [written] at rest
        obtain ⟨_, _, got, rest⟩ := Tried.run_lift_bind.mp rest
        cases got
        rw [loaded.still.sum] at rest
        split at rest
        · rename_i same
          cases rest
          refine Or.inr (Or.inl ⟨rfl, ?_, ⟨kept, new, written, same⟩, loaded, advance⟩)
          rintro (lost | ⟨new', written', different, _⟩)
          · exact kept lost
          · exact different (only written' ▸ same)
        · rename_i different
          have unchanged : ¬Unchanged sha unreadable s o offset input := by
            rintro ⟨_, new', written', same⟩
            exact different (only written' ▸ same)
          have stops : Stops sha unreadable s o offset input ↔ Blocked unreadable mid (sha new) := by
            rw [loaded.blocked]
            constructor
            · rintro (lost | ⟨new', written', _, blocked⟩)
              · exact absurd lost kept
              · exact only written' ▸ blocked
            · exact fun blocked => Or.inr ⟨new, written, different, blocked⟩
          rw [stops]
          rcases Tried.run_bind.mp rest with ⟨n, last, made, rest⟩ | ⟨made, rfl⟩
          · cases rest
            refine Or.inr (Or.inr ⟨n, rfl, ?_, unchanged⟩)
            rw [← (newHash_cases made).1]
            exact Option.some_ne_none n
          · exact Or.inl ⟨rfl, (newHash_cases made).1.mp rfl⟩
  · rcases data_cases first with ⟨_, lost, _⟩ | ⟨impossible, _⟩
    · exact Or.inl ⟨rfl, Or.inl lost⟩
    · exact absurd rfl impossible

section Loop
variable (sha unreadable)

/-- The first chunk of a write that does not stay as it was is one that stops it. -/
def StopsAt (s : Storage) (offset : Nat) : List Nat → Str → Nat → Prop
  | [], _, _ => False
  | h :: hashes, buf, fileOffset =>
    if offset < fileOffset + chunkSize ∧ buf ≠ [] then
      let newOffset := offset - fileOffset
      let newSize := min buf.length (chunkSize - newOffset)
      Stops sha unreadable s h newOffset (buf.take newSize) ∨
        Unchanged sha unreadable s h newOffset (buf.take newSize) ∧ StopsAt s offset hashes (buf.drop newSize) (fileOffset + chunkSize)
    else StopsAt s offset hashes buf (fileOffset + chunkSize)

end Loop

theorem Loaded.stops (loaded : Loaded unreadable s t) (content : t.content o = s.content o) (offset : Nat) (input : Str) :
    Stops sha unreadable t o offset input ↔ Stops sha unreadable s o offset input := by
  unfold Stops
  rw [loaded.lost, content, loaded.still.sum]
  simp only [loaded.blocked]

theorem Loaded.unchanged (loaded : Loaded unreadable s t) (content : t.content o = s.content o) (offset : Nat) (input : Str) :
    Unchanged sha unreadable t o offset input ↔ Unchanged sha unreadable s o offset input := by
  unfold Unchanged
  rw [loaded.lost, content, loaded.still.sum]

theorem Loaded.stopsAt (loaded : Loaded unreadable s t) {hashes : List Nat} (content : ∀ o ∈ hashes, t.content o = s.content o) (offset : Nat)
    (buf : Str) (fileOffset : Nat) : StopsAt sha unreadable t offset hashes buf fileOffset ↔ StopsAt sha unreadable s offset hashes buf fileOffset := by
  induction hashes generalizing buf fileOffset with
  | nil => exact Iff.rfl
  | cons h hashes ih =>
    have here := content h List.mem_cons_self
    have later := fun buf fileOffset => ih (fun o member => content o (List.mem_cons_of_mem h member)) buf fileOffset
    rw [StopsAt, StopsAt]
    split
    · dsimp only
      rw [loaded.stops here, loaded.unchanged here, later]
    · exact later buf _

theorem incRefCnt_references {n : Nat} (ran : Storage.incRefCnt o n s = some ((), t)) (o' : Nat) :
    references t o' = references s o' + if o' = o ∧ o < s.created then n else 0 := by
  have still := incRefCnt_still ran
  rw [references_still still]
  unfold references
  have created : (s.recount o n).created = s.created := rfl
  rw [created]
  by_cases same : o' = o
  · subst same
    by_cases made : o' < s.created
    · rw [refcnt_recount_self, if_pos made, if_pos made, if_pos ⟨rfl, made⟩]
    · rw [if_neg made, if_neg made, if_neg (fun both => made both.2)]
      rfl
  · have none : ¬(o' = o ∧ o < s.created) := fun both => same both.1
    rw [refcnt_recount_of_ne same, if_neg none]
    exact (Int.add_zero _).symm

/-- The loop takes references, and gives none up. -/
theorem writeLoop_references {offset : Nat} {hashes : List Nat} {buf : Str} {fileOffset offsetInBuf : Nat}
    {r : Option (List Nat × List (Nat × Nat) × Nat)}
    (ran : (writeLoop sha unreadable offset hashes buf fileOffset offsetInBuf).run s = some (r, t)) (o : Nat) : references s o ≤ references t o := by
  induction hashes generalizing s buf fileOffset offsetInBuf r with
  | nil =>
    obtain ⟨_, mid, asserted, rest⟩ := Tried.run_lift_bind.mp ran
    obtain ⟨_, rfl⟩ := Run.assert_eq_some.mp asserted
    cases rest
    exact le_rfl
  | cons h hashes ih =>
    rw [writeLoop] at ran
    split at ran
    · dsimp only at ran
      rcases Tried.run_bind.mp ran with ⟨newHsh, mid, wrote, rest⟩ | ⟨wrote, _⟩
      · rw [← writeHash_references wrote o]
        cases newHsh with
        | some newHsh =>
          obtain ⟨_, mid₂, inc, rest⟩ := Tried.run_lift_bind.mp rest
          have more := incRefCnt_references inc o
          have later : references mid₂ o ≤ references t o := by
            rcases Tried.run_bind.mp rest with ⟨result, last, looped, rest⟩ | ⟨looped, _⟩
            · cases rest
              exact ih looped
            · exact ih looped
          omega
        | none =>
          rcases Tried.run_bind.mp rest with ⟨result, last, looped, rest⟩ | ⟨looped, _⟩
          · cases rest
            exact ih looped
          · exact ih looped
      · exact (writeHash_references wrote o).ge
    · rcases Tried.run_bind.mp ran with ⟨result, last, looped, rest⟩ | ⟨looped, _⟩
      · cases rest
        exact ih looped
      · exact ih looped

/-- The hash that a chunk gets instead is another one. -/
theorem writeHash_other {offset n : Nat} {input : Str} (rep : s.Rep sha) (live : s.Live o)
    (ran : Storage.writeHash sha o offset input s = some (some n, t)) : n ≠ o ∧ t.Live n ∧ n < t.created := by
  have advance := writeHash_within o offset input _ _ _ ran
  obtain ⟨c, mid, loaded, rest⟩ := Run.bind_eq_some.mp ran
  obtain ⟨first, facts⟩ : Advance sha _ _ ∧ _ := data_spec loaded
  have rep' := first.rep rep
  have alive := (facts rep live).2.1
  cases written : c.write offset input with
  | none =>
    simp only [written] at rest
    cases rest
  | some new =>
    simp only [written] at rest
    obtain ⟨_, _, got, rest⟩ := Run.bind_eq_some.mp rest
    cases got
    split at rest
    · cases rest
    · rename_i different
      obtain ⟨n', last, made, rest⟩ := Run.bind_eq_some.mp rest
      cases rest
      have there := (newHash_spec made).2 rep'
      refine ⟨?_, there.1, (advance.rep rep).made n there.1⟩
      rintro rfl
      rcases newHash_still made with ⟨found, _⟩ | ⟨_, new, _⟩
      · exact different (rep'.known _ _ found).2.symm
      · exact absurd (rep'.made _ alive) (new ▸ Nat.lt_irrefl _)

/-- What the loop does when it stops before anything changed. -/
theorem writeLoop_stopsAt {offset : Nat} {hashes : List Nat} {buf : Str} {fileOffset offsetInBuf : Nat}
    {r : Option (List Nat × List (Nat × Nat) × Nat)} (rep : s.Rep sha) (live : ∀ o ∈ hashes, s.Live o)
    (ran : (writeLoop sha unreadable offset hashes buf fileOffset offsetInBuf).run s = some (r, t)) :
    StopsAt sha unreadable s offset hashes buf fileOffset ↔ r = none ∧ ∀ o, references t o = references s o := by
  induction hashes generalizing s buf fileOffset offsetInBuf r with
  | nil =>
    obtain ⟨_, mid, asserted, rest⟩ := Tried.run_lift_bind.mp ran
    cases rest
    exact ⟨False.elim, fun both => absurd both.1 (Option.some_ne_none _)⟩
  | cons h hashes ih =>
    have here := live h List.mem_cons_self
    have others : ∀ o ∈ hashes, s.Live o := fun o member => live o (List.mem_cons_of_mem h member)
    rw [writeLoop] at ran
    rw [StopsAt]
    split at ran
    · rename_i inside
      rw [if_pos inside]
      dsimp only at ran ⊢
      obtain ⟨n, amount⟩ : ∃ n, n = min (List.length buf) (chunkSize - (offset - fileOffset)) := ⟨_, rfl⟩
      rw [← amount] at ran ⊢
      rcases Tried.run_bind.mp ran with ⟨newHsh, mid, wrote, rest⟩ | ⟨wrote, rfl⟩
      · have same := writeHash_references wrote
        rcases writeHash_cases rep here wrote with ⟨impossible, _⟩ | ⟨shape, stops, unchanged, loaded, advance⟩ | ⟨n', shape, stops, unchanged⟩
        · cases impossible
        · cases shape
          have alive : ∀ o ∈ hashes, mid.Live o := fun o member => (loaded.still.live o).mpr (others o member)
          have content : ∀ o ∈ hashes, mid.content o = s.content o :=
            fun o member => (advance.content rep o (rep.made o (others o member)) (alive o member)).2
          rw [or_iff_right stops, and_iff_right unchanged, ← loaded.stopsAt content]
          rcases Tried.run_bind.mp rest with ⟨result, last, looped, rest⟩ | ⟨looped, rfl⟩
          · cases rest
            rw [ih (advance.rep rep) alive looped]
            simp
          · simp only [ih (advance.rep rep) alive looped, same]
        · cases shape
          refine ⟨fun either => ?_, fun both => ?_⟩
          · rcases either with there | there
            · exact absurd there stops
            · exact absurd there.1 unchanged
          · obtain ⟨_, mid₂, inc, rest⟩ := Tried.run_lift_bind.mp rest
            have made := (writeHash_other rep here ((mirrors_writeHash _ _ _).returns _ _ _ wrote)).2.2
            have more := incRefCnt_references inc n'
            rw [if_pos ⟨rfl, made⟩, same] at more
            have later : references mid₂ n' ≤ references t n' := by
              rcases Tried.run_bind.mp rest with ⟨result, last, looped, rest⟩ | ⟨looped, _⟩
              · cases rest
                exact writeLoop_references looped n'
              · exact writeLoop_references looped n'
            have equal := both.2 n'
            omega
      · have same := writeHash_references wrote
        rcases writeHash_cases rep here wrote with ⟨_, stops⟩ | ⟨impossible, _⟩ | ⟨_, impossible, _⟩
        · exact ⟨fun _ => ⟨rfl, same⟩, fun _ => Or.inl stops⟩
        · cases impossible
        · cases impossible
    · rename_i outside
      rw [if_neg outside]
      rcases Tried.run_bind.mp ran with ⟨result, last, looped, rest⟩ | ⟨looped, rfl⟩
      · cases rest
        rw [ih rep others looped]
        simp
      · exact ih rep others looped

/-- A loop that replaced something did not leave the same hashes. -/
theorem writeLoop_changed {je : Bool} {offset : Nat} {hashes : List Nat} {replaced : List (Nat × Nat)} {buf : Str} {fileOffset : Nat} {held : List Nat}
    (counted : s.Counted sha held) (sub : ∀ o ∈ hashes, o ∈ held)
    (ran : Filesystem.writeLoop (hashOps sha je) offset hashes buf fileOffset s = some ((hashes, replaced), t)) : replaced = [] := by
  induction hashes generalizing s replaced buf fileOffset held with
  | nil =>
    obtain ⟨_, _, _, rest⟩ := Run.bind_eq_some.mp ran
    cases rest
    rfl
  | cons h hashes ih =>
    have here := sub h List.mem_cons_self
    have others : ∀ o ∈ hashes, o ∈ held := fun o member => sub o (List.mem_cons_of_mem h member)
    rw [Filesystem.writeLoop] at ran
    split at ran
    · obtain ⟨newHsh, mid, wrote, rest⟩ := Run.bind_eq_some.mp ran
      have counted' := (writeHash_counted counted wrote).1
      cases newHsh with
      | some newHsh =>
        obtain ⟨_, _, _, rest⟩ := Run.bind_eq_some.mp rest
        obtain ⟨⟨after, replaced'⟩, _, _, rest⟩ := Run.bind_eq_some.mp rest
        have same := congrArg (fun result => result.1.1) (Option.some.inj rest)
        have head := (List.cons.inj same).1
        exact absurd head (writeHash_other counted.rep (counted.live h here) wrote).1
      | none =>
        obtain ⟨⟨after, replaced'⟩, last, loop, rest⟩ := Run.bind_eq_some.mp rest
        cases rest
        exact ih counted' others loop
    · obtain ⟨⟨after, replaced'⟩, last, loop, rest⟩ := Run.bind_eq_some.mp ran
      cases rest
      exact ih counted others loop

theorem writeLoop_length {je : Bool} {offset : Nat} {hashes after : List Nat} {replaced : List (Nat × Nat)} {buf : Str} {fileOffset : Nat}
    (ran : Filesystem.writeLoop (hashOps sha je) offset hashes buf fileOffset s = some ((after, replaced), t)) : after.length = hashes.length := by
  induction hashes generalizing s after replaced buf fileOffset with
  | nil =>
    obtain ⟨_, _, _, rest⟩ := Run.bind_eq_some.mp ran
    cases rest
    rfl
  | cons h hashes ih =>
    rw [Filesystem.writeLoop] at ran
    split at ran
    · obtain ⟨newHsh, mid, wrote, rest⟩ := Run.bind_eq_some.mp ran
      cases newHsh with
      | some newHsh =>
        obtain ⟨_, _, _, rest⟩ := Run.bind_eq_some.mp rest
        obtain ⟨⟨after', replaced'⟩, _, loop, rest⟩ := Run.bind_eq_some.mp rest
        cases rest
        rw [List.length_cons, List.length_cons, ih loop]
      | none =>
        obtain ⟨⟨after', replaced'⟩, last, loop, rest⟩ := Run.bind_eq_some.mp rest
        cases rest
        rw [List.length_cons, List.length_cons, ih loop]
    · obtain ⟨⟨after', replaced'⟩, last, loop, rest⟩ := Run.bind_eq_some.mp ran
      cases rest
      rw [List.length_cons, List.length_cons, ih loop]

theorem grown_eq {list : List Nat} {n : Nat} (full : list.length = n) (z : Nat) : grown z list n = list := by
  rw [grown, ← full, Nat.sub_self, List.replicate_zero, List.append_nil]

theorem growList_zero {je : Bool} (ran : growList (hashOps sha je) 0 s = some ((), t)) : t = s := by
  unfold growList at ran
  rw [if_neg (Nat.lt_irrefl 0)] at ran
  cases ran
  rfl

/-- A write that throws returns 0. It leaves size, list and counts as they were just when it did not
have to grow the file, and the first chunk that would change, or cannot be loaded, stops it. -/
theorem tryWrite_failed {je : Bool} {f after : OpenFile Nat} {buf : Str} {offset : Nat} {others : List Nat}
    (counted : s.Counted sha (f.data.hashList ++ others)) (ran : tryWrite sha unreadable je f buf offset s = some ((after, none), t)) :
    writeInner sha unreadable je f buf offset s = some ((after, 0), t) ∧
      ((after.data.size = f.data.size ∧ after.data.hashList = f.data.hashList ∧ ∀ o, references t o = references s o) ↔
        offset + buf.length ≤ f.data.size ∧ f.data.hashList.length = numHashes f.data.size buf.length offset ∧
          StopsAt sha unreadable s offset (windowOf f.data.hashList buf.length offset) buf (offset / chunkSize * chunkSize)) := by
  refine ⟨by rw [writeInner, Run.bind_of_some ran]; rfl, ?_⟩
  obtain ⟨_, _, asserted, rest⟩ := Run.bind_eq_some.mp ran
  obtain ⟨grows, rfl⟩ := Run.assert_eq_some.mp asserted
  obtain ⟨_, s₁, paid, rest⟩ := Run.bind_eq_some.mp rest
  obtain ⟨_, _, asserted, rest⟩ := Run.bind_eq_some.mp rest
  obtain ⟨count, rfl⟩ := Run.assert_eq_some.mp asserted
  obtain ⟨looped, s₂, loop, rest⟩ := Run.bind_eq_some.mp rest
  have long := length_grown zeroHash grows
  -- without growth the loop begins in the state that the write began in
  have quiet : f.data.hashList.length = numHashes f.data.size buf.length offset →
      s₁ = s ∧ grown zeroHash f.data.hashList (numHashes f.data.size buf.length offset) = f.data.hashList := by
    intro full
    rw [← full, Nat.sub_self] at paid
    exact ⟨growList_zero paid, grown_eq full _⟩
  have live : ∀ o ∈ windowOf f.data.hashList buf.length offset, s.Live o :=
    fun o member => counted.live o (List.mem_append_left _ (List.mem_of_mem_drop (List.mem_of_mem_take member)))
  cases looped with
  | none =>
    cases rest
    dsimp only at loop ⊢
    constructor
    · rintro ⟨size, list, same⟩
      have full : f.data.hashList.length = numHashes f.data.size buf.length offset := by rw [← list, long]
      obtain ⟨rfl, same_list⟩ := quiet full
      rw [same_list] at loop
      exact ⟨size ▸ Nat.le_max_right _ _, full, (writeLoop_stopsAt counted.rep live loop).mpr ⟨rfl, same⟩⟩
    · rintro ⟨inside, full, stops⟩
      obtain ⟨rfl, same_list⟩ := quiet full
      rw [same_list] at loop ⊢
      exact ⟨Nat.max_eq_left inside, rfl, ((writeLoop_stopsAt counted.rep live loop).mp stops).2⟩
  | some result =>
    obtain ⟨new, replaced, written⟩ := result
    unfold afterLoop at rest
    dsimp only at rest
    split at rest
    · cases rest
    · rename_i changed
      obtain ⟨released, s₃, _, rest⟩ := Run.bind_eq_some.mp rest
      have shape := (congrArg (fun result => result.1.1) (Option.some.inj rest)).symm
      dsimp only at loop shape
      rw [shape]
      dsimp only
      constructor
      · rintro ⟨_, list, _⟩
        have plain := (@writeLoop_returns sha unreadable je _ _ _ _ _ _ _ _ _ _ loop).1
        have size := (writeLoop_length plain).trans count
        have full : f.data.hashList.length = numHashes f.data.size buf.length offset := by
          rw [← list]
          exact length_replaced long size
        obtain ⟨rfl, same_list⟩ := quiet full
        rw [same_list] at plain list
        have pieces := List.take_append_drop (offset / chunkSize) f.data.hashList
        have window : new = windowOf f.data.hashList buf.length offset := by
          rw [← List.drop_drop, List.append_assoc] at list
          have tails := List.append_cancel_left (list.trans pieces.symm)
          exact List.append_cancel_right (tails.trans (List.take_append_drop _ _).symm)
        rw [window] at plain
        exact absurd (writeLoop_changed counted (fun o member => List.mem_append_left _ (List.mem_of_mem_drop (List.mem_of_mem_take member))) plain) changed
      · rintro ⟨_, full, stops⟩
        obtain ⟨rfl, same_list⟩ := quiet full
        rw [same_list] at loop
        have impossible := ((writeLoop_stopsAt counted.rep live loop).mp stops).1
        cases impossible

section Runs
open DataFs

/-- The storage with nothing but the zero hash, and with no chunks in memory. -/
def unloaded : Storage := { zeroOnly with
  loaded := Function.update (fun _ => none) 1 (some { hashes := some (Function.update (fun _ => .empty) (slotOf 256) (.object zeroHash)) })
  files := fun _ => ⟨none, some (fun _ => .zero)⟩ }

theorem counted_unloaded : unloaded.Counted prefixSum [] := by
  have advance : Advance prefixSum zeroOnly unloaded := by
    refine advance_of_holds rfl rfl rfl (fun rep => ⟨rep.accounting, rep.unavailable⟩) (fun _ o live => ?_)
    rw [live_zeroOnly live]
    exact ⟨⟨_, _, rfl, rfl, rfl⟩, rfl⟩
  refine ⟨advance.rep rep_zeroOnly, fun o member => absurd member List.not_mem_nil, fun o live loose => ?_⟩
  rw [live_zeroOnly live] at loose
  cases loose

/-- One byte for an empty file, when the bucket of the zero hash cannot be read. -/
theorem tryWrite_failed_one : ∃ t,
    tryWrite prefixSum (fun _ => true) false ⟨⟨0, []⟩, 0, 0⟩ [1] 0 unloaded = some ((⟨⟨1, [zeroHash]⟩, 0, 0⟩, none), t) ∧
      writeInner prefixSum (fun _ => true) false ⟨⟨0, []⟩, 0, 0⟩ [1] 0 unloaded = some ((⟨⟨1, [zeroHash]⟩, 0, 0⟩, 0), t) := by
  obtain ⟨t, ran⟩ : ∃ t, tryWrite prefixSum (fun _ => true) false ⟨⟨0, []⟩, 0, 0⟩ [1] 0 unloaded =
      some ((⟨⟨1, [zeroHash]⟩, 0, 0⟩, none), t) := ⟨_, rfl⟩
  exact ⟨t, ran, (@tryWrite_failed prefixSum (fun _ => true) unloaded t false ⟨⟨0, []⟩, 0, 0⟩ _ [1] 0 [] counted_unloaded ran).1⟩

theorem failed_write_grows : ∃ after t, writeInner prefixSum (fun _ => true) false ⟨⟨0, []⟩, 0, 0⟩ [1] 0 unloaded = some ((after, 0), t) ∧
    after.data.size ≠ 0 ∧ after.data.hashList ≠ [] ∧ references t zeroHash ≠ references unloaded zeroHash :=
  ⟨⟨⟨1, [zeroHash]⟩, 0, 0⟩, _, rfl, by decide, by decide, by decide⟩

end Runs

end Throwing

end CloudCryptFS.Filesystem
