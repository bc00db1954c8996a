import CloudCryptFS.Filesystem.Storage

/-! What the operations on buckets leave alone. A slot that holds a hash object goes on to hold
it, with the same chunk, wherever the chunk is at the time. -/

namespace CloudCryptFS.Filesystem
open Util Script.Lexer BucketIndex

namespace Storage

/-- The slot of an index holds the object. -/
def Holds (s : Storage) (i : BucketIndex) (o : Nat) : Prop :=
  ∃ b H, s.loaded (bucket i) = some b ∧ b.hashes = some H ∧ H (slotOf i) = .object o

/-- The chunks of a bucket: those in memory, or those of its file. -/
def chunksOf (s : Storage) (id : Nat) : SlotIndex → Chunk :=
  (((s.loaded id).bind DataBucket.chunks).or (s.files id).chunks).getD (fun _ => .zero)

def chunkAt (s : Storage) (i : BucketIndex) : Chunk := s.chunksOf (bucket i) (slotOf i)

/-- Nothing of the hashes changes, and no slot of these indexes that holds an object. -/
structure SameOn (P : BucketIndex → Prop) (s t : Storage) : Prop where
  objects : t.objects = s.objects
  created : t.created = s.created
  hashesIndex : t.hashesIndex = s.hashesIndex
  accounting : t.accounting = s.accounting
  holds : ∀ i o, P i → s.Holds i o → t.Holds i o ∧ t.chunkAt i = s.chunkAt i

abbrev SameData : Storage → Storage → Prop := SameOn (fun _ => True)

theorem SameOn.refl (P : BucketIndex → Prop) (s : Storage) : SameOn P s s := ⟨rfl, rfl, rfl, rfl, fun _ _ _ held => ⟨held, rfl⟩⟩

theorem SameOn.trans {P : BucketIndex → Prop} {s t u : Storage} (first : SameOn P s t) (second : SameOn P t u) : SameOn P s u := by
  refine ⟨second.objects.trans first.objects, second.created.trans first.created, second.hashesIndex.trans first.hashesIndex,
    second.accounting.trans first.accounting, fun i o inside held => ?_⟩
  have mid := first.holds i o inside held
  have last := second.holds i o inside mid.1
  exact ⟨last.1, last.2.trans mid.2⟩

instance (P : BucketIndex → Prop) : IsPreorder Storage (SameOn P) where
  refl := SameOn.refl P
  trans _ _ _ := SameOn.trans

theorem SameOn.mono {P Q : BucketIndex → Prop} {s t : Storage} (same : SameOn P s t) (fewer : ∀ i, Q i → P i) : SameOn Q s t :=
  ⟨same.objects, same.created, same.hashesIndex, same.accounting, fun i o inside => same.holds i o (fewer i inside)⟩

variable {s t : Storage} {id : Nat}

theorem chunksOf_of_loaded {b : DataBucket} (here : s.loaded id = some b) :
    s.chunksOf id = (b.chunks.or (s.files id).chunks).getD (fun _ => .zero) := by
  unfold chunksOf
  rw [here]
  rfl

theorem chunksOf_of_chunks {b : DataBucket} {C : SlotIndex → Chunk} (here : s.loaded id = some b) (chunks : b.chunks = some C) :
    s.chunksOf id = C := by
  rw [chunksOf_of_loaded here, chunks]
  rfl

theorem chunksOf_of_file {b : DataBucket} (here : s.loaded id = some b) (chunks : b.chunks = none) :
    s.chunksOf id = (s.files id).chunks.getD (fun _ => .zero) := by
  rw [chunksOf_of_loaded here, chunks]
  rfl

@[simp]
theorem loaded_setBucket (id : Nat) (b : DataBucket) (s : Storage) : (s.setBucket id b).loaded = Function.update s.loaded id (some b) := rfl

theorem loaded_setBucket_self (id : Nat) (b : DataBucket) (s : Storage) : (s.setBucket id b).loaded id = some b := Function.update_self id _ _

theorem loaded_setBucket_of_ne {j : Nat} (different : j ≠ id) (b : DataBucket) (s : Storage) : (s.setBucket id b).loaded j = s.loaded j :=
  Function.update_of_ne different _ _

theorem chunksOf_setBucket_of_ne {j : Nat} (different : j ≠ id) (b : DataBucket) (s : Storage) : (s.setBucket id b).chunksOf j = s.chunksOf j := by
  unfold chunksOf
  rw [loaded_setBucket_of_ne different]
  rfl

/-- The object that a slot holds is the only one. -/
theorem Holds.unique {i : BucketIndex} {o o' : Nat} (first : s.Holds i o) (second : s.Holds i o') : o = o' := by
  obtain ⟨b, H, here, hashes, slot⟩ := first
  obtain ⟨b', H', here', hashes', slot'⟩ := second
  cases here.symm.trans here'
  cases hashes.symm.trans hashes'
  exact HashSlot.object.inj (slot.symm.trans slot')

/-- Another bucket object in place of the one that is there, and other files. -/
theorem sameData_stored {b b' : DataBucket} (here : s.loaded id = some b) (f : DataFiles) (hashes : b'.hashes = b.hashes ∨ b.hashes = none)
    (chunks : ∀ i o, bucket i = id → s.Holds i o → (b'.chunks.or f.chunks).getD (fun _ => .zero) = s.chunksOf id) :
    SameData s ((s.setBucket id b').setFiles id f) := by
  refine ⟨rfl, rfl, rfl, rfl, fun i o _ held => ?_⟩
  obtain ⟨first, H, there, loaded, slot⟩ := held
  by_cases same : bucket i = id
  · have now : ((s.setBucket id b').setFiles id f).loaded (bucket i) = some b' := same ▸ loaded_setBucket_self id b' s
    cases here.symm.trans (same ▸ there)
    refine ⟨⟨b', H, now, (hashes.resolve_right (by simp [loaded])).trans loaded, slot⟩, ?_⟩
    unfold chunkAt
    have files : ((s.setBucket id b').setFiles id f).files id = f := by
      simp [setFiles, setBucket]
    rw [chunksOf_of_loaded now, same, ← chunks i o same ⟨b, H, there, loaded, slot⟩, files]
  · refine ⟨⟨first, H, (loaded_setBucket_of_ne same _ _).trans there, loaded, slot⟩, ?_⟩
    unfold chunkAt chunksOf
    rw [show ((s.setBucket id b').setFiles id f).loaded (bucket i) = s.loaded (bucket i) from loaded_setBucket_of_ne same _ _,
      show ((s.setBucket id b').setFiles id f).files (bucket i) = s.files (bucket i) from Function.update_of_ne same _ _]

theorem setFiles_self (id : Nat) (s : Storage) : s.setFiles id (s.files id) = s := by
  unfold setFiles
  rw [Function.update_eq_self]

theorem sameData_setBucket {b b' : DataBucket} (here : s.loaded id = some b) (hashes : b'.hashes = b.hashes ∨ b.hashes = none)
    (chunks : ∀ i o, bucket i = id → s.Holds i o → (b'.chunks.or (s.files id).chunks).getD (fun _ => .zero) = s.chunksOf id) :
    SameData s (s.setBucket id b') := by
  have stored := sameData_stored here (s.files id) hashes chunks
  exact setFiles_self id (s.setBucket id b') ▸ stored

/-- A bucket object where there was none. -/
theorem sameData_newBucket (absent : s.loaded id = none) : SameData s (s.setBucket id {}) := by
  refine ⟨rfl, rfl, rfl, rfl, fun i o _ held => ?_⟩
  obtain ⟨first, H, there, loaded, slot⟩ := held
  have different : bucket i ≠ id := by
    rintro rfl
    rw [absent] at there
    cases there
  refine ⟨⟨first, H, (loaded_setBucket_of_ne different _ _).trans there, loaded, slot⟩, ?_⟩
  unfold chunkAt
  rw [chunksOf_setBucket_of_ne different]

theorem getBucket_spec {b : DataBucket} (ran : getBucket id s = some (b, t)) : SameData s t ∧ t.loaded id = some b := by
  unfold getBucket at ran
  split at ran
  · rename_i found here
    cases ran
    exact ⟨SameOn.refl _ _, here⟩
  · rename_i absent
    cases ran
    exact ⟨sameData_newBucket absent, loaded_setBucket_self _ _ _⟩

theorem loadHashes_spec {H : SlotIndex → HashSlot} (ran : loadHashes id s = some (H, t)) :
    SameData s t ∧ ∃ b, t.loaded id = some b ∧ b.hashes = some H := by
  obtain ⟨b, mid, got, rest⟩ := Run.bind_eq_some.mp ran
  obtain ⟨same, here⟩ := getBucket_spec got
  cases hashes : b.hashes with
  | some H' =>
    simp only [hashes] at rest
    cases rest
    exact ⟨same, b, here, hashes⟩
  | none =>
    simp only [hashes] at rest
    cases rest
    exact ⟨same.trans (sameData_setBucket here (Or.inr hashes) (fun _ _ _ _ => (chunksOf_of_loaded here).symm)), _, loaded_setBucket_self _ _ _, rfl⟩

theorem loadChunks_spec {C : SlotIndex → Chunk} (ran : loadChunks id s = some (C, t)) :
    SameData s t ∧ C = t.chunksOf id ∧ (∃ b, t.loaded id = some b ∧ b.chunks = some C) ∧
      ∀ b H, s.loaded id = some b → b.hashes = some H → ∃ b', t.loaded id = some b' ∧ b'.hashes = some H := by
  obtain ⟨b, mid, got, rest⟩ := Run.bind_eq_some.mp ran
  obtain ⟨same, here⟩ := getBucket_spec got
  have kept : ∀ first H, s.loaded id = some first → first.hashes = some H → b.hashes = some H := by
    intro first H there hashes
    unfold getBucket at got
    rw [there] at got
    cases got
    exact hashes
  cases chunks : b.chunks with
  | some C' =>
    simp only [chunks] at rest
    cases rest
    exact ⟨same, (chunksOf_of_chunks here chunks).symm, ⟨b, here, chunks⟩, fun first H there hashes => ⟨b, here, kept first H there hashes⟩⟩
  | none =>
    simp only [chunks] at rest
    cases rest
    refine ⟨same.trans (sameData_setBucket here (Or.inl rfl) (fun _ _ _ _ => ?_)), ?_, ⟨_, loaded_setBucket_self _ _ _, rfl⟩,
      fun first H there hashes => ⟨_, loaded_setBucket_self _ _ _, kept first H there hashes⟩⟩
    · exact (chunksOf_of_file here chunks).symm
    · exact (chunksOf_of_chunks (loaded_setBucket_self _ _ _) rfl).symm

theorem getChunk_spec {i : BucketIndex} {c : Chunk} (ran : getChunk i s = some (c, t)) : SameData s t ∧ c = t.chunkAt i := by
  obtain ⟨C, mid, loaded, rest⟩ := Run.bind_eq_some.mp ran
  obtain ⟨same, chunks, _⟩ := loadChunks_spec loaded
  cases rest
  exact ⟨same, congrFun chunks _⟩

theorem hashChanged_spec (ran : hashChanged id s = some ((), t)) : SameData s t := by
  obtain ⟨b, mid, got, rest⟩ := Run.bind_eq_some.mp ran
  obtain ⟨same, here⟩ := getBucket_spec got
  cases rest
  exact same.trans (sameData_setBucket here (Or.inl rfl) (fun _ _ _ _ => (chunksOf_of_loaded here).symm))

/-- What `store` leaves of the chunks of a bucket. -/
theorem chunks_stored (C F : Option (SlotIndex → Chunk)) (clearCache : Bool) :
    ((if clearCache then none else C).or (if C.isSome ∨ F.isNone then some (C.getD (fun _ => .zero)) else F)).getD (fun _ => Chunk.zero) =
      (C.or F).getD (fun _ => .zero) := by
  cases C with
  | some C => cases clearCache <;> rfl
  | none => cases F <;> cases clearCache <;> rfl

theorem recordOf_isSome_of_holds {i : BucketIndex} {o : Nat} {b : DataBucket} {H : SlotIndex → HashSlot} (here : s.loaded (bucket i) = some b)
    (hashes : b.hashes = some H) (held : s.Holds i o) (t : Storage) : (t.recordOf (H (slotOf i))).isSome := by
  obtain ⟨b', H', there, loaded, slot⟩ := held
  cases here.symm.trans there
  cases hashes.symm.trans loaded
  rw [slot]
  rfl

/-- Both files are written, or no slot holds a hash. -/
theorem writeFiles_spec {C : Option (SlotIndex → Chunk)} {H : SlotIndex → HashSlot} (ran : writeFiles id C H s = some ((), t)) :
    t = s.setFiles id ⟨some (fun i => s.recordOf (H i)),
        if C.isSome ∨ (s.files id).chunks.isNone then some (C.getD (fun _ => .zero)) else (s.files id).chunks⟩ ∨
      t = s ∧ ∀ i, ¬(s.recordOf (H i)).isSome := by
  obtain ⟨u, _, got, rest⟩ := Run.bind_eq_some.mp ran
  cases got
  dsimp only at rest
  split at rest
  · cases rest
    exact Or.inl rfl
  · rename_i nothing
    cases rest
    exact Or.inr ⟨rfl, fun i some => nothing ⟨i, some⟩⟩

/-- Whatever of the chunks is dropped has been written, unless no slot holds a hash. -/
theorem store_spec {clearCache : Bool} (ran : store id clearCache s = some ((), t)) : SameData s t := by
  obtain ⟨b, mid, got, rest⟩ := Run.bind_eq_some.mp ran
  obtain ⟨same, here⟩ := getBucket_spec got
  split at rest
  · obtain ⟨_, u, changed, rest⟩ := Run.bind_eq_some.mp rest
    cases changed
    cases hashes : b.hashes with
    | none =>
      simp only [hashes] at rest
      cases rest
    | some H =>
      simp only [hashes] at rest
      rcases writeFiles_spec rest with rfl | ⟨rfl, nothing⟩
      · refine same.trans (sameData_stored here _ (Or.inl hashes.symm) (fun i o inside held => ?_))
        rw [chunksOf_of_loaded here]
        exact chunks_stored b.chunks (mid.files id).chunks clearCache
      · refine same.trans (sameData_setBucket here (Or.inl hashes.symm) (fun i o inside held => ?_))
        subst inside
        exact absurd (recordOf_isSome_of_holds here hashes held _) (nothing (slotOf i))
  · cases rest
    exact same

theorem addChangeTo_within : Run.Within SameData (addChangeTo id) := by
  intro s a t ran
  obtain ⟨b, mid, got, rest⟩ := Run.bind_eq_some.mp ran
  obtain ⟨same, here⟩ := getBucket_spec got
  have update : ∀ {u : Storage} {b c : DataBucket}, u.loaded id = some b → c.hashes = b.hashes → c.chunks = b.chunks → SameData u (u.setBucket id c) := by
    intro u b c here hashes chunks
    refine sameData_setBucket here (Or.inl hashes) (fun _ _ _ _ => ?_)
    rw [chunks, chunksOf_of_loaded here]
  split at rest
  · cases rest
    exact same.trans (update here rfl rfl)
  · obtain ⟨_, u, changed, rest⟩ := Run.bind_eq_some.mp rest
    cases changed
    obtain ⟨_, v, stored, rest⟩ := Run.bind_eq_some.mp rest
    obtain ⟨b', w, got', rest⟩ := Run.bind_eq_some.mp rest
    obtain ⟨same', here'⟩ := getBucket_spec got'
    have before : SameData s w := by
      refine (same.trans (SameOn.trans (update here ?_ ?_) (store_spec stored))).trans same'
      · rfl
      · rfl
    split at rest
    · cases rest
      exact before.trans (update here' rfl rfl)
    · cases rest

theorem addChange_spec {je : Bool} {hashes : List Nat} (ran : addChange je hashes s = some ((), t)) : SameData s t := by
  unfold addChange at ran
  split at ran
  · exact Run.Within.forM (fun _ => addChangeTo_within) _ _ _ ran
  · cases ran
    exact SameOn.refl _ _

/-- The slots of the other buckets stay. -/
theorem removeBucket_spec (ran : removeBucket id s = some ((), t)) : SameOn (fun i => bucket i ≠ id) s t := by
  unfold removeBucket at ran
  split at ran
  · cases ran
    exact SameOn.refl _ _
  · obtain ⟨⟨_, u⟩, stored, rest⟩ := Option.map_eq_some_iff.mp ran
    cases rest
    have same : SameData s u := by
      split at stored
      · exact store_spec stored
      · cases stored
        exact SameOn.refl _ _
    refine (same.mono (fun _ _ => trivial)).trans ⟨rfl, rfl, rfl, rfl, fun i o other held => ?_⟩
    obtain ⟨b, H, here, hashes, slot⟩ := held
    have kept : Function.update u.loaded id none (bucket i) = u.loaded (bucket i) := Function.update_of_ne other _ _
    refine ⟨⟨b, H, kept.trans here, hashes, slot⟩, ?_⟩
    unfold chunkAt chunksOf
    dsimp only
    rw [kept]

theorem removeBuckets_spec {ids : List Nat} (ran : ids.forM removeBucket s = some (⟨⟩, t)) : SameOn (fun i => bucket i ∉ ids) s t := by
  induction ids generalizing s with
  | nil =>
    cases ran
    exact SameOn.refl _ _
  | cons id ids ih =>
    obtain ⟨_, mid, first, rest⟩ := Run.bind_eq_some.mp ran
    refine ((removeBucket_spec first).mono (fun i outside => ?_)).trans ((ih rest).mono (fun i outside => ?_))
    · exact fun same => outside (same ▸ List.mem_cons_self)
    · exact fun member => outside (List.mem_cons_of_mem id member)

/-- The slots of the buckets that are still in use stay. -/
theorem post_spec {i : BucketIndex} (ran : post i s = some ((), t)) :
    s.accounting.post i = some t.accounting ∧ t.objects = s.objects ∧ t.created = s.created ∧ t.hashesIndex = s.hashesIndex ∧
      ∀ j o, bucket j ∈ t.accounting.bucketsInUse → s.Holds j o → t.Holds j o ∧ t.chunkAt j = s.chunkAt j := by
  unfold post at ran
  split at ran
  · cases ran
  · rename_i a posted
    obtain ⟨⟨_, u⟩, removed, rest⟩ := Option.bind_eq_some_iff.mp ran
    cases rest
    have same := removeBuckets_spec removed
    refine ⟨posted, same.objects, same.created, same.hashesIndex, fun j o used held => same.holds j o ?_ held⟩
    intro member
    rw [Finset.mem_sort] at member
    exact (Finset.mem_sdiff.mp member).2 used

/-- The slot gets what is put there, and no other slot changes. -/
theorem putHashAndChunk_spec {i : BucketIndex} {h : HashSlot} {c : Chunk} (ran : putHashAndChunk i h c s = some ((), t)) :
    SameOn (· ≠ i) s t ∧ t.chunkAt i = c ∧ ∀ o, h = .object o → t.Holds i o := by
  obtain ⟨H, s₁, hashes, rest⟩ := Run.bind_eq_some.mp ran
  obtain ⟨C, s₂, chunks, rest⟩ := Run.bind_eq_some.mp rest
  obtain ⟨b, s₃, got, rest⟩ := Run.bind_eq_some.mp rest
  cases rest
  obtain ⟨same₁, b₁, here₁, loaded₁⟩ := loadHashes_spec hashes
  obtain ⟨same₂, content, ⟨b₂, here₂, loaded₂⟩, kept⟩ := loadChunks_spec chunks
  obtain ⟨b', here', loaded'⟩ := kept b₁ H here₁ loaded₁
  cases here₂.symm.trans here'
  unfold getBucket at got
  rw [here₂] at got
  cases got
  have now := loaded_setBucket_self (bucket i) { b with
    chunkChangesSinceLoad := Bucket.increment b.chunkChangesSinceLoad
    hashChangesSinceLoad := Bucket.increment b.hashChangesSinceLoad
    hashes := some (Function.update H (slotOf i) h)
    chunks := some (Function.update C (slotOf i) c) } s₂
  refine ⟨((same₁.trans same₂).mono (fun _ _ => trivial)).trans ⟨rfl, rfl, rfl, rfl, fun j o other held => ?_⟩, ?_, fun o shape => ?_⟩
  · by_cases same : bucket j = bucket i
    · have different : slotOf j ≠ slotOf i := by
        intro slots
        apply other
        have place : j % chunksInBucket = i % chunksInBucket := congrArg Fin.val slots
        have whole := Nat.div_add_mod j chunksInBucket
        have whole' := Nat.div_add_mod i chunksInBucket
        have first : j / chunksInBucket = i / chunksInBucket := same
        rw [first, place] at whole
        exact whole.symm.trans whole'
      obtain ⟨b', H', there, hashes', slot⟩ := held
      rw [same] at there
      cases here₂.symm.trans there
      cases loaded'.symm.trans hashes'
      refine ⟨⟨_, _, (congrArg _ same).trans now, rfl, (Function.update_of_ne different _ _).trans slot⟩, ?_⟩
      unfold chunkAt
      rw [same, chunksOf_of_chunks now rfl, Function.update_of_ne different, content]
    · obtain ⟨b', H', there, hashes', slot⟩ := held
      refine ⟨⟨b', H', (loaded_setBucket_of_ne same _ _).trans there, hashes', slot⟩, ?_⟩
      unfold chunkAt
      rw [chunksOf_setBucket_of_ne same]
  · unfold chunkAt
    rw [chunksOf_of_chunks now rfl, Function.update_self]
  · exact ⟨_, _, now, rfl, (Function.update_self _ _ _).trans shape⟩

end Storage

end CloudCryptFS.Filesystem
