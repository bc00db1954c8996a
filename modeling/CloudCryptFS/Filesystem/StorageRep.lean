import CloudCryptFS.Filesystem.StorageSteps

/-! What the index, the slots, their chunks and the accounting say about a hash object that is
not deleted, and that every operation on hashes keeps it. -/

namespace CloudCryptFS.Filesystem
open Util Script.Lexer BucketIndex

namespace Storage
variable {sha : Chunk → Sha256} {s t : Storage} {o : Nat}

def Live (s : Storage) (o : Nat) : Prop := (s.objects o).deleted = false

/-- The chunk in the slot of a hash object. -/
def content (s : Storage) (o : Nat) : Chunk := s.chunkAt (s.objects o).bucketIndex

/-- The index, the slots, the chunks and the accounting agree on the live hash objects. -/
structure Rep (sha : Chunk → Sha256) (s : Storage) : Prop where
  index : ∀ o, s.Live o → s.hashesIndex (s.objects o).sum = some o
  known : ∀ sum o, s.hashesIndex sum = some o → s.Live o ∧ (s.objects o).sum = sum
  holds : ∀ o, s.Live o → s.Holds (s.objects o).bucketIndex o
  chunk : ∀ o, s.Live o → sha (s.content o) = (s.objects o).sum
  data : ∀ o c, s.Live o → (s.objects o).data = some c → c = s.content o
  unavailable : ∀ o, s.Live o → ¬s.accounting.Free (s.objects o).bucketIndex
  positive : ∀ o, s.Live o → 0 < bucket (s.objects o).bucketIndex
  made : ∀ o, s.Live o → o < s.created
  accounting : s.accounting.Ok
  zero : s.Live zeroHash ∧ (s.objects zeroHash).fixed = true ∧ (s.objects zeroHash).data = some .zero ∧ (s.objects zeroHash).bucketIndex = 256
  fixed : ∀ o, (s.objects o).fixed = true → o = zeroHash

/-- No two live hash objects have the same index. -/
theorem Rep.distinct (rep : s.Rep sha) {o o' : Nat} (live : s.Live o) (live' : s.Live o') (same : (s.objects o).bucketIndex = (s.objects o').bucketIndex) :
    o = o' :=
  (rep.holds o live).unique (same ▸ rep.holds o' live')

/-- A live hash object is in a bucket that is in use. -/
theorem Rep.inUse (rep : s.Rep sha) (live : s.Live o) : bucket (s.objects o).bucketIndex ∈ s.accounting.bucketsInUse := by
  by_contra unused
  exact rep.unavailable o live (Or.inr ⟨rep.positive o live, unused⟩)

/-- What is kept of a state that has it, and that the hash objects which stay live keep their
chunks. -/
structure Advance (sha : Chunk → Sha256) (s t : Storage) : Prop where
  rep : s.Rep sha → t.Rep sha
  created : s.Rep sha → s.created ≤ t.created
  content : s.Rep sha → ∀ o, o < s.created → t.Live o → s.Live o ∧ t.content o = s.content o

theorem Advance.refl (sha : Chunk → Sha256) (s : Storage) : Advance sha s s := ⟨id, fun _ => le_rfl, fun _ _ _ live => ⟨live, rfl⟩⟩

theorem Advance.trans {u : Storage} (first : Advance sha s t) (second : Advance sha t u) : Advance sha s u := by
  refine ⟨second.rep ∘ first.rep, fun rep => (first.created rep).trans (second.created (first.rep rep)), fun rep o made live => ?_⟩
  have mid := second.content (first.rep rep) o (made.trans_le (first.created rep)) live
  have last := first.content rep o made mid.1
  exact ⟨last.1, mid.2.trans last.2⟩

theorem Advance.of_rep (advance : s.Rep sha → Advance sha s t) : Advance sha s t :=
  ⟨fun rep => (advance rep).rep rep, fun rep => (advance rep).created rep, fun rep => (advance rep).content rep⟩

instance : IsPreorder Storage (Advance sha) where
  refl := Advance.refl sha
  trans _ _ _ := Advance.trans

theorem live_congr (objects : t.objects = s.objects) (o : Nat) : t.Live o ↔ s.Live o := by
  unfold Live
  rw [objects]

/-- The slots of the live objects stay, and the accounting has no more to give. -/
theorem advance_of_holds (objects : t.objects = s.objects) (created : t.created = s.created) (hashesIndex : t.hashesIndex = s.hashesIndex)
    (accounting : s.Rep sha → t.accounting.Ok ∧ ∀ o, s.Live o → ¬t.accounting.Free (s.objects o).bucketIndex)
    (holds : s.Rep sha → ∀ o, s.Live o → t.Holds (s.objects o).bucketIndex o ∧ t.content o = s.content o) : Advance sha s t := by
  refine ⟨fun rep => ⟨?_, ?_, ?_, ?_, ?_, ?_, ?_, ?_, (accounting rep).1, ?_, ?_⟩, fun _ => created.ge, fun rep o _ live => ?_⟩
  · intro o live
    rw [hashesIndex, objects]
    exact rep.index o ((live_congr objects o).mp live)
  · intro sum o there
    rw [hashesIndex] at there
    rw [live_congr objects, objects]
    exact rep.known sum o there
  · intro o live
    rw [objects]
    exact (holds rep o ((live_congr objects o).mp live)).1
  · intro o live
    rw [live_congr objects] at live
    rw [(holds rep o live).2, objects]
    exact rep.chunk o live
  · intro o c live data
    rw [live_congr objects] at live
    rw [objects] at data
    rw [(holds rep o live).2]
    exact rep.data o c live data
  · intro o live
    rw [objects]
    exact (accounting rep).2 o ((live_congr objects o).mp live)
  · intro o live
    rw [objects]
    exact rep.positive o ((live_congr objects o).mp live)
  · intro o live
    rw [created]
    exact rep.made o ((live_congr objects o).mp live)
  · rw [live_congr objects, objects]
    exact rep.zero
  · rw [objects]
    exact rep.fixed
  · have before := (live_congr objects o).mp live
    exact ⟨before, (holds rep o before).2⟩

theorem SameOn.advance (same : SameData s t) : Advance sha s t := by
  refine advance_of_holds same.objects same.created same.hashesIndex (fun rep => ?_) (fun rep o live => ?_)
  · rw [same.accounting]
    exact ⟨rep.accounting, rep.unavailable⟩
  · have held := same.holds _ o trivial (rep.holds o live)
    refine ⟨held.1, ?_⟩
    unfold content
    rw [same.objects]
    exact held.2

theorem objects_setObject_self (o : Nat) (h : Hash) (s : Storage) : (s.setObject o h).objects o = h := Function.update_self o _ _

theorem objects_setObject_of_ne {o' : Nat} (different : o' ≠ o) (h : Hash) (s : Storage) : (s.setObject o h).objects o' = s.objects o' :=
  Function.update_of_ne different _ _

/-- Another count or another copy of the chunk in a hash object. -/
theorem advance_setObject {n : Int} {d : Option Chunk} (data : s.Rep sha → s.Live o → ∀ c, d = some c → c = s.content o)
    (zero : s.Rep sha → o = zeroHash → d = some .zero) : Advance sha s (s.setObject o { s.objects o with refcnt := n, data := d }) := by
  have other : ∀ o', ((s.setObject o { s.objects o with refcnt := n, data := d }).objects o').sum = (s.objects o').sum ∧
      ((s.setObject o { s.objects o with refcnt := n, data := d }).objects o').bucketIndex = (s.objects o').bucketIndex ∧
      ((s.setObject o { s.objects o with refcnt := n, data := d }).objects o').deleted = (s.objects o').deleted ∧
      ((s.setObject o { s.objects o with refcnt := n, data := d }).objects o').fixed = (s.objects o').fixed := by
    intro o'
    by_cases same : o' = o
    · subst same
      rw [objects_setObject_self]
      exact ⟨rfl, rfl, rfl, rfl⟩
    · rw [objects_setObject_of_ne same]
      exact ⟨rfl, rfl, rfl, rfl⟩
  have live : ∀ {o'}, (s.setObject o { s.objects o with refcnt := n, data := d }).Live o' → s.Live o' := fun {o'} alive => (other o').2.2.1.symm.trans alive
  have content : ∀ o', (s.setObject o { s.objects o with refcnt := n, data := d }).content o' = s.content o' := by
    intro o'
    unfold Storage.content
    rw [(other o').2.1]
    rfl
  refine ⟨fun rep => ⟨?_, ?_, ?_, ?_, ?_, ?_, ?_, ?_, rep.accounting, ?_, ?_⟩, fun _ => le_rfl, fun rep o' _ alive => ⟨live alive, content o'⟩⟩
  · intro o' alive
    rw [(other o').1]
    exact rep.index o' (live alive)
  · intro sum o' there
    rw [(other o').1]
    have before := rep.known sum o' there
    exact ⟨(other o').2.2.1.trans before.1, before.2⟩
  · intro o' alive
    rw [(other o').2.1]
    exact rep.holds o' (live alive)
  · intro o' alive
    rw [content, (other o').1]
    exact rep.chunk o' (live alive)
  · intro o' c alive there
    rw [content]
    by_cases same : o' = o
    · subst same
      rw [objects_setObject_self] at there
      exact data rep (live alive) c there
    · rw [objects_setObject_of_ne same] at there
      exact rep.data o' c (live alive) there
  · intro o' alive
    rw [(other o').2.1]
    exact rep.unavailable o' (live alive)
  · intro o' alive
    rw [(other o').2.1]
    exact rep.positive o' (live alive)
  · exact fun o' alive => rep.made o' (live alive)
  · refine ⟨(other zeroHash).2.2.1.trans rep.zero.1, (other zeroHash).2.2.2.trans rep.zero.2.1, ?_, (other zeroHash).2.1.trans rep.zero.2.2.2⟩
    by_cases same : zeroHash = o
    · rw [← same, objects_setObject_self]
      exact zero rep same.symm
    · rw [objects_setObject_of_ne same]
      exact rep.zero.2.2.1
  · intro o' fixed
    exact rep.fixed o' ((other o').2.2.2.symm.trans fixed)

theorem clearData_within (o : Nat) : Run.Within (Advance sha) (clearData o) := by
  apply Run.Within.modify
  intro s
  split
  · exact Advance.refl sha s
  · rename_i loose
    refine advance_setObject (n := (s.objects o).refcnt) (fun _ _ c none => ?_) (fun rep same => ?_)
    · cases none
    · subst same
      exact absurd rep.zero.2.1 loose

theorem advance_recount (s : Storage) (o : Nat) (n : Int) : Advance sha s (s.recount o n) := by
  refine advance_setObject (d := (s.objects o).data) (fun rep live c there => rep.data o c live there) (fun rep same => ?_)
  subst same
  exact rep.zero.2.2.1

/-- The chunk that is handed out for a live hash object. -/
theorem data_spec {c : Chunk} (ran : data o s = some (c, t)) : Advance sha s t ∧ (s.Rep sha → s.Live o → c = s.content o ∧ t.Live o ∧ t.content o = s.content o) := by
  obtain ⟨_, _, got, rest⟩ := Run.bind_eq_some.mp ran
  cases got
  cases there : (s.objects o).data with
  | some c' =>
    simp only [there] at rest
    cases rest
    exact ⟨Advance.refl sha s, fun rep live => ⟨rep.data o c live there, live, rfl⟩⟩
  | none =>
    simp only [there] at rest
    split at rest
    · cases rest
    · rename_i loose
      obtain ⟨c', mid, got, rest⟩ := Run.bind_eq_some.mp rest
      obtain ⟨same, content⟩ := getChunk_spec got
      obtain ⟨_, _, changed, rest⟩ := Run.bind_eq_some.mp rest
      cases changed
      cases rest
      have stays : s.Rep sha → s.Live o → c = s.content o := by
        intro rep live
        exact content.trans (same.holds _ o trivial (rep.holds o live)).2
      have objects : s.objects o = mid.objects o := by rw [same.objects]
      have step : Advance sha mid (mid.setObject o { s.objects o with data := some c }) := by
        rw [objects]
        refine advance_setObject (n := (mid.objects o).refcnt) (fun rep live c' there => ?_) (fun rep same => ?_)
        · cases there
          rw [content, objects]
          rfl
        · subst same
          rw [objects] at loose
          exact absurd rep.zero.2.1 loose
      refine ⟨same.advance.trans step, fun rep live => ?_⟩
      have made := rep.made o live
      have still : (mid.setObject o { s.objects o with data := some c }).Live o := by
        unfold Live
        rw [objects_setObject_self]
        exact live
      exact ⟨stays rep live, still, ((same.advance.trans step).content rep o made still).2⟩

theorem incRefCnt_within (o n : Nat) : Run.Within (Advance sha) (incRefCnt o n) := by
  intro s a t ran
  obtain ⟨_, _, changed, rest⟩ := Run.bind_eq_some.mp ran
  cases changed
  obtain ⟨_, _, got, rest⟩ := Run.bind_eq_some.mp rest
  cases got
  refine (advance_recount s o n).trans ?_
  split at rest
  · obtain ⟨_, mid, holds, rest⟩ := Run.bind_eq_some.mp rest
    obtain ⟨_, rfl⟩ := Run.assert_eq_some.mp holds
    exact (hashChanged_spec rest).advance
  · cases rest
    exact Advance.refl sha _

theorem addChange_within (je : Bool) (hashes : List Nat) : Run.Within (Advance sha) (addChange je hashes) :=
  fun _ _ _ ran => (addChange_spec ran).advance

/-- A hash object goes from the index and from its slot, and its index is available again. -/
theorem deleteHash_spec (loose : (s.objects o).fixed = false) (alive : s.Live o) (ran : deleteHash o (s.objects o) s = some ((), t)) :
    Advance sha s t := by
  obtain ⟨h, shape⟩ : ∃ h, s.objects o = h := ⟨_, rfl⟩
  rw [shape] at ran loose
  obtain ⟨_, s₁, marked, rest⟩ := Run.bind_eq_some.mp ran
  cases marked
  obtain ⟨_, _, got, rest⟩ := Run.bind_eq_some.mp rest
  cases got
  obtain ⟨_, _, found, rest⟩ := Run.bind_eq_some.mp rest
  obtain ⟨there, rfl⟩ := Run.assert_eq_some.mp found
  obtain ⟨_, _, erased, rest⟩ := Run.bind_eq_some.mp rest
  cases erased
  obtain ⟨_, s₃, cleared, rest⟩ := Run.bind_eq_some.mp rest
  obtain ⟨_, s₄, posted, rest⟩ := Run.bind_eq_some.mp rest
  refine Advance.trans ?_ (clearData_within o _ _ _ rest)
  obtain ⟨same, _⟩ := putHashAndChunk_spec cleared
  obtain ⟨accounting, objects, created, hashesIndex, holds⟩ := post_spec posted
  rw [same.accounting] at accounting
  rw [same.objects] at objects
  rw [same.hashesIndex] at hashesIndex
  rw [same.created] at created
  change s.accounting.post h.bucketIndex = some s₄.accounting at accounting
  change s₄.objects = Function.update s.objects o _ at objects
  change s₄.hashesIndex = Function.update s.hashesIndex h.sum none at hashesIndex
  change s₄.created = s.created at created
  have gone : (s₄.objects o).deleted = true := by
    rw [objects, Function.update_self]
  have kept : ∀ {o'}, o' ≠ o → s₄.objects o' = s.objects o' := by
    intro o' different
    rw [objects, Function.update_of_ne different]
  have before : ∀ {o'}, s₄.Live o' → o' ≠ o ∧ s.Live o' := by
    intro o' live
    have different : o' ≠ o := by
      rintro rfl
      unfold Live at live
      rw [gone] at live
      cases live
    refine ⟨different, ?_⟩
    unfold Live at live ⊢
    rw [kept different] at live
    exact live
  have after : ∀ {o'}, o' ≠ o → s.Live o' → s₄.Live o' := by
    intro o' different live
    unfold Live at live ⊢
    rw [kept different]
    exact live
  have sums : s.Rep sha → ∀ {o'}, o' ≠ o → s.Live o' → (s.objects o').sum ≠ h.sum := by
    intro rep o' different live same
    have first := rep.index o' live
    have second := rep.index o alive
    rw [same] at first
    rw [shape] at second
    exact different (Option.some.inj (first.symm.trans second))
  have slots : s.Rep sha → ∀ {o'}, o' ≠ o → s.Live o' → (s.objects o').bucketIndex ≠ h.bucketIndex := by
    intro rep o' different live same
    exact different (rep.distinct live alive (same.trans (congrArg Hash.bucketIndex shape).symm))
  have free : s.Rep sha → s₄.accounting.Ok ∧ ∀ j, s₄.accounting.Free j ↔ s.accounting.Free j ∨ j = h.bucketIndex := by
    intro rep
    have positive := rep.positive o alive
    have absent := rep.unavailable o alive
    rw [shape] at positive absent
    exact Accounting.post_spec rep.accounting positive absent accounting
  have unavailable : s.Rep sha → ∀ {o'}, o' ≠ o → s.Live o' → ¬s₄.accounting.Free (s.objects o').bucketIndex := by
    intro rep o' different live there
    rcases ((free rep).2 _).mp there with before | same
    · exact rep.unavailable o' live before
    · exact slots rep different live same
  have held : s.Rep sha → ∀ {o'}, o' ≠ o → s.Live o' → s₄.Holds (s.objects o').bucketIndex o' ∧ s₄.content o' = s.content o' := by
    intro rep o' different live
    have first := same.holds _ o' (slots rep different live) (rep.holds o' live)
    have used : bucket (s.objects o').bucketIndex ∈ s₄.accounting.bucketsInUse := by
      by_contra unused
      exact unavailable rep different live (Or.inr ⟨rep.positive o' live, unused⟩)
    have second := holds _ o' used first.1
    refine ⟨second.1, ?_⟩
    unfold content
    rw [kept different]
    exact second.2.trans first.2
  refine ⟨fun rep => ⟨?_, ?_, ?_, ?_, ?_, ?_, ?_, ?_, (free rep).1, ?_, ?_⟩, fun _ => created.ge, fun rep o' _ live => ?_⟩
  · intro o' live
    obtain ⟨different, live⟩ := before live
    rw [kept different, hashesIndex, Function.update_of_ne (sums rep different live)]
    exact rep.index o' live
  · intro sum o' found
    rw [hashesIndex] at found
    have other : sum ≠ h.sum := by
      rintro rfl
      rw [Function.update_self] at found
      cases found
    rw [Function.update_of_ne other] at found
    obtain ⟨live, equal⟩ := rep.known sum o' found
    have different : o' ≠ o := by
      rintro rfl
      exact other (equal.symm.trans (congrArg Hash.sum shape))
    rw [kept different]
    exact ⟨after different live, equal⟩
  · intro o' live
    obtain ⟨different, live⟩ := before live
    rw [kept different]
    exact (held rep different live).1
  · intro o' live
    obtain ⟨different, live⟩ := before live
    rw [(held rep different live).2, kept different]
    exact rep.chunk o' live
  · intro o' c live data
    obtain ⟨different, live⟩ := before live
    rw [kept different] at data
    rw [(held rep different live).2]
    exact rep.data o' c live data
  · intro o' live
    obtain ⟨different, live⟩ := before live
    rw [kept different]
    exact unavailable rep different live
  · intro o' live
    obtain ⟨different, live⟩ := before live
    rw [kept different]
    exact rep.positive o' live
  · intro o' live
    rw [created]
    exact rep.made o' (before live).2
  · have different : zeroHash ≠ o := by
      rintro rfl
      have fixed := rep.zero.2.1
      rw [shape, loose] at fixed
      cases fixed
    rw [kept different]
    exact ⟨after different rep.zero.1, rep.zero.2⟩
  · intro o' fixed
    by_cases same : o' = o
    · subst same
      rw [objects, Function.update_self] at fixed
      rw [loose] at fixed
      cases fixed
    · rw [kept same] at fixed
      exact rep.fixed o' fixed
  · obtain ⟨different, live⟩ := before live
    exact ⟨live, (held rep different live).2⟩

theorem decRefCnt_within (o : Nat) : Run.Within (Advance sha) (decRefCnt o) := by
  intro s a t ran
  obtain ⟨_, _, changed, rest⟩ := Run.bind_eq_some.mp ran
  cases changed
  obtain ⟨_, _, got, rest⟩ := Run.bind_eq_some.mp rest
  cases got
  refine (advance_recount s o (-1)).trans ?_
  split at rest
  · rename_i flags
    obtain ⟨_, mid, deleted, rest⟩ := Run.bind_eq_some.mp rest
    refine Advance.trans ?_ (hashChanged_spec rest).advance
    unfold deleteUnused at deleted
    split at deleted
    · exact deleteHash_spec flags.1 flags.2 deleted
    · cases deleted
      exact Advance.refl sha _
  · cases rest
    exact Advance.refl sha _

/-- An index that nobody has goes to a new hash object, which is found by its sum. -/
theorem addHash_spec {c : Chunk} {i : BucketIndex} (absent : s.hashesIndex (sha c) = none) (fresh : ∀ o', s.Live o' → (s.objects o').bucketIndex ≠ i)
    (positive : 0 < bucket i) (unavailable : ¬s.accounting.Free i) (ran : addHash (sha c) c i s = some (o, t)) :
    Advance sha s t ∧ t.content o = c ∧ t.Live o := by
  obtain ⟨_, _, got, rest⟩ := Run.bind_eq_some.mp ran
  cases got
  obtain ⟨_, _, made, rest⟩ := Run.bind_eq_some.mp rest
  cases made
  obtain ⟨_, s₂, put, rest⟩ := Run.bind_eq_some.mp rest
  obtain ⟨_, _, inserted, rest⟩ := Run.bind_eq_some.mp rest
  cases inserted
  cases rest
  obtain ⟨same, chunk, slot⟩ := putHashAndChunk_spec put
  have objects : s₂.objects = Function.update s.objects s.created ⟨sha c, i, 0, some c, false, false⟩ := same.objects
  have own : s₂.objects s.created = ⟨sha c, i, 0, some c, false, false⟩ := by
    rw [objects, Function.update_self]
  have kept : ∀ {o'}, o' ≠ s.created → s₂.objects o' = s.objects o' := by
    intro o' different
    rw [objects, Function.update_of_ne different]
  obtain ⟨t, result⟩ : ∃ t : Storage, t = { s₂ with hashesIndex := Function.update s₂.hashesIndex (sha c) (some s.created) } := ⟨_, rfl⟩
  dsimp only
  rw [← result]
  have objects' : t.objects = s₂.objects := by rw [result]
  have index : t.hashesIndex = Function.update s.hashesIndex (sha c) (some s.created) := by
    rw [result]
    exact congrArg (fun f => Function.update f (sha c) (some s.created)) same.hashesIndex
  have accounting : t.accounting = s.accounting := by
    rw [result]
    exact same.accounting
  have created : t.created = s.created + 1 := by
    rw [result]
    exact same.created
  have holdsOf : ∀ {j o'}, s₂.Holds j o' → t.Holds j o' := fun held => result ▸ held
  have chunkOf : ∀ j, t.chunkAt j = s₂.chunkAt j := fun j => by rw [result]; rfl
  have split : ∀ {o'}, t.Live o' → o' = s.created ∨ (o' ≠ s.created ∧ s.Live o') := by
    intro o' live
    by_cases new : o' = s.created
    · exact Or.inl new
    · unfold Live at live
      rw [objects', kept new] at live
      exact Or.inr ⟨new, live⟩
  have older : s.Rep sha → ∀ {o'}, s.Live o' → o' ≠ s.created := fun rep o' live => (rep.made o' live).ne
  have held : s.Rep sha → ∀ {o'}, s.Live o' → t.Holds (s.objects o').bucketIndex o' ∧ t.content o' = s.content o' := by
    intro rep o' live
    have both := same.holds _ o' (fresh o' live) (rep.holds o' live)
    refine ⟨holdsOf both.1, ?_⟩
    unfold content
    rw [objects', kept (older rep live), chunkOf]
    exact both.2
  have content : t.content s.created = c := by
    unfold content
    rw [objects', own, chunkOf]
    exact chunk
  have alive : t.Live s.created := by
    unfold Live
    rw [objects', own]
  have live : s.Rep sha → ∀ {o'}, s.Live o' → t.Live o' := by
    intro rep o' before
    unfold Live at before ⊢
    rw [objects', kept (older rep before)]
    exact before
  refine ⟨⟨fun rep => ⟨?_, ?_, ?_, ?_, ?_, ?_, ?_, ?_, ?_, ?_, ?_⟩, fun _ => by omega, fun rep o' old live => ?_⟩, content, alive⟩
  · intro o' now
    rcases split now with rfl | ⟨different, before⟩
    · rw [objects', own, index, Function.update_self]
    · rw [objects', kept different, index]
      have other : (s.objects o').sum ≠ sha c := by
        intro same
        have there := rep.index o' before
        rw [same, absent] at there
        cases there
      rw [Function.update_of_ne other]
      exact rep.index o' before
  · intro sum o' there
    rw [index] at there
    by_cases new : sum = sha c
    · subst new
      rw [Function.update_self] at there
      cases there
      refine ⟨alive, ?_⟩
      rw [objects', own]
    · rw [Function.update_of_ne new] at there
      obtain ⟨before, same⟩ := rep.known sum o' there
      rw [objects', kept (older rep before)]
      exact ⟨live rep before, same⟩
  · intro o' now
    rcases split now with rfl | ⟨different, before⟩
    · rw [objects', own]
      exact holdsOf (slot s.created rfl)
    · rw [objects', kept different]
      exact (held rep before).1
  · intro o' now
    rcases split now with rfl | ⟨different, before⟩
    · rw [content, objects', own]
    · rw [(held rep before).2, objects', kept different]
      exact rep.chunk o' before
  · intro o' c' now data
    rcases split now with rfl | ⟨different, before⟩
    · rw [objects', own] at data
      cases data
      exact content.symm
    · rw [objects', kept different] at data
      rw [(held rep before).2]
      exact rep.data o' c' before data
  · intro o' now
    rw [accounting]
    rcases split now with rfl | ⟨different, before⟩
    · rw [objects', own]
      exact unavailable
    · rw [objects', kept different]
      exact rep.unavailable o' before
  · intro o' now
    rcases split now with rfl | ⟨different, before⟩
    · rw [objects', own]
      exact positive
    · rw [objects', kept different]
      exact rep.positive o' before
  · intro o' now
    rw [created]
    rcases split now with rfl | ⟨_, before⟩
    · exact Nat.lt_succ_self _
    · exact (rep.made o' before).trans (Nat.lt_succ_self _)
  · rw [accounting]
    exact rep.accounting
  · rw [objects', kept (older rep rep.zero.1)]
    exact ⟨live rep rep.zero.1, rep.zero.2⟩
  · intro o' fixed
    rw [objects'] at fixed
    by_cases new : o' = s.created
    · subst new
      rw [own] at fixed
      cases fixed
    · rw [kept new] at fixed
      exact rep.fixed o' fixed
  · rcases split live with rfl | ⟨_, before⟩
    · exact absurd old (Nat.lt_irrefl _)
    · exact ⟨before, (held rep before).2⟩

theorem fetch_step {i : BucketIndex} (ran : fetch s = some (i, t)) : Advance sha s t ∧ t.hashesIndex = s.hashesIndex ∧
    (s.Rep sha → 0 < bucket i ∧ ¬t.accounting.Free i ∧ ∀ o, t.Live o → (t.objects o).bucketIndex ≠ i) := by
  obtain ⟨⟨j, a⟩, fetched, shape⟩ := Option.map_eq_some_iff.mp ran
  cases shape
  have spec := fun rep : s.Rep sha => Accounting.fetch_spec rep.accounting fetched
  refine ⟨?_, rfl, fun rep => ?_⟩
  · refine advance_of_holds rfl rfl rfl (fun rep => ⟨(spec rep).1, fun o live there => ?_⟩) (fun rep o live => ⟨rep.holds o live, rfl⟩)
    exact rep.unavailable o live (((spec rep).2.2 _).mp there).1
  · obtain ⟨_, free, others⟩ := spec rep
    refine ⟨?_, fun there => ((others _).mp there).2 rfl, fun o live same => ?_⟩
    · rcases free with ⟨node, member, rfl⟩ | ⟨positive, _⟩
      · exact rep.accounting.positive node member
      · exact positive
    · exact rep.unavailable o live (same ▸ free)

/-- The hash object has the chunk, or the content it had all along and the same sum. -/
theorem newHash_spec {c : Chunk} (ran : newHash (sha c) c s = some (o, t)) :
    Advance sha s t ∧ (s.Rep sha → t.Live o ∧ (t.content o = c ∨ s.Live o ∧ t.content o = s.content o ∧ sha (s.content o) = sha c)) := by
  obtain ⟨_, _, got, rest⟩ := Run.bind_eq_some.mp ran
  cases got
  cases there : s.hashesIndex (sha c) with
  | some o' =>
    simp only [there] at rest
    obtain ⟨d, mid, loaded, rest⟩ := Run.bind_eq_some.mp rest
    cases rest
    obtain ⟨step, stays⟩ : Advance sha _ _ ∧ _ := data_spec loaded
    refine ⟨step, fun rep => ?_⟩
    obtain ⟨live, same⟩ := rep.known _ _ there
    obtain ⟨_, alive, kept⟩ := stays rep live
    refine ⟨alive, Or.inr ⟨live, kept, ?_⟩⟩
    rw [rep.chunk o live, same]
  | none =>
    simp only [there] at rest
    obtain ⟨i, mid, fetched, rest⟩ := Run.bind_eq_some.mp rest
    obtain ⟨step, index, facts⟩ : Advance sha _ _ ∧ _ := fetch_step fetched
    have absent : mid.hashesIndex (sha c) = none := by
      rw [index]
      exact there
    have later := fun rep : s.Rep sha => addHash_spec absent (facts rep).2.2 (facts rep).1 (facts rep).2.1 rest
    exact ⟨Advance.of_rep (fun rep => step.trans (later rep).1), fun rep => ⟨(later rep).2.2, Or.inl (later rep).2.1⟩⟩

theorem newHash_within (c : Chunk) : Run.Within (Advance sha) (newHash (sha c) c) := fun _ _ _ ran => (newHash_spec ran).1

theorem data_within (o : Nat) : Run.Within (Advance sha) (data o) := fun _ _ _ ran => (data_spec ran).1

theorem readHash_within (o offset size : Nat) : Run.Within (Advance sha) (readHash o offset size) := by
  refine Run.Within.bind (data_within o) (fun d => ?_)
  split
  · exact Run.Within.pure _
  · exact Run.Within.abort

theorem writeHash_within (o offset : Nat) (input : Str) : Run.Within (Advance sha) (writeHash sha o offset input) := by
  refine Run.Within.bind (data_within o) (fun d => ?_)
  split
  · exact Run.Within.abort
  · apply Run.Within.get_bind
    intro s n t ran
    split at ran
    · cases ran
      exact Advance.refl sha s
    · exact Run.Within.bind (newHash_within _) (fun _ => Run.Within.pure _) _ _ _ ran

/-- Whatever files do to the hashes goes on from one such state to the next. -/
theorem hashOps_within (je : Bool) : (hashOps sha je).Within (Advance sha) where
  read := readHash_within
  write := writeHash_within
  incRefCnt := incRefCnt_within
  decRefCnt := decRefCnt_within
  getRefCnt _ := Run.Within.get_bind (fun s _ _ ran => by cases ran; exact Advance.refl sha s)
  rest := clearData_within
  addChange := addChange_within je

end Storage

end CloudCryptFS.Filesystem
