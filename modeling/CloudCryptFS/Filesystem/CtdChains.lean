import CloudCryptFS.Filesystem.Ctds

/-! What is written on a chain of records is read from it again, whatever stood there
before. -/

namespace CloudCryptFS.Filesystem
open Util Bytes Pages Script.Lexer
open BucketIndex (bucket)

namespace Metadata
variable {s t u : Metadata} {l new : List BucketIndex}

/-- The record is stored at its own index. -/
def Own (s : Metadata) (i : BucketIndex) : Prop := ∃ c, s.ctds i = some c ∧ c.myID = i

/-- Some records are written to, and new ones come to them. -/
structure Grown (s t : Metadata) (l new : List BucketIndex) : Prop where
  inode : t.inode = s.inode
  others : ∀ i, i ∉ l → i ∉ new → t.ctds i = s.ctds i
  own : (∀ i ∈ l, s.Own i) → ∀ i ∈ l ++ new, t.Own i
  ready : t.accounting.Ready
  distinct : new.Nodup
  fresh : ∀ i ∈ new, s.accounting.Free i
  free : ∀ i, t.accounting.Free i ↔ s.accounting.Free i ∧ i ∉ new

theorem Grown.trans {l' new' : List BucketIndex} (first : Grown s t l new) (second : Grown t u l' new') (inside : l' ⊆ l ++ new) :
    Grown s u l (new ++ new') := by
  have notLater : ∀ i, i ∉ l → i ∉ new → i ∉ l' := by
    intro i outside absent again
    exact (List.mem_append.mp (inside again)).elim outside absent
  refine ⟨second.inode.trans first.inode, fun i outside absent => ?_, fun own i member => ?_, second.ready, ?_, fun i member => ?_, fun i => ?_⟩
  · rw [List.mem_append, not_or] at absent
    exact (second.others i (notLater i outside absent.1) absent.2).trans (first.others i outside absent.1)
  · have before := first.own own
    by_cases later : i ∈ l' ++ new'
    · exact second.own (fun j member => before j (inside member)) i later
    · rw [List.mem_append, not_or] at later
      rw [← List.append_assoc, List.mem_append] at member
      have same := second.others i later.1 later.2
      rw [Own, same]
      exact before i (member.resolve_right later.2)
  · apply List.nodup_append.mpr
    refine ⟨first.distinct, second.distinct, fun i here j there same => ?_⟩
    exact ((first.free j).mp (second.fresh j there)).2 (same ▸ here)
  · cases List.mem_append.mp member with
    | inl old => exact first.fresh i old
    | inr added => exact ((first.free i).mp (second.fresh i added)).1
  · rw [second.free, first.free, List.mem_append, not_or, and_assoc]

theorem Grown.refl (ready : s.accounting.Ready) : Grown s s [] [] :=
  ⟨rfl, fun _ _ _ => rfl, fun _ _ member => absurd member List.not_mem_nil, ready, List.nodup_nil, fun _ member => absurd member List.not_mem_nil,
    fun _ => (and_iff_left List.not_mem_nil).symm⟩

/-- The inode is apart from the records. -/
theorem Grown.withInode (grown : Grown s t l new) (n : InodeChunk) : Grown { s with inode := n } { t with inode := n } l new :=
  ⟨rfl, grown.others, grown.own, grown.ready, grown.distinct, grown.fresh, grown.free⟩

theorem Grown.mono {m : List BucketIndex} (grown : Grown s t l new) (inside : l ⊆ m) : Grown s t m new := by
  refine ⟨grown.inode, fun i outside absent => grown.others i (fun again => outside (inside again)) absent, fun own i member => ?_,
    grown.ready, grown.distinct, grown.fresh, grown.free⟩
  by_cases here : i ∈ l ++ new
  · exact grown.own (fun j member => own j (inside member)) i here
  · rw [List.mem_append, not_or] at here
    rw [Own, grown.others i here.1 here.2]
    exact own i ((List.mem_append.mp member).resolve_right here.2)

/-- What was not free, or has come to the chain, is not free. -/
theorem Grown.apart (grown : Grown s t l new) (before : ∀ i ∈ l, ¬s.accounting.Free i) : ∀ i ∈ l ++ new, ¬t.accounting.Free i := by
  intro i member again
  obtain ⟨free, absent⟩ := (grown.free i).mp again
  cases List.mem_append.mp member with
  | inl old => exact before i old free
  | inr added => exact absent added

section Steps

theorem link_eq_none {i : BucketIndex} : link i = none ↔ i = 0 := by
  unfold link
  split <;> simp_all

theorem link_eq_some {i j : BucketIndex} : link i = some j ↔ i ≠ 0 ∧ i = j := by
  unfold link
  split <;> simp_all

theorem inoToChunk_spec {c : BucketIndex} {p : InodeCtd} (found : s.ctds c = some p) : inoToChunk c s = some (p, s) := by
  rw [inoToChunk, found, Option.map_some]

/-- One item is put into a record. -/
theorem modifyCtd_spec {c : BucketIndex} {p : InodeCtd} (found : s.ctds c = some p) (f : InodeCtd → InodeCtd) :
    modifyCtd c f s = some ((), { s with ctds := Function.update s.ctds c (some (f p)) }) := by
  rw [modifyCtd, found, Option.map_some]

theorem modifyCtd_grown (ready : s.accounting.Ready) {c : BucketIndex} {p : InodeCtd} (found : s.ctds c = some p) {f : InodeCtd → InodeCtd}
    (same : (f p).myID = p.myID) : Grown s { s with ctds := Function.update s.ctds c (some (f p)) } [c] [] := by
  refine ⟨rfl, fun i outside _ => ?_, fun own i member => ?_, ready, List.nodup_nil, fun _ member => absurd member List.not_mem_nil,
    fun _ => (and_iff_left List.not_mem_nil).symm⟩
  · exact Function.update_of_ne (fun here => outside (List.mem_singleton.mpr here)) _ _
  · rw [List.append_nil, List.mem_singleton] at member
    obtain ⟨q, there, mine⟩ := own c (List.mem_singleton_self c)
    rw [found] at there
    cases there
    rw [member]
    exact ⟨f p, Function.update_self _ _ _, same.trans mine⟩

/-- A new record: it is empty and has an index that was free. -/
theorem newCtd_spec (ready : s.accounting.Ready) :
    ∃ i t, newCtd s = some (i, t) ∧ i ≠ 0 ∧ Grown s t [] [i] ∧ t.ctds i = some { InodeCtd.zero with myID := i } := by
  obtain ⟨i, b, fetched, ready', nonzero, was, free⟩ := ready.fetch
  refine ⟨i, { s with accounting := b, ctds := Function.update s.ctds i (some { InodeCtd.zero with myID := i }) }, ?_, nonzero,
    ⟨rfl, fun j _ absent => ?_, fun _ j member => ?_, ready', List.nodup_singleton i, fun j member => ?_, fun j => ?_⟩, Function.update_self _ _ _⟩
  · rw [newCtd, fetched, Option.map_some]
  · exact Function.update_of_ne (fun same => absent (List.mem_singleton.mpr same)) _ _
  · rw [List.nil_append, List.mem_singleton] at member
    rw [member]
    exact ⟨_, Function.update_self _ _ _, rfl⟩
  · exact List.mem_singleton.mp member ▸ was
  · rw [List.mem_singleton]
    exact free j

/-- The next record after one, where there is one. -/
theorem createCtdAfter_next {c d : BucketIndex} {p : InodeCtd} (found : s.ctds c = some p) (next : p.next = some d) :
    createCtdAfter c s = some (d, s) := by
  obtain ⟨nonzero, same⟩ := link_eq_some.mp next
  rw [createCtdAfter, Run.bind_of_some (inoToChunk_spec found), if_neg nonzero, same]
  rfl

/-- Where there is none, a new one is linked. -/
theorem createCtdAfter_new {c : BucketIndex} {p : InodeCtd} (ready : s.accounting.Ready) (apart : ¬s.accounting.Free c)
    (found : s.ctds c = some p) (last : p.next = none) :
    ∃ d t, createCtdAfter c s = some (d, t) ∧ Grown s t [c] [d] ∧ d ≠ 0 ∧ t.ctds c = some { p with nextID := d } ∧
      t.ctds d = some { InodeCtd.zero with myID := d } := by
  have zero : p.nextID = 0 := link_eq_none.mp last
  obtain ⟨d, mid, made, nonzero, grown, empty⟩ := newCtd_spec ready
  have different : c ≠ d := fun same => apart (same ▸ grown.fresh d (List.mem_singleton_self d))
  have there : mid.ctds c = some p := (grown.others c List.not_mem_nil (fun member => different (List.mem_singleton.mp member))).trans found
  have linked := modifyCtd_spec there (fun c => { c with nextID := d })
  have whole := (grown.mono (List.nil_subset [c])).trans (modifyCtd_grown grown.ready there (f := fun c => { c with nextID := d }) rfl)
    (List.subset_append_left [c] [d])
  refine ⟨d, { mid with ctds := Function.update mid.ctds c (some { p with nextID := d }) }, ?_, whole, nonzero, Function.update_self _ _ _,
    (Function.update_of_ne different.symm _ _).trans empty⟩
  rw [createCtdAfter, Run.bind_of_some (inoToChunk_spec found), if_pos zero,
    Run.bind_of_some made, Run.bind_of_some linked]
  rfl

end Steps

section Write
variable {α : Type} (L : Layout α)

/-- A text that is longer than its first part begins a new part. -/
theorem splice_step {first : List α} (rest : List α) {idx : Nat} (a : α) (input : List α) (last : idx + 1 = first.length) :
    splice (first ++ rest) idx (a :: input) = splice first idx [a] ++ splice rest 0 input := by
  have amount : min (a :: input).length (first.length - idx) = 1 := by
    rw [List.length_cons]
    omega
  rw [splice_append rest (a :: input) (by omega), amount]
  rfl

/-- The input stands on the chain from its place on, and the rest is as before. The chain
gets as many records as are missing. -/
theorem writeOn_spec {input : List α} {s : Metadata} {c : BucketIndex} {rest : List BucketIndex} {idx : Nat}
    (path : Trail s.ctds InodeCtd.next (some c) (c :: rest)) (apart : ∀ i ∈ c :: rest, ¬s.accounting.Free i) (ready : s.accounting.Ready)
    (inside : idx < L.size) :
    ∃ t new, writeOn L.put L.size input idx c s = some ((), t) ∧ Grown s t (c :: rest) new ∧
      Trail t.ctds InodeCtd.next (some c) (c :: rest ++ new) ∧
      ((∀ a ∈ input, L.Fits a) →
        text t.ctds L.view (c :: rest ++ new) = splice (text s.ctds L.view (c :: rest) ++ List.replicate (new.length * L.size) L.blank) idx input) ∧
      new.length = (idx + input.length) / L.size - rest.length := by
  induction input generalizing s c rest idx with
  | nil =>
    refine ⟨s, [], rfl, (Grown.refl ready).mono (List.nil_subset _), ?_, fun _ => ?_, ?_⟩
    · rw [List.append_nil]
      exact path
    · rw [splice_nil, List.append_nil, List.length_nil, Nat.zero_mul, List.replicate_zero, List.append_nil]
    · rw [List.length_nil, List.length_nil, Nat.add_zero, Nat.div_eq_of_lt inside, Nat.zero_sub]
  | cons a input ih =>
    obtain ⟨p, _, found, same, restPath⟩ := path.of_some
    cases same
    have distinct := List.nodup_cons.mp path.nodup
    have fitsLater : (∀ b ∈ a :: input, L.Fits b) → ∀ b ∈ input, L.Fits b := fun fits b member => fits b (List.mem_cons_of_mem _ member)
    let p' := L.put idx a p
    obtain ⟨s', shape⟩ : ∃ s' : Metadata, s' = { s with ctds := Function.update s.ctds c (some p') } := ⟨_, rfl⟩
    have put : modifyCtd c (L.put idx a) s = some ((), s') := (modifyCtd_spec found _).trans (by rw [shape])
    have grown : Grown s s' [c] [] := shape ▸ modifyCtd_grown ready found (L.myID_put p idx a)
    have found' : s'.ctds c = some p' := by
      rw [shape]
      exact Function.update_self _ _ _
    have others : ∀ i ∈ rest, s'.ctds i = s.ctds i := fun i member =>
      grown.others i (fun here => distinct.1 (List.mem_singleton.mp here ▸ member)) List.not_mem_nil
    have next : p'.next = p.next := congrArg link (L.nextID_put p idx a)
    have restPath' : Trail s'.ctds InodeCtd.next p'.next rest := by
      rw [next]
      exact restPath.congr others
    have view : (∀ b ∈ a :: input, L.Fits b) → L.view p' = splice (L.view p) idx [a] :=
      fun fits => L.view_put p idx a inside (fits a List.mem_cons_self)
    have textRest : text s'.ctds L.view rest = text s.ctds L.view rest := text_congr others
    have before : text s.ctds L.view (c :: rest) = L.view p ++ text s.ctds L.view rest := text_cons found
    have free : ∀ i, s'.accounting.Free i ↔ s.accounting.Free i := fun i => (grown.free i).trans (and_iff_left List.not_mem_nil)
    have apart' : ∀ i ∈ c :: rest, ¬s'.accounting.Free i := fun i member again => apart i member ((free i).mp again)
    have ran : writeOn L.put L.size (a :: input) idx c s =
        (if idx + 1 ≥ L.size then createCtdAfter c >>= writeOn L.put L.size input 0 else writeOn L.put L.size input (idx + 1) c) s' := by
      rw [writeOn, Run.bind_of_some put]
    rw [ran, before]
    by_cases last : idx + 1 ≥ L.size
    · have full : idx + 1 = (L.view p).length := by
        rw [L.length_view]
        omega
      have amount : (idx + (a :: input).length) / L.size = input.length / L.size + 1 := by
        have size := L.length_view p
        have sum : idx + (a :: input).length = input.length + L.size := by
          rw [List.length_cons]
          omega
        rw [sum, Nat.add_div_right _ L.positive]
      rw [if_pos last, amount]
      cases rest with
      | cons d rest =>
        have nextPage := restPath'.head_eq
        rw [List.head?_cons] at nextPage
        rw [nextPage] at restPath'
        obtain ⟨t, new, wrote, grown', path', text', length⟩ := ih restPath'
          (fun i member => apart' i (List.mem_cons_of_mem _ member)) grown.ready L.positive
        have whole : Grown s t (c :: d :: rest) new :=
          (grown.mono (List.cons_subset_cons c (List.nil_subset _))).trans grown' (by simp)
        have notNew : c ∉ new := fun member => apart' c List.mem_cons_self (grown'.fresh c member)
        have there : t.ctds c = some p' := (grown'.others c distinct.1 notNew).trans found'
        refine ⟨t, new, ?_, whole, .cons there (nextPage ▸ path'), fun fits => ?_, ?_⟩
        · rw [Run.bind_of_some (createCtdAfter_next found' nextPage)]
          exact wrote
        · rw [List.cons_append, text_cons there, text' (fitsLater fits), view fits, textRest, List.append_assoc, splice_step _ _ _ full]
        · rw [length, List.length_cons, Nat.zero_add]
          omega
      | nil =>
        obtain ⟨d, u, made, grown₁, nonzero, linked, empty⟩ := createCtdAfter_new grown.ready (apart' c List.mem_cons_self) found'
          restPath'.head_eq
        have newPath : Trail u.ctds InodeCtd.next (some d) [d] := .cons empty .nil
        have notFree : ∀ i ∈ [d], ¬u.accounting.Free i := fun i member again => ((grown₁.free i).mp again).2 member
        obtain ⟨t, new, wrote, grown', path', text', length⟩ := ih newPath notFree grown₁.ready L.positive
        have whole : Grown s t [c] (d :: new) := (grown.trans grown₁ (List.subset_append_left [c] [])).trans grown' (by simp)
        have different : c ≠ d := fun same => apart' c List.mem_cons_self (same ▸ grown₁.fresh d (List.mem_singleton_self d))
        have notNew : c ∉ new := fun member => apart' c List.mem_cons_self ((grown₁.free c).mp (grown'.fresh c member)).1
        have there : t.ctds c = some { p' with nextID := d } :=
          (grown'.others c (fun member => different (List.mem_singleton.mp member)) notNew).trans linked
        have next' : ({ p' with nextID := d } : InodeCtd).next = some d := if_neg nonzero
        have blank : text u.ctds L.view [d] = List.replicate L.size L.blank := by
          rw [text_cons empty, text_nil, List.append_nil, L.view_zero]
        refine ⟨t, d :: new, ?_, whole, .cons there (next' ▸ path'), fun fits => ?_, ?_⟩
        · rw [Run.bind_of_some made]
          exact wrote
        · have amount : List.replicate ((d :: new).length * L.size) L.blank =
              List.replicate L.size L.blank ++ List.replicate (new.length * L.size) L.blank := by
            rw [← List.replicate_add, List.length_cons, Nat.succ_mul, Nat.add_comm]
          have line : text t.ctds L.view ([c] ++ d :: new) = L.view { p' with nextID := d } ++ text t.ctds L.view ([d] ++ new) := text_cons there
          rw [line, text' (fitsLater fits), L.view_link, view fits, blank, text_nil, List.append_nil, amount, splice_step _ _ _ full]
        · rw [List.length_cons, length]
          simp only [List.length_nil, Nat.zero_add, Nat.sub_zero]
    · rw [if_neg last]
      obtain ⟨t, new, wrote, grown', path', text', length⟩ := ih (.cons found' restPath') apart' grown.ready (Nat.lt_of_not_le last)
      refine ⟨t, new, wrote, ?_, path', fun fits => ?_, ?_⟩
      · exact (grown.mono (List.cons_subset_cons c (List.nil_subset _))).trans grown' (List.subset_append_left _ _)
      · have long : idx + 1 ≤ (L.view p).length := by
          rw [L.length_view]
          omega
        have one : splice (L.view p) idx [a] ++ text s.ctds L.view rest ++ List.replicate (new.length * L.size) L.blank =
            splice (L.view p ++ text s.ctds L.view rest ++ List.replicate (new.length * L.size) L.blank) idx [a] := by
          rw [List.append_assoc, List.append_assoc, splice_append_left _ long]
        rw [text' (fitsLater fits), text_cons found', view fits, textRest, one]
        exact splice_splice input (by simp only [List.length_append]; omega)
      · rw [length, List.length_cons, Nat.add_right_comm, Nat.add_assoc]

end Write

section Text

theorem view_charLayout (c : InodeCtd) : charLayout.view c = (List.range InodeCtd.charSize).map c.charContent := by
  rw [charLayout]

/-- The contents of the records of a chain, all of them. -/
theorem metaLoop_spec {c : BucketIndex} {rest : List BucketIndex} (path : Trail s.ctds InodeCtd.next (some c) (c :: rest)) {fuel : Nat}
    (enough : rest.length < fuel) : metaLoop fuel c s = some (text s.ctds charLayout.view (c :: rest), s) := by
  induction rest generalizing c fuel with
  | nil =>
    obtain ⟨p, _, found, same, last⟩ := path.of_some
    cases same
    obtain ⟨fuel, rfl⟩ := Nat.exists_eq_succ_of_ne_zero (Nat.ne_zero_of_lt enough)
    have zero : p.nextID = 0 := link_eq_none.mp last.head_eq
    rw [metaLoop, Run.bind_of_some (inoToChunk_spec found), if_pos zero, text_cons found, text_nil, List.append_nil,
      view_charLayout, Run.pure_apply]
  | cons d rest ih =>
    obtain ⟨p, _, found, same, later⟩ := path.of_some
    cases same
    obtain ⟨fuel, rfl⟩ := Nat.exists_eq_succ_of_ne_zero (Nat.ne_zero_of_lt enough)
    have next : p.nextID ≠ 0 ∧ p.nextID = d := link_eq_some.mp later.head_eq
    rw [metaLoop, Run.bind_of_some (inoToChunk_spec found), if_neg next.1, next.2]
    have followed := later.head_eq
    rw [List.head?_cons] at followed
    rw [followed] at later
    rw [Run.bind_of_some (ih later (Nat.lt_of_succ_lt_succ enough)), text_cons found, view_charLayout, Run.pure_apply]

/-- `createCtd` for metadata: the chain has a first record from then on. -/
theorem createCtd_meta {chain : List BucketIndex} (path : Trail s.ctds InodeCtd.next (link s.inode.metaID) chain) (ready : s.accounting.Ready) :
    ∃ c rest new t, createCtd true s = some (c, t) ∧ t.inode = { s.inode with metaID := c } ∧ c ≠ 0 ∧ chain ++ new = c :: rest ∧
      Trail t.ctds InodeCtd.next (some c) (c :: rest) ∧ Grown { s with inode := t.inode } t chain new := by
  by_cases zero : s.inode.metaID = 0
  · obtain ⟨i, mid, made, nonzero, grown, empty⟩ := newCtd_spec ready
    rw [zero, show link 0 = none from rfl] at path
    rw [path.of_none]
    refine ⟨i, [], [i], { mid with inode := { mid.inode with metaID := i } }, ?_, ?_, nonzero, rfl, .cons empty .nil, grown.withInode _⟩
    · unfold createCtd
      rw [Run.bind_of_some (Run.get_apply s), if_pos rfl, if_pos zero, Run.bind_of_some made]
      rfl
    · rw [grown.inode]
  · have head : link s.inode.metaID = some s.inode.metaID := if_neg zero
    rw [head] at path
    obtain ⟨p, rest, found, rfl, later⟩ := path.of_some
    refine ⟨s.inode.metaID, rest, [], s, ?_, rfl, zero, List.append_nil _, path, (Grown.refl ready).mono (List.nil_subset _)⟩
    unfold createCtd
    rw [Run.bind_of_some (Run.get_apply s), if_pos rfl, if_neg zero]
    rfl

/-- What follows the text is cut off, whether or not it ends in zeros. -/
theorem resize_rdropWhile {input : Str} (last : input.getLast? ≠ some 0) (tail : Str) :
    resize ((input ++ tail).rdropWhile (· == 0)) input.length = input := by
  have kept : ∃ tail', (input ++ tail).rdropWhile (· == 0) = input ++ tail' := by
    cases input using List.reverseRecOn with
    | nil => exact ⟨_, (List.nil_append _).symm⟩
    | append_singleton input b =>
      have nonzero : (b == 0) = false := by
        rw [List.getLast?_concat] at last
        exact beq_eq_false_iff_ne.mpr (fun same => last (congrArg some same))
      have stays : List.dropWhile (· == 0) (b :: input.reverse) = b :: input.reverse := List.dropWhile_cons_of_neg (by rw [nonzero]; decide)
      rw [List.rdropWhile, List.reverse_append, List.dropWhile_append]
      split
      · rw [List.reverse_append, List.reverse_singleton, List.singleton_append, stays]
        exact ⟨[], by simp⟩
      · exact ⟨(List.dropWhile (· == 0) tail.reverse).reverse, by simp⟩
  obtain ⟨tail', shape⟩ := kept
  rw [shape, resize, List.take_left' rfl, List.length_append, Nat.sub_eq_zero_of_le (Nat.le_add_right _ _), List.replicate_zero, List.append_nil]

/-- A text on the chain for metadata, which begins with it and gets the records that it needs. -/
theorem storeMetaDataInINode_spec {input : Str} (short : input.length < 2 ^ 32 - 1) {chain : List BucketIndex}
    (path : Trail s.ctds InodeCtd.next (link s.inode.metaID) chain) (apart : ∀ i ∈ chain, ¬s.accounting.Free i) (ready : s.accounting.Ready) :
    ∃ c rest new tail t, storeMetaDataInINode input s = some ((), t) ∧ t.inode = { s.inode with metasize := input.length, metaID := c } ∧ c ≠ 0 ∧
      chain ++ new = c :: rest ∧ Trail t.ctds InodeCtd.next (some c) (c :: rest) ∧ text t.ctds charLayout.view (c :: rest) = input ++ tail ∧
      Grown { s with inode := t.inode } t chain new := by
  let sized : Metadata := { s with inode := { s.inode with metasize := input.length } }
  obtain ⟨c, rest, first, mid, made, inode, nonzero, shape, path', grown₁⟩ := createCtd_meta (s := sized) path ready
  have apart' : ∀ i ∈ c :: rest, ¬mid.accounting.Free i := shape ▸ grown₁.apart apart
  obtain ⟨t, second, wrote, grown₂, written, whole, _⟩ := writeOn_spec charLayout path' apart' grown₁.ready charLayout.positive
  refine ⟨c, rest ++ second, first ++ second, _, t, ?_, grown₂.inode.trans inode, nonzero, ?_, written, whole (fun _ _ => trivial), ?_⟩
  · rw [storeMetaDataInINode, Run.bind_of_some (Run.assert_eq_some.mpr ⟨short, rfl⟩),
      Run.bind_of_some (show modifyInode _ s = some ((), sized) from rfl), Run.bind_of_some made]
    exact wrote
  · rw [← List.append_assoc, shape]
    rfl
  · rw [grown₂.inode]
    exact grown₁.trans grown₂ (shape ▸ List.Subset.refl _)

/-- A text without a zero at its end is read again from where it is stored. -/
theorem storeMetaDataInINode_load {input : Str} (short : input.length < 2 ^ 32 - 1) (last : input.getLast? ≠ some 0)
    {chain : List BucketIndex} (path : Trail s.ctds InodeCtd.next (link s.inode.metaID) chain) (apart : ∀ i ∈ chain, ¬s.accounting.Free i)
    (ready : s.accounting.Ready) :
    ∃ t, storeMetaDataInINode input s = some ((), t) ∧ ∃ enough, ∀ fuel ≥ enough, loadMetaDataFromINode fuel t = some (input, t) := by
  obtain ⟨c, rest, new, tail, t, stored, inode, _, _, written, whole, _⟩ := storeMetaDataInINode_spec short path apart ready
  refine ⟨t, stored, rest.length + 1, fun fuel enough => ?_⟩
  have size : t.inode.metasize = input.length := by rw [inode]
  have first : t.inode.metaID = c := by rw [inode]
  rw [loadMetaDataFromINode, Run.bind_of_some (Run.get_apply t), size, first]
  by_cases empty : input.length > 0
  · rw [if_pos empty, Run.bind_of_some (metaLoop_spec written enough), whole, resize_rdropWhile last]
    rfl
  · rw [if_neg empty, List.eq_nil_of_length_eq_zero (Nat.eq_zero_of_not_pos empty)]
    rfl

/-- Three records in a chain, filled with what was stored before. -/
def oldPages (i : BucketIndex) : Option InodeCtd :=
  if i = 300 then some ⟨300, 301, fun _ => 5⟩
  else if i = 301 then some ⟨301, 302, fun _ => 5⟩
  else if i = 302 then some ⟨302, 0, fun _ => 5⟩
  else none

theorem trail_oldPages : Trail oldPages InodeCtd.next (link 300) [300, 301, 302] := .cons rfl (.cons rfl (.cons rfl .nil))

theorem apart_oldPages : ∀ i ∈ [300, 301, 302], ¬(Accounting.init {1}).Free i := by
  intro i member free
  have used : bucket i ∈ ({1} : Finset Nat) := by
    simp only [List.mem_cons, List.not_mem_nil, or_false] at member
    rcases member with rfl | rfl | rfl <;> decide
  rcases free with ⟨node, there, _⟩ | ⟨_, unused⟩
  · exact absurd there List.not_mem_nil
  · exact unused used

theorem ready_oldPages : (Accounting.init {1}).Ready :=
  Accounting.ready_init (fun _ member => Finset.mem_singleton.mp member ▸ Nat.one_pos)

/-- A text that needs two records over one that had three. -/
theorem storeMetaDataInINode_load_shorter : ∃ t,
    storeMetaDataInINode (List.replicate 4070 65) ⟨⟨258, 0, 300, 12000, 0, fun _ => 0⟩, oldPages, Accounting.init {1}⟩ = some ((), t) ∧
      ∃ enough, ∀ fuel ≥ enough, loadMetaDataFromINode fuel t = some (List.replicate 4070 65, t) :=
  storeMetaDataInINode_load (by rw [List.length_replicate]; decide) (by rw [List.getLast?_replicate]; decide) trail_oldPages apart_oldPages ready_oldPages

end Text

section Hashes
variable {H : Type} {bucketIndex : H → BucketIndex} {refcnt : H → Int} {getHash : BucketIndex → Option H} {zeroHash : H}

theorem store_ctd {c : BucketIndex} (own : s.Own c) : MetaPtr.store (.ctd c) s = some ((), s) := by
  obtain ⟨p, found, mine⟩ := own
  rw [MetaPtr.store, Run.bind_of_some (inoToChunk_spec found), Run.modify_apply, mine]
  rw [← found, Function.update_eq_self]

theorem view_ctdLayout (c : InodeCtd) : ctdLayout.view c = (List.range InodeCtd.numctd).map c.ctd := by
  rw [ctdLayout]

/-- On a chain of records the hashes are written as any items are. -/
theorem restLoop_ctd {hashes : List H} (alive : ∀ h ∈ hashes, 0 < refcnt h) {s : Metadata} {c : BucketIndex} {rest : List BucketIndex} {idx : Nat}
    {p : InodeCtd} (path : Trail s.ctds InodeCtd.next (some c) (c :: rest)) (own : ∀ i ∈ c :: rest, s.Own i)
    (apart : ∀ i ∈ c :: rest, ¬s.accounting.Free i) (ready : s.accounting.Ready) (found : s.ctds c = some p) :
    restLoop bucketIndex refcnt hashes idx (.ctd c) p.nextID s =
      writeOn ctdLayout.put ctdLayout.size (hashes.map bucketIndex) idx c s := by
  induction hashes generalizing s c rest idx p with
  | nil =>
    rw [restLoop, store_ctd (own c List.mem_cons_self)]
    rfl
  | cons h hashes ih =>
    have aliveLater : ∀ h ∈ hashes, 0 < refcnt h := fun h member => alive h (List.mem_cons_of_mem _ member)
    obtain ⟨_, _, found', same, restPath⟩ := path.of_some
    cases same
    rw [found] at found'
    cases found'
    have distinct := List.nodup_cons.mp path.nodup
    let p' := InodeCtd.setCtd idx (bucketIndex h) p
    obtain ⟨s', shape⟩ : ∃ s' : Metadata, s' = { s with ctds := Function.update s.ctds c (some p') } := ⟨_, rfl⟩
    have put : modifyCtd c (InodeCtd.setCtd idx (bucketIndex h)) s = some ((), s') := (modifyCtd_spec found _).trans (by rw [shape])
    have grown : Grown s s' (c :: rest) [] := by
      rw [shape]
      exact (modifyCtd_grown ready found (f := InodeCtd.setCtd idx (bucketIndex h)) rfl).mono (List.cons_subset_cons c (List.nil_subset _))
    have found' : s'.ctds c = some p' := by
      rw [shape]
      exact Function.update_self _ _ _
    have others : ∀ i ∈ rest, s'.ctds i = s.ctds i := fun i member => by
      rw [shape]
      exact Function.update_of_ne (fun same : i = c => distinct.1 (same ▸ member)) _ _
    have restPath' : Trail s'.ctds InodeCtd.next p'.next rest := restPath.congr others
    have own' : ∀ i ∈ c :: rest, s'.Own i := fun i member => grown.own own i (List.mem_append_left _ member)
    have apart' : ∀ i ∈ c :: rest, ¬s'.accounting.Free i := fun i member again => apart i member ((grown.free i).mp again).1
    have ran : restLoop bucketIndex refcnt (h :: hashes) idx (.ctd c) p.nextID s =
        (if idx + 1 ≥ InodeCtd.numctd then do
            let i ← if p.nextID ≠ 0 then pure p.nextID else createCtdAfter c
            let node ← inoToChunk i
            restLoop bucketIndex refcnt hashes 0 (.ctd i) node.nextID
          else restLoop bucketIndex refcnt hashes (idx + 1) (.ctd c) p.nextID) s' := by
      rw [restLoop, Run.bind_of_some (Run.assert_eq_some.mpr ⟨alive h List.mem_cons_self, rfl⟩), MetaPtr.setCtd, Run.bind_of_some put, MetaPtr.imax]
      split
      · rw [Run.bind_of_some (store_ctd (own' c List.mem_cons_self))]
        rfl
      · rfl
    have wrote : writeOn ctdLayout.put ctdLayout.size ((h :: hashes).map bucketIndex) idx c s =
        (if idx + 1 ≥ ctdLayout.size then createCtdAfter c >>= writeOn ctdLayout.put ctdLayout.size (hashes.map bucketIndex) 0
          else writeOn ctdLayout.put ctdLayout.size (hashes.map bucketIndex) (idx + 1) c) s' := by
      rw [List.map_cons, writeOn, Run.bind_of_some (show modifyCtd c (ctdLayout.put idx (bucketIndex h)) s = some ((), s') from put)]
    rw [ran, wrote]
    by_cases last : idx + 1 ≥ InodeCtd.numctd
    · rw [if_pos last, if_pos (show idx + 1 ≥ ctdLayout.size from last)]
      cases rest with
      | cons d rest =>
        have next := restPath'.head_eq
        rw [List.head?_cons] at next
        obtain ⟨nonzero, same⟩ := link_eq_some.mp next
        rw [next] at restPath'
        obtain ⟨q, _, there, _, _⟩ := restPath'.of_some
        rw [if_pos (show p.nextID ≠ 0 from nonzero), show p.nextID = d from same, Run.bind_of_some (Run.pure_apply d s'),
          Run.bind_of_some (createCtdAfter_next found' next)]
        dsimp only
        rw [Run.bind_of_some (inoToChunk_spec there)]
        exact ih aliveLater restPath' (fun i member => own' i (List.mem_cons_of_mem _ member))
          (fun i member => apart' i (List.mem_cons_of_mem _ member)) grown.ready there
      | nil =>
        have zero : p.nextID = 0 := link_eq_none.mp restPath'.head_eq
        obtain ⟨d, u, made, grown₁, nonzero, linked, empty⟩ := createCtdAfter_new grown.ready (apart' c List.mem_cons_self) found'
          restPath'.head_eq
        rw [if_neg (not_not.mpr zero), Run.bind_of_some made, Run.bind_of_some made]
        dsimp only
        rw [Run.bind_of_some (inoToChunk_spec empty)]
        refine ih aliveLater (.cons empty .nil) (fun i member => ?_) (fun i member again => ((grown₁.free i).mp again).2 member) grown₁.ready empty
        rw [List.mem_singleton.mp member]
        exact ⟨_, empty, rfl⟩
    · rw [if_neg last, if_neg (show ¬idx + 1 ≥ ctdLayout.size from last)]
      exact ih (p := p') aliveLater (.cons found' restPath') own' apart' grown.ready found'

/-- The places for indexes in the inode and on its chain. -/
def places (s : Metadata) (chain : List BucketIndex) : List BucketIndex :=
  (List.range MetaPtr.inode.imax).map s.inode.ctd ++ text s.ctds ctdLayout.view chain

/-- What the loop does once the inode is full. -/
def restOn (bucketIndex : H → BucketIndex) (refcnt : H → Int) (hashes : List H) (nextId : BucketIndex) : MetaM Unit := do
  let i ← if nextId ≠ 0 then pure nextId else createCtd false
  let node ← inoToChunk i
  restLoop bucketIndex refcnt hashes 0 (.ctd i) node.nextID

/-- The records that are there and new ones take the hashes that the inode has no place for. -/
structure RestedOn (s t : Metadata) (chain new : List BucketIndex) (indexes : List BucketIndex) : Prop where
  grown : Grown { s with inode := t.inode } t chain new
  inode : ∃ nextID, t.inode = { s.inode with nextID := nextID }
  path : Trail t.ctds InodeCtd.next (link t.inode.nextID) (chain ++ new)
  content : (∀ i ∈ indexes, ctdLayout.Fits i) → text t.ctds ctdLayout.view (chain ++ new) =
    splice (text s.ctds ctdLayout.view chain ++ List.replicate (new.length * InodeCtd.numctd) 0) 0 indexes
  length : new.length = 1 + indexes.length / InodeCtd.numctd - chain.length

theorem restOn_chain {hashes : List H} (alive : ∀ h ∈ hashes, 0 < refcnt h) {s : Metadata} {d : BucketIndex} {rest : List BucketIndex}
    (path : Trail s.ctds InodeCtd.next (link s.inode.nextID) (d :: rest)) (own : ∀ i ∈ d :: rest, s.Own i)
    (apart : ∀ i ∈ d :: rest, ¬s.accounting.Free i) (ready : s.accounting.Ready) :
    ∃ t new, restOn bucketIndex refcnt hashes s.inode.nextID s = some ((), t) ∧ RestedOn s t (d :: rest) new (hashes.map bucketIndex) := by
  have next := path.head_eq
  rw [List.head?_cons] at next
  obtain ⟨nonzero, same⟩ := link_eq_some.mp next
  rw [next] at path
  obtain ⟨q, _, there, _, _⟩ := path.of_some
  obtain ⟨t, new, wrote, grown, path', text', length⟩ := @writeOn_spec _ ctdLayout (hashes.map bucketIndex) _ _ _ _ path apart ready ctdLayout.positive
  have inode : t.inode = s.inode := grown.inode
  refine ⟨t, new, ?_, ⟨grown.withInode t.inode, ⟨_, inode⟩, ?_, text', ?_⟩⟩
  · rw [restOn, if_pos nonzero, same, Run.bind_of_some (Run.pure_apply d s)]
    dsimp only
    rw [Run.bind_of_some (inoToChunk_spec there), restLoop_ctd alive path own apart ready there]
    exact wrote
  · rw [inode, next]
    exact path'
  · rw [length, List.length_cons, Nat.zero_add]
    exact (by omega : ∀ a b : Nat, a - b = 1 + a - (b + 1)) _ _

theorem restOn_new {hashes : List H} (alive : ∀ h ∈ hashes, 0 < refcnt h) {s : Metadata} (none : s.inode.nextID = 0) (ready : s.accounting.Ready) :
    ∃ t new, restOn bucketIndex refcnt hashes s.inode.nextID s = some ((), t) ∧ RestedOn s t [] new (hashes.map bucketIndex) := by
  obtain ⟨d, mid, made, nonzero, grown₁, empty⟩ := newCtd_spec ready
  obtain ⟨u, shape₁⟩ : ∃ u : Metadata, u = { mid with inode := { mid.inode with nextID := d } } := ⟨_, rfl⟩
  have linked : createCtd false s = some (d, u) := by
    unfold createCtd
    rw [Run.bind_of_some (Run.get_apply s), if_neg (by decide), if_pos none, Run.bind_of_some made, shape₁]
    rfl
  have empty' : u.ctds d = some { InodeCtd.zero with myID := d } := shape₁ ▸ empty
  have newPath : Trail u.ctds InodeCtd.next (some d) [d] := .cons empty' .nil
  have notFree : ∀ i ∈ [d], ¬u.accounting.Free i := fun i member again => by
    rw [shape₁] at again
    exact ((grown₁.free i).mp again).2 member
  have ownNew : ∀ i ∈ [d], u.Own i := fun i member => by
    rw [List.mem_singleton.mp member]
    exact ⟨_, empty', rfl⟩
  have ready₁ : u.accounting.Ready := shape₁ ▸ grown₁.ready
  obtain ⟨t, new, wrote, grown, path', text', length⟩ := @writeOn_spec _ ctdLayout (hashes.map bucketIndex) _ _ _ _ newPath notFree ready₁ ctdLayout.positive
  have inode : t.inode = { s.inode with nextID := d } := grown.inode.trans (by rw [shape₁, grown₁.inode])
  refine ⟨t, d :: new, ?_, ⟨?_, ⟨_, inode⟩, ?_, fun fits => ?_, ?_⟩⟩
  · rw [restOn, if_neg (not_not.mpr none), Run.bind_of_some linked]
    dsimp only
    rw [Run.bind_of_some (inoToChunk_spec empty')]
    exact (restLoop_ctd alive newPath ownNew notFree ready₁ empty').trans wrote
  · have first := grown₁.withInode t.inode
    rw [show ({ mid with inode := t.inode } : Metadata) = u by rw [grown.inode, shape₁]] at first
    exact first.trans grown (List.Subset.refl _)
  · rw [inode, show link ({ s.inode with nextID := d } : InodeChunk).nextID = some d from if_neg nonzero]
    exact path'
  · have amount : List.replicate ((d :: new).length * InodeCtd.numctd) 0 =
        List.replicate InodeCtd.numctd 0 ++ List.replicate (new.length * InodeCtd.numctd) 0 := by
      rw [← List.replicate_add, List.length_cons, Nat.succ_mul, Nat.add_comm]
    have blank : text u.ctds ctdLayout.view [d] = List.replicate InodeCtd.numctd 0 := by
      rw [text_cons empty', text_nil, List.append_nil, ctdLayout.view_zero]
      rfl
    have line : text t.ctds ctdLayout.view (d :: new) = splice (text u.ctds ctdLayout.view [d] ++ List.replicate (new.length * InodeCtd.numctd) 0) 0
      (hashes.map bucketIndex) := text' fits
    rw [List.nil_append, line, blank, amount, text_nil, List.nil_append]
  · rw [List.length_cons, length]
    simp only [List.length_nil, Nat.zero_add, Nat.sub_zero]
    exact Nat.add_comm _ _

theorem restOn_spec {hashes : List H} (alive : ∀ h ∈ hashes, 0 < refcnt h) {s : Metadata} {chain : List BucketIndex}
    (path : Trail s.ctds InodeCtd.next (link s.inode.nextID) chain) (own : ∀ i ∈ chain, s.Own i) (apart : ∀ i ∈ chain, ¬s.accounting.Free i)
    (ready : s.accounting.Ready) :
    ∃ t new, restOn bucketIndex refcnt hashes s.inode.nextID s = some ((), t) ∧ RestedOn s t chain new (hashes.map bucketIndex) := by
  cases chain with
  | cons d rest => exact restOn_chain alive path own apart ready
  | nil => exact restOn_new alive (link_eq_none.mp path.head_eq) ready

theorem restLoop_inode {hashes : List H} (alive : ∀ h ∈ hashes, 0 < refcnt h) {s : Metadata}
    {chain : List BucketIndex} {idx : Nat} (path : Trail s.ctds InodeCtd.next (link s.inode.nextID) chain) (own : ∀ i ∈ chain, s.Own i)
    (apart : ∀ i ∈ chain, ¬s.accounting.Free i) (ready : s.accounting.Ready) (inside : idx < MetaPtr.inode.imax) :
    ∃ t new, restLoop bucketIndex refcnt hashes idx .inode s.inode.nextID s = some ((), t) ∧ Grown { s with inode := t.inode } t chain new ∧
      (∃ ctd nextID, t.inode = { s.inode with ctd := ctd, nextID := nextID }) ∧
      Trail t.ctds InodeCtd.next (link t.inode.nextID) (chain ++ new) ∧
      ((∀ h ∈ hashes, bucketIndex h < 2 ^ 64) →
        t.places (chain ++ new) = splice (s.places chain ++ List.replicate (new.length * InodeCtd.numctd) 0) idx (hashes.map bucketIndex)) ∧
      new.length = Inode.ctdsFor (idx + hashes.length) - chain.length := by
  induction hashes generalizing s idx with
  | nil =>
    refine ⟨s, [], rfl, (Grown.refl ready).mono (List.nil_subset _), ⟨_, _, rfl⟩, ?_, fun _ => ?_, ?_⟩
    · rw [List.append_nil]
      exact path
    · rw [List.map_nil, splice_nil, List.append_nil, List.length_nil, Nat.zero_mul, List.replicate_zero, List.append_nil]
    · rw [List.length_nil, List.length_nil, Nat.add_zero, Inode.ctdsFor, if_pos (show idx < Inode.numctd from inside), Nat.zero_sub]
  | cons h hashes ih =>
    have aliveLater : ∀ h ∈ hashes, 0 < refcnt h := fun h member => alive h (List.mem_cons_of_mem _ member)
    have fitsLater : (∀ g ∈ h :: hashes, bucketIndex g < 2 ^ 64) → ∀ g ∈ hashes, bucketIndex g < 2 ^ 64 :=
      fun fits g member => fits g (List.mem_cons_of_mem _ member)
    obtain ⟨s', shape⟩ : ∃ s' : Metadata,
      s' = { s with inode := { s.inode with ctd := Function.update s.inode.ctd idx (bucketIndex h) } } := ⟨_, rfl⟩
    have put : (List.range MetaPtr.inode.imax).map s'.inode.ctd = splice ((List.range MetaPtr.inode.imax).map s.inode.ctd) idx [bucketIndex h] := by
      rw [shape]
      exact map_range_put inside _ (fun j => Function.update_apply _ _ _ j)
    have ran : restLoop bucketIndex refcnt (h :: hashes) idx .inode s.inode.nextID s =
        (if idx + 1 ≥ MetaPtr.inode.imax then restOn bucketIndex refcnt hashes s.inode.nextID
          else restLoop bucketIndex refcnt hashes (idx + 1) .inode s.inode.nextID) s' := by
      rw [restLoop, Run.bind_of_some (Run.assert_eq_some.mpr ⟨alive h List.mem_cons_self, rfl⟩), MetaPtr.setCtd,
        Run.bind_of_some (show modifyInode _ s = some ((), s') from shape ▸ rfl)]
      split
      · rw [Run.bind_of_some (show MetaPtr.store .inode s' = some ((), s') from rfl)]
        rfl
      · rfl
    have ctds : s'.ctds = s.ctds := by rw [shape]
    have accounting : s'.accounting = s.accounting := by rw [shape]
    have nextID : s'.inode.nextID = s.inode.nextID := by rw [shape]
    have rooted : ∀ n : InodeChunk, ({ s' with inode := n } : Metadata) = { s with inode := n } := fun n => by rw [shape]
    have root : ((List.range MetaPtr.inode.imax).map s.inode.ctd).length = MetaPtr.inode.imax := by rw [List.length_map, List.length_range]
    rw [← ctds, ← nextID] at path
    rw [← accounting] at apart ready
    have own' : ∀ i ∈ chain, s'.Own i := fun i member => by
      rw [Own, ctds]
      exact own i member
    rw [ran, ← nextID]
    by_cases last : idx + 1 ≥ MetaPtr.inode.imax
    · have full : idx + 1 = ((List.range MetaPtr.inode.imax).map s.inode.ctd).length := by omega
      have amount : Inode.ctdsFor (idx + (h :: hashes).length) = 1 + hashes.length / InodeCtd.numctd := by
        have sum : idx + (h :: hashes).length = hashes.length + Inode.numctd := by
          have imax : MetaPtr.inode.imax = Inode.numctd := rfl
          rw [List.length_cons]
          omega
        rw [sum, Inode.ctdsFor, if_neg (show ¬hashes.length + Inode.numctd < Inode.numctd by omega)]
        exact congrArg (fun n => 1 + n / 508) (Nat.add_sub_cancel _ _)
      rw [if_pos last, amount]
      obtain ⟨t, new, wrote, ⟨grown, ⟨next, inode⟩, path', text', length⟩⟩ := @restOn_spec _ bucketIndex refcnt hashes aliveLater s' chain path own' apart ready
      refine ⟨t, new, wrote, rooted t.inode ▸ grown, ⟨_, _, inode.trans (by rw [shape])⟩, path', fun fits => ?_, ?_⟩
      · have fitsAll : ∀ i ∈ hashes.map bucketIndex, ctdLayout.Fits i := by
          intro i member
          obtain ⟨g, there, rfl⟩ := List.mem_map.mp member
          exact fitsLater fits g there
        have root' : ({ s'.inode with nextID := next } : InodeChunk).ctd = s'.inode.ctd := rfl
        rw [places, inode, root', text' fitsAll, put, places, ctds, List.append_assoc, List.map_cons, splice_step _ _ _ full]
      · rw [length, List.length_map]
    · rw [if_neg last]
      obtain ⟨t, new, wrote, grown, ⟨ctd, next, inode⟩, path', places', length⟩ := ih aliveLater path own' apart ready (Nat.lt_of_not_le last)
      refine ⟨t, new, wrote, rooted t.inode ▸ grown, ⟨ctd, next, inode.trans (by rw [shape])⟩, path', fun fits => ?_, ?_⟩
      · have long : idx + 1 ≤ ((List.range MetaPtr.inode.imax).map s.inode.ctd).length := by omega
        have one : s'.places chain ++ List.replicate (new.length * InodeCtd.numctd) 0 =
            splice (s.places chain ++ List.replicate (new.length * InodeCtd.numctd) 0) idx [bucketIndex h] := by
          rw [places, put, ctds, places, List.append_assoc, List.append_assoc, splice_append_left _ long]
        rw [places' (fitsLater fits), one, List.map_cons]
        exact splice_splice _ (by simp only [places, List.length_append]; omega)
      · rw [length, List.length_cons, Nat.add_right_comm, Nat.add_assoc]

/-- A step of the loop of `loadHashes` over an index that is there. -/
theorem loadLoop_cons {h : H} {hashes : List H} {n idx : Nat} {c : MetaPtr} {nextId : BucketIndex}
    (there : c.getCtd idx s = some (bucketIndex h, s)) (nonzero : bucketIndex h ≠ 0) (kept : getHash (bucketIndex h) = some h)
    (later : (if idx + 1 ≥ c.imax then
        if nextId ≠ 0 then do
          let node ← inoToChunk nextId
          loadLoop getHash zeroHash n 0 (.ctd nextId) node.nextID
        else pure ([], n, 0)
      else loadLoop getHash zeroHash n (idx + 1) c nextId) s = some ((hashes, 0, 0), s)) :
    loadLoop getHash zeroHash (n + 1) idx c nextId s = some ((h :: hashes, 0, 0), s) := by
  rw [loadLoop, Run.bind_of_some there, if_neg nonzero]
  split at later
  · rename_i full
    rw [if_pos full]
    split at later
    · rename_i more
      obtain ⟨node, mid, found, rest⟩ := Run.bind_eq_some.mp later
      rw [if_pos more, Run.bind_of_some found, Run.bind_of_some rest]
      dsimp only
      rw [kept]
      rfl
    · rename_i none
      rw [if_neg none, Run.bind_of_some later]
      dsimp only
      rw [kept]
      rfl
  · rename_i free
    rw [if_neg free, Run.bind_of_some later]
    dsimp only
    rw [kept]
    rfl

/-- The place that is looked at, and those after it. -/
theorem drop_map_range {α : Type} {n idx : Nat} (inside : idx < n) (f : Nat → α) (rest : List α) :
    ((List.range n).map f ++ rest).drop idx = f idx :: ((List.range n).map f ++ rest).drop (idx + 1) := by
  have long : idx < ((List.range n).map f ++ rest).length := by
    rw [List.length_append, List.length_map, List.length_range]
    omega
  rw [List.drop_eq_getElem_cons long, List.getElem_append_left (by simpa using inside), List.getElem_map, List.getElem_range]

theorem drop_map_range_all {α : Type} {n : Nat} (f : Nat → α) (rest : List α) : ((List.range n).map f ++ rest).drop n = rest :=
  List.drop_left' (by rw [List.length_map, List.length_range])

/-- The hashes that stand on a chain from a place on are found. -/
theorem loadLoop_ctd {hashes : List H} (kept : ∀ h ∈ hashes, bucketIndex h ≠ 0 ∧ getHash (bucketIndex h) = some h) {c : BucketIndex}
    {rest : List BucketIndex} {idx : Nat} {p : InodeCtd} (path : Trail s.ctds InodeCtd.next (some c) (c :: rest)) (found : s.ctds c = some p)
    (inside : idx < InodeCtd.numctd) (there : hashes.map bucketIndex <+: (text s.ctds ctdLayout.view (c :: rest)).drop idx) :
    loadLoop getHash zeroHash hashes.length idx (.ctd c) p.nextID s = some ((hashes, 0, 0), s) := by
  induction hashes generalizing c rest idx p with
  | nil => rfl
  | cons h hashes ih =>
    obtain ⟨_, _, found', same, restPath⟩ := path.of_some
    cases same
    rw [found] at found'
    cases found'
    have keptLater : ∀ h ∈ hashes, bucketIndex h ≠ 0 ∧ getHash (bucketIndex h) = some h := fun h member => kept h (List.mem_cons_of_mem _ member)
    rw [text_cons found, view_ctdLayout, drop_map_range inside, List.map_cons, List.cons_prefix_cons] at there
    have read : MetaPtr.getCtd idx (.ctd c) s = some (bucketIndex h, s) := by
      rw [MetaPtr.getCtd, Run.bind_of_some (inoToChunk_spec found), there.1]
      rfl
    apply loadLoop_cons read (kept h List.mem_cons_self).1 (kept h List.mem_cons_self).2
    by_cases last : idx + 1 ≥ InodeCtd.numctd
    · have full : idx + 1 = InodeCtd.numctd := by omega
      have later := there.2
      rw [full, drop_map_range_all] at later
      rw [if_pos (show idx + 1 ≥ (MetaPtr.ctd c).imax from last)]
      cases rest with
      | cons d rest =>
        have next := restPath.head_eq
        rw [List.head?_cons] at next
        obtain ⟨nonzero, same⟩ := link_eq_some.mp next
        rw [next] at restPath
        obtain ⟨q, _, there', _, _⟩ := restPath.of_some
        rw [if_pos nonzero, same, Run.bind_of_some (inoToChunk_spec there')]
        exact ih keptLater restPath there' (by decide) later
      | nil =>
        have none : hashes = [] := List.map_eq_nil_iff.mp (List.prefix_nil.mp later)
        rw [if_neg (not_not.mpr (link_eq_none.mp restPath.head_eq)), none]
        rfl
    · rw [if_neg (show ¬idx + 1 ≥ (MetaPtr.ctd c).imax from last)]
      refine ih keptLater path found (Nat.lt_of_not_le last) ?_
      rw [text_cons found, view_ctdLayout]
      exact there.2

theorem loadLoop_inode {hashes : List H} (kept : ∀ h ∈ hashes, bucketIndex h ≠ 0 ∧ getHash (bucketIndex h) = some h)
    {chain : List BucketIndex} {idx : Nat} (path : Trail s.ctds InodeCtd.next (link s.inode.nextID) chain) (inside : idx < MetaPtr.inode.imax)
    (there : hashes.map bucketIndex <+: (s.places chain).drop idx) :
    loadLoop getHash zeroHash hashes.length idx .inode s.inode.nextID s = some ((hashes, 0, 0), s) := by
  induction hashes generalizing idx with
  | nil => rfl
  | cons h hashes ih =>
    have keptLater : ∀ h ∈ hashes, bucketIndex h ≠ 0 ∧ getHash (bucketIndex h) = some h := fun h member => kept h (List.mem_cons_of_mem _ member)
    rw [places, drop_map_range inside, List.map_cons, List.cons_prefix_cons] at there
    have read : MetaPtr.getCtd idx .inode s = some (bucketIndex h, s) := by
      rw [MetaPtr.getCtd, Run.bind_of_some (Run.get_apply s), there.1]
      rfl
    apply loadLoop_cons read (kept h List.mem_cons_self).1 (kept h List.mem_cons_self).2
    by_cases last : idx + 1 ≥ MetaPtr.inode.imax
    · have full : idx + 1 = MetaPtr.inode.imax := by omega
      have later := there.2
      rw [full, drop_map_range_all] at later
      rw [if_pos last]
      cases chain with
      | cons d rest =>
        have next := path.head_eq
        rw [List.head?_cons] at next
        obtain ⟨nonzero, same⟩ := link_eq_some.mp next
        rw [next] at path
        obtain ⟨q, _, there', _, _⟩ := path.of_some
        rw [if_pos nonzero, same, Run.bind_of_some (inoToChunk_spec there')]
        exact loadLoop_ctd keptLater path there' (by decide) later
      | nil =>
        have none : hashes = [] := List.map_eq_nil_iff.mp (List.prefix_nil.mp later)
        rw [if_neg (not_not.mpr (link_eq_none.mp path.head_eq)), none]
        rfl
    · rw [if_neg last]
      exact ih keptLater (Nat.lt_of_not_le last) there.2

/-- Whatever stood on the chain before, the hashes that `rest` writes are those that the
next file on the inode begins with. The chain is used again and goes on in records with
indexes that were free. -/
theorem rest_loadHashes {hashes : List H} (rested : H → Bool) (alive : ∀ h ∈ hashes, 0 < refcnt h)
    (fits : ∀ h ∈ hashes, bucketIndex h ≠ 0 ∧ bucketIndex h < 2 ^ 64) (kept : ∀ h ∈ hashes, getHash (bucketIndex h) = some h)
    (long : numChunks s.inode.size ≤ hashes.length) {chain : List BucketIndex} (path : Trail s.ctds InodeCtd.next (link s.inode.nextID) chain)
    (own : ∀ i ∈ chain, s.Own i) (apart : ∀ i ∈ chain, ¬s.accounting.Free i) (ready : s.accounting.Ready) :
    ∃ t new, rest bucketIndex refcnt rested hashes s = some (hashes.any rested, t) ∧
      loadHashes getHash zeroHash t = some ((hashes.take (numChunks s.inode.size), 0), t) ∧
      (hashes.take (numChunks s.inode.size)).length = numChunks s.inode.size ∧
      Trail t.ctds InodeCtd.next (link t.inode.nextID) (chain ++ new) ∧ (∀ i ∈ chain ++ new, t.Own i) ∧
      new.length = Inode.ctdsFor hashes.length - chain.length ∧ new.Nodup ∧ ∀ i ∈ new, s.accounting.Free i ∧ ¬t.accounting.Free i := by
  have amount : (hashes.take (numChunks s.inode.size)).length = numChunks s.inode.size := List.length_take_of_le long
  cases hashes with
  | nil =>
    have none : numChunks s.inode.size = 0 := Nat.le_zero.mp long
    refine ⟨{ s with inode := { s.inode with ctd := Function.update s.inode.ctd 0 0 } }, [], rfl, ?_, amount, ?_, ?_, ?_, List.nodup_nil,
      fun _ member => absurd member List.not_mem_nil⟩
    · rw [loadHashes, Run.bind_of_some (Run.get_apply _)]
      dsimp only
      rw [none]
      rfl
    · rw [List.append_nil]
      exact path
    · rw [List.append_nil]
      exact own
    · exact (Nat.zero_sub _).symm
  | cons h hashes =>
    obtain ⟨t, new, ran, grown, ⟨ctd, next, inode⟩, path', places', length⟩ := restLoop_inode alive path own
      apart ready (show 0 < MetaPtr.inode.imax by decide)
    have size : t.inode.size = s.inode.size := by rw [inode]
    refine ⟨t, new, ?_, ?_, amount, path', grown.own own, ?_, grown.distinct, fun i member => ⟨grown.fresh i member, fun again =>
      ((grown.free i).mp again).2 member⟩⟩
    · rw [rest, if_pos (List.cons_ne_nil h hashes), Run.bind_of_some (Run.get_apply s), Run.bind_of_some ran]
      rfl
    · have there : ((h :: hashes).take (numChunks s.inode.size)).map bucketIndex <+: (t.places (chain ++ new)).drop 0 := by
        rw [List.drop_zero, places' (fun h member => (fits h member).2), List.map_take]
        apply (List.take_prefix _ _).trans
        rw [splice, List.take_zero, List.nil_append]
        exact List.prefix_append _ _
      have both : ∀ g ∈ (h :: hashes).take (numChunks s.inode.size), bucketIndex g ≠ 0 ∧ getHash (bucketIndex g) = some g := fun g member =>
        ⟨(fits g (List.mem_of_mem_take member)).1, kept g (List.mem_of_mem_take member)⟩
      have loaded : loadLoop getHash zeroHash _ 0 .inode t.inode.nextID t = _ := loadLoop_inode both path' (by decide) there
      rw [amount] at loaded
      rw [loadHashes, Run.bind_of_some (Run.get_apply t), size, Run.bind_of_some loaded]
      dsimp only
      rw [Run.bind_of_some (Run.assert_eq_some.mpr ⟨amount.le, rfl⟩), amount, Nat.sub_self, List.replicate_zero, List.append_nil]
      rfl
    · rw [length, Nat.zero_add]

/-- The indexes of 2020 hashes, which are their own indexes. -/
def manyHashes : List BucketIndex := (List.range 2020).map (fun n => n + 1000)

/-- An inode of that size whose old list went on in three records. -/
def chainedInode : Metadata := ⟨⟨258, 300, 0, 0, 2020 * chunkSize, fun _ => 5⟩, oldPages, Accounting.init {1}⟩

/-- They fill the inode and the three records, and need one record more. -/
theorem rest_loadHashes_many : ∃ t new,
    rest id (fun _ => 1) (fun _ => true) manyHashes chainedInode = some (manyHashes.any (fun _ => true), t) ∧
      loadHashes some 0 t = some ((manyHashes.take (numChunks chainedInode.inode.size), 0), t) ∧
      (manyHashes.take (numChunks chainedInode.inode.size)).length = numChunks chainedInode.inode.size ∧
      Trail t.ctds InodeCtd.next (link t.inode.nextID) ([300, 301, 302] ++ new) ∧ (∀ i ∈ [300, 301, 302] ++ new, t.Own i) ∧
      new.length = Inode.ctdsFor manyHashes.length - ([300, 301, 302] : List BucketIndex).length ∧ new.Nodup ∧
      ∀ i ∈ new, chainedInode.accounting.Free i ∧ ¬t.accounting.Free i := by
  have length : manyHashes.length = 2020 := by rw [manyHashes, List.length_map, List.length_range]
  have fits : ∀ h ∈ manyHashes, h ≠ 0 ∧ h < 2 ^ 64 := by
    intro h member
    obtain ⟨n, small, rfl⟩ := List.mem_map.mp member
    have bound : n < 2020 := List.mem_range.mp small
    exact ⟨Nat.succ_ne_zero _, lt_of_lt_of_le (Nat.add_lt_add_right bound 1000) (by decide)⟩
  have own : ∀ i ∈ [300, 301, 302], chainedInode.Own i := by
    intro i member
    simp only [List.mem_cons, List.not_mem_nil, or_false] at member
    rcases member with rfl | rfl | rfl <;> exact ⟨_, rfl, rfl⟩
  have long : numChunks chainedInode.inode.size ≤ manyHashes.length := by
    rw [length]
    decide
  exact rest_loadHashes (fun _ => true) (fun _ _ => Int.one_pos) fits (fun _ _ => rfl) long trail_oldPages own apart_oldPages ready_oldPages

end Hashes

end Metadata

end CloudCryptFS.Filesystem
