import CloudCryptFS.Filesystem.Runs

/-! The listing of a directory. It goes through the entries of the stored text, where a
lookup goes through the caches: the two name the same files. -/

namespace CloudCryptFS.Filesystem
open Util Script Script.Lexer Script.Json

/-- The names behind the two that stand for the directory itself and the one above. -/
def listed : Except EE (List Name) → List Name
  | .ok names => names.drop 2
  | .error _ => []

theorem toInt64_pos {i : Nat} (index : 0 < i ∧ i < 2 ^ 64) : 0 < toInt64 i ↔ i < 2 ^ 63 := by
  unfold toInt64 Int.bmod
  dsimp only
  split <;> omega

/-- The entries of a map whose index is positive as a signed number. -/
def DirMap.listing (m : DirMap) : List Name := (m.entries.filter (fun entry => entry.2 < 2 ^ 63)).map Prod.fst

theorem DirMap.mem_listing (m : DirMap) (c : Name) : c ∈ m.listing ↔ ∃ i, m.find c = some i ∧ i < 2 ^ 63 := by
  simp only [listing, List.mem_map, List.mem_filter, decide_eq_true_eq, find]
  constructor
  · rintro ⟨⟨name, i⟩, ⟨member, small⟩, rfl⟩
    exact ⟨i, (SortedEntries.find?_eq_some_iff m.sorted name i).mpr member, small⟩
  · rintro ⟨i, found, small⟩
    exact ⟨(c, i), ⟨(SortedEntries.find?_eq_some_iff m.sorted c i).mp found, small⟩, rfl⟩

theorem DirMap.nodup_listing (m : DirMap) : m.listing.Nodup := by
  exact List.Nodup.sublist (List.filter_sublist.map Prod.fst) (SortedEntries.keys_nodup m.sorted)

section Listing
variable [Floats]

/-- The loop of `readdir_callback` over the entries: those with a positive number are listed. -/
def fillEntries : List (Name × ListVariant Floats.F) → FsM (List Name)
  | [] => pure []
  | entry :: rest =>
    match toInts entry.2 with
    | .error _ => Run.abort
    | .ok values => do
      let names ← fillEntries rest
      pure (if 0 < values.headD 0 then entry.1 :: names else names)

/-- `readdir_callback`: what is given to the filler, or an error. -/
def readdir_callback (path : Path) : FsM (Except EE (List Name)) := do
  match ← get path with
  | none => pure (.ok [])
  | some D =>
    if ← valid (some D) then
      let n ← INode (some D)
      if n.type = .DIR then
        match ← readDirectory D with
        | none => pure (.error .entity_not_found)
        | some directory => do
          let names ← fillEntries directory.values
          pure (.ok (lit "." :: lit ".." :: names))
      else pure (.ok [])
    else pure (.ok [])

theorem fillEntries_signed {entries : List (Str × Nat)} (indexes : ∀ entry ∈ entries, 0 < entry.2 ∧ entry.2 < 2 ^ 64) (s : Fs) :
    fillEntries (entries.map (fun entry => (entry.1, .int [toInt64 entry.2]))) s =
      some ((entries.filter (fun entry => entry.2 < 2 ^ 63)).map Prod.fst, s) := by
  induction entries with
  | nil => rfl
  | cons entry rest ih =>
    have later := ih (fun other member => indexes other (List.mem_cons_of_mem _ member))
    have here := toInt64_pos (indexes entry List.mem_cons_self)
    rw [List.map_cons, fillEntries]
    simp only [toInts]
    rw [Run.bind_of_some later, Run.pure_apply, List.headD_cons]
    by_cases small : entry.2 < 2 ^ 63
    · rw [if_pos (here.mpr small), List.filter_cons_of_pos (by simpa using small), List.map_cons]
    · rw [if_neg (fun positive => small (here.mp positive)), List.filter_cons_of_neg (by simpa using small)]

theorem fillEntries_json (m : DirMap) (s : Fs) : fillEntries (m.json : JSON Floats.F).values s = some (m.listing, s) := by
  have values : (m.json : JSON Floats.F).values = m.entries.map (fun entry => (entry.1, .int [toInt64 entry.2])) := by
    simp only [DirMap.json, Flat.flat, JSON.values, DirMap.signed, SortedEntries.mapValues, List.map_map, Function.comp_def]
  rw [values, fillEntries_signed m.indexes s, DirMap.listing]

/-- How a listing begins, by what the path leads to. A directory that cannot be read has no entries. -/
inductive Begins (s : Fs) (path : Path) : Except EE (List Name) → Prop where
  | directory {d : BucketIndex} (there : s.walk path = some d) (dir : d ∈ dirs s.nodes) (names : List Name) :
      Begins s path (.ok (lit "." :: lit ".." :: names))
  | nothing (none : ∀ d, s.walk path = some d → d ∉ dirs s.nodes) : Begins s path (.ok [])
  | unread {d : BucketIndex} (there : s.walk path = some d) (dir : d ∈ dirs s.nodes) (empty : ∀ c, s.walk (c :: path) = none) :
      Begins s path (.error .entity_not_found)

/-- The listing of an open file. -/
theorem readdir_spec {level : Level} {s s' : Fs} {path : Path} (ran : get path s = some (s.walk path, s'))
    (names' : Names level s') (looked : Looked path s s') (opened : ∀ i, s.walk path = some i → (s'.inodeFileCache i).isSome) :
    ∃ r, readdir_callback path s = some (r, s') ∧ Begins s path r ∧ (listed r).Nodup ∧
      ∀ c, c ∈ listed r ↔ ∃ i, s.walk (c :: path) = some i ∧ i < 2 ^ 63 := by
  unfold readdir_callback
  rw [Run.bind_of_some ran]
  cases found : s.walk path with
  | none =>
    refine ⟨.ok [], rfl, .nothing (fun d there => by rw [found] at there; cases there), List.nodup_nil, fun c => ?_⟩
    have nowhere : s.walk (c :: path) = none := by
      unfold Fs.walk at found ⊢
      rw [NameGraph.walk, found]
      rfl
    rw [nowhere]
    simp [listed]
  | some D =>
    have edges : ∀ c, s.walk (c :: path) = edge s'.nodes D c := by
      intro c
      rw [Fs.walk_cons_of found, looked.nodes]
    have sameDirs : dirs s'.nodes = dirs s.nodes := congrArg dirs looked.nodes
    obtain ⟨file, here⟩ := Option.isSome_iff_exists.mp (opened D found)
    obtain ⟨n, node⟩ := Option.isSome_iff_exists.mp (names'.files D file here)
    obtain ⟨n', slot, rfl⟩ := Fs.nodes_eq_some.mp node
    dsimp only
    rw [Run.bind_of_some (valid_eq_some.mpr ⟨rfl, rfl⟩), if_pos (by simp [here]), Run.bind_of_some (INode_eq_some.mpr ⟨slot, rfl⟩)]
    by_cases dir : n'.type = .DIR
    · have inside : D ∈ dirs s'.nodes := ⟨n'.seen, node, dir⟩
      rw [if_pos dir]
      cases special : file.special with
      | true =>
        rw [Run.bind_of_some (readDirectory_of_special here special inside)]
        have empty : ∀ c, s.walk (c :: path) = none := fun c => (edges c).trans (names'.special D file here special c)
        refine ⟨.error .entity_not_found, rfl, .unread found (sameDirs ▸ inside) empty, List.nodup_nil, fun c => ?_⟩
        rw [empty c]
        simp [listed]
      | false =>
        obtain ⟨m, holds⟩ := names'.readable D inside
        rw [Run.bind_of_some (readDirectory_of_holds here special holds)]
        dsimp only
        rw [Run.bind_of_some (fillEntries_json m s')]
        refine ⟨.ok (lit "." :: lit ".." :: m.listing), rfl, .directory found (sameDirs ▸ inside) m.listing, m.nodup_listing, fun c => ?_⟩
        rw [edges c, holds.edge c]
        exact m.mem_listing c
    · rw [if_neg dir]
      have leaf : D ∉ dirs s'.nodes := by
        rintro ⟨m, node', isDir⟩
        rw [node] at node'
        cases node'
        exact dir isDir
      have nothing : ∀ d, s.walk path = some d → d ∉ dirs s.nodes := by
        intro d there
        cases found.symm.trans there
        exact sameDirs ▸ leaf
      refine ⟨.ok [], rfl, .nothing nothing, List.nodup_nil, fun c => ?_⟩
      rw [edges c, edge_of_leaf leaf c]
      simp [listed]

end Listing

end CloudCryptFS.Filesystem
