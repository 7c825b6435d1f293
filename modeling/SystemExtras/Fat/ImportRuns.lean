import SystemExtras.Fat.ImportPlan
import SystemExtras.Lib.Stacks

/-!
# Runs of the import, backwards

What holds of a run for every memory, however mixed up its items are.  Each step is
described once, by what becomes of the name (`readEntries_skipped`,
`readEntries_rejected`, `beginEntry_imported`, `importFile_eq`, `finishDir_eq`).

`readEntries_back` is an induction over the tree: the clusters go as planned, and if
the stacks of items are apart after the run then they were so before, and the names
came in an order in which no item was freed twice.
-/

namespace SystemExtras.Fat

/-! ## Clusters -/

/-- A volume on which the clusters below `limit` may be used. -/
structure Room (clusterSize dataSize limit : ℕ) (fs : Fs) : Prop where
  geometry : Geometry clusterSize dataSize fs
  zero : 2 ≤ fs.nextCluster
  room : limit ≤ fs.numClusters

section Clusters

variable {clusterSize dataSize limit : ℕ} {fs : Fs} (hsize : ValidSize clusterSize dataSize)

include hsize

/-- `fs_alloc_extent` with clusters to spare. -/
theorem Room.alloc (h : Room clusterSize dataSize limit fs) {len : ℕ}
    (hroom : fs.nextCluster + len ⌈/⌉ clusterSize ≤ limit) (type : ExtentType) :
    ∃ fs' extent, fsAllocExtent fs len type =
      some (fs', some (extent, firstOf len fs.nextCluster)) ∧
      Room clusterSize dataSize limit fs' ∧
      fs'.nextCluster = fs.nextCluster + len ⌈/⌉ clusterSize := by
  by_cases hzero : len = 0
  · refine ⟨fs, ⟨0, 0, type⟩, ?_, h, ?_⟩
    · rw [fsAllocExtent, if_pos hzero, firstOf, if_pos hzero]
    · rw [hzero, zero_ceilDiv, Nat.add_zero]
  · have hlimit := h.room
    have hfew : len ⌈/⌉ clusterSize < 2 ^ 31 := by
      have hnum := h.geometry.numClusters_eq
      have hclusters := hsize.clusters
      omega
    have hcall := fsAllocExtent_eq hsize h.geometry h.zero (by omega) type
      (Nat.pos_of_ne_zero hzero) hfew
    rw [if_neg (by omega)] at hcall
    have hfirst : firstOf len fs.nextCluster = fs.nextCluster := if_neg hzero
    rw [hfirst]
    exact ⟨_, _, hcall, ⟨⟨h.geometry.clusterSize_eq, h.geometry.numClusters_eq,
      h.geometry.fatSize_eq, h.geometry.dataOffset_eq⟩, h.zero.trans (Nat.le_add_right _ _),
      h.room⟩, rfl⟩

end Clusters

/-! ## Items -/

section Items

variable {σ : State} {k : ℕ}

@[simp] theorem next_setItem (item : Item) :
    (σ.setItem k item).next = Function.update σ.next k item.next := by
  funext j
  unfold State.next State.setItem
  by_cases hj : j = k
  · subst hj
    simp
  · simp [Function.update_of_ne hj]

@[simp] theorem next_setImported (out : Out) (imp : Imported) :
    (σ.setImported out imp).next = σ.next := by
  cases out with
  | tree => rfl
  | item k =>
      rw [State.setImported, next_setItem]
      exact Function.update_eq_self k σ.next

@[simp] theorem freeItemsHead_setImported (out : Out) (imp : Imported) :
    (σ.setImported out imp).freeItemsHead = σ.freeItemsHead := by
  cases out <;> rfl

@[simp] theorem fs_setImported (out : Out) (imp : Imported) :
    (σ.setImported out imp).fs = σ.fs := by
  cases out <;> rfl

theorem next_freeItem : (freeItem σ k).next = Function.update σ.next k σ.freeItemsHead :=
  next_setItem _

variable {junk : Junk} {segs : List (Option ℕ × ℕ)} {held : List ℕ}

/-- The stacks of items of a state. -/
def State.Apart (σ : State) (segs : List (Option ℕ × ℕ)) (held : List ℕ) : Prop :=
  SystemExtras.Apart σ.next σ.freeItemsHead segs held

theorem apart_of_allocItem
    (h : (allocItem junk σ).2.Apart segs ((allocItem junk σ).1 :: held)) : σ.Apart segs held := by
  unfold State.Apart at h ⊢
  cases hhead : σ.freeItemsHead with
  | some k =>
      simp only [allocItem, hhead] at h
      exact h.of_pop
  | none =>
      simp only [allocItem, hhead] at h
      rw [← hhead]
      refine (SystemExtras.Apart.congr h fun a ha => ?_).of_held_cons
      change σ.next a = (σ.setItem σ.itemCount (junk.fresh σ.itemCount)).next a
      rw [next_setItem, Function.update_of_ne (List.ne_of_not_mem_cons ha)]

/-- What a held item says about itself does not matter. -/
theorem apart_of_setItem {item : Item} (h : (σ.setItem k item).Apart segs (k :: held)) :
    σ.Apart segs (k :: held) := by
  refine SystemExtras.Apart.congr h fun a ha => ?_
  rw [next_setItem, Function.update_of_ne (List.ne_of_not_mem_cons ha)]

theorem apart_of_freeItem (h : (freeItem σ k).Apart segs held) : σ.Apart segs (k :: held) := by
  unfold State.Apart at h
  rw [next_freeItem] at h
  exact h.of_push

theorem not_apart_of_freed (hhead : σ.freeItemsHead = some k) :
    ¬ (freeItem σ k).Apart segs held := by
  unfold State.Apart
  rw [next_freeItem, hhead]
  exact SystemExtras.Apart.not_double_free

theorem apart_of_addItem {l : Loop} {isDir : Bool}
    (h : (addItem l σ k isDir).state.Apart ((some k, l.count + 1) :: segs) held) :
    σ.Apart ((l.items, l.count) :: segs) (k :: held) := by
  unfold State.Apart addItem at h
  rw [next_setItem] at h
  exact h.of_seg_push

/-- Puts the first cluster of a directory into the `..` entry of a table. -/
def patchDotDot (my : ℕ) (dirs : List Dir) : Option ℕ → List Dir
  | none => dirs
  | some d => dirs.modify d fun dir =>
      { dir with entries := dir.entries.modify 0 (fatDirentSetFirstCluster · my) }

/-- The entry that is made of an item. -/
def Item.dirent (item : Item) : FatDirent :=
  fatDirentSet item.name (if item.isDir then fatAttrSubdir else 0) item.imp.firstCluster
    item.imp.size

/-- One round of the loop that fills a table. -/
theorem fillEntries_succ {my n : ℕ} {items : Option ℕ} {entries : List FatDirent}
    {r : State × List FatDirent} (h : fillEntries my (n + 1) items σ entries = .ok r) :
    ∃ k, items = some k ∧
      fillEntries my n (σ.next k)
        (freeItem { σ with dirs := patchDotDot my σ.dirs (σ.items k).imp.dotDotDirent } k)
        ((σ.items k).dirent :: entries) = .ok r := by
  cases items with
  | none => cases h
  | some k =>
      refine ⟨k, rfl, ?_⟩
      simp only [fillEntries] at h
      cases hdot : (σ.items k).imp.dotDotDirent with
      | none =>
          simp only [hdot] at h
          exact h
      | some d =>
          simp only [hdot] at h
          split at h
          · exact h
          · cases h

/-- The table is filled from as many items as the loop counted. -/
theorem apart_of_fillEntries {my : ℕ} : ∀ {n : ℕ} {items : Option ℕ} {σ σ' : State}
    {entries entries' : List FatDirent}, fillEntries my n items σ entries = .ok (σ', entries') →
      σ'.Apart segs held → σ.Apart ((items, n) :: segs) held := by
  intro n
  induction n with
  | zero =>
      intro items σ σ' entries entries' hrun h
      cases hrun
      exact h.nil_seg items
  | succ n ih =>
      intro items σ σ' entries entries' hrun h
      obtain ⟨k, rfl, hrest⟩ := fillEntries_succ hrun
      exact (apart_of_freeItem (ih hrest h)).of_seg_pop

theorem fs_fillEntries {my : ℕ} : ∀ {n : ℕ} {items : Option ℕ} {σ σ' : State}
    {entries entries' : List FatDirent}, fillEntries my n items σ entries = .ok (σ', entries') →
      σ'.fs = σ.fs := by
  intro n
  induction n with
  | zero =>
      intro items σ σ' entries entries' hrun
      cases hrun
      rfl
  | succ n ih =>
      intro items σ σ' entries entries' hrun
      obtain ⟨k, rfl, hrest⟩ := fillEntries_succ hrun
      exact (ih hrest).trans rfl

end Items

/-! ## One name -/

section Entry

variable {path name : List UInt8} {type : EntryType} {below rest : Tree} (junk : Junk) (l : Loop)

theorem fate_eq_skipped : fate path name type = .skipped ↔
    name.head? = some 46 ∨ pathMax ≤ (chPath path name).length := by
  unfold fate
  split
  · exact iff_of_true rfl ‹_›
  · split <;> exact iff_of_false (by decide) ‹_›

theorem fate_eq_imported : fate path name type = .imported ↔
    fate path name type ≠ .skipped ∧ convertible name ∧ type ≠ .other := by
  unfold fate
  split
  · simp
  · split
    · simp_all
    · simp_all

/-- A name that is rejected although it can be converted is of an unsupported type. -/
theorem eq_other_of_rejected (h : fate path name type = .rejected) (hname : convertible name) :
    type = .other := by
  by_contra hne
  have hskip : fate path name type ≠ .skipped := by
    rw [h]
    decide
  have himported := fate_eq_imported.mpr ⟨hskip, hname, hne⟩
  rw [h] at himported
  cases himported

/-- The item that the loop takes for a name. -/
abbrev Loop.taken (junk : Junk) (l : Loop) : ℕ := (allocItem junk l.state).1

/-- A name that is rejected gives its item back. -/
def rejectItem (junk : Junk) (l : Loop) (item : Item) : Loop :=
  skipItem { l with
    state := (allocItem junk l.state).2.setItem (l.taken junk) item, item := some (l.taken junk) }

theorem beginEntry_skipped (h : fate path name type = .skipped) :
    beginEntry junk path name l = .ok (.skipped (skipItem l)) := by
  unfold beginEntry
  rcases fate_eq_skipped.mp h with hdot | hlong
  · rw [if_pos hdot]
  · rw [if_pos hlong, ite_self]

theorem beginEntry_not_convertible (h : fate path name type ≠ .skipped)
    (hname : ¬ convertible name) :
    ∃ item, beginEntry junk path name l = .ok (.skipped (rejectItem junk l item)) := by
  obtain ⟨hdot, hlong⟩ := not_or.mp (mt fate_eq_skipped.mpr h)
  refine ⟨(allocItem junk l.state).2.items (l.taken junk), ?_⟩
  unfold beginEntry rejectItem
  rw [if_neg hdot, if_neg hlong]
  simp only [convertName_of_not_convertible hname]
  rw [State.setItem, Function.update_eq_self]

theorem beginEntry_convertible (h : fate path name type ≠ .skipped) (hname : convertible name) :
    if nameReach name ≤ itemSize then
      ∃ item, item.name = convertedName name ∧ beginEntry junk path name l =
        .ok (.ready ((allocItem junk l.state).2.setItem (l.taken junk) item) (l.taken junk))
    else beginEntry junk path name l = .error .undefined := by
  obtain ⟨hdot, hlong⟩ := not_or.mp (mt fate_eq_skipped.mpr h)
  unfold beginEntry
  rw [if_neg hdot, if_neg hlong]
  obtain ⟨m, hm, hbytes⟩ := convertName_of_convertible hname
    fun i => ((allocItem junk l.state).2.items (l.taken junk)).name.getD i 0
  split
  · simp only [hm, if_neg (Nat.not_lt.mpr ‹_›), hbytes]
    exact ⟨_, rfl, rfl⟩
  · simp only [hm, if_pos (Nat.lt_of_not_le ‹_›)]

theorem readEntries_skipped (h : fate path name type = .skipped) :
    readEntries junk (.entry name type below rest) path l =
      readEntries junk rest path (skipItem l) := by
  rw [readEntries, beginEntry_skipped junk l h]
  rfl

theorem readEntries_rejected (h : fate path name type = .rejected) :
    (FitsItem path name type ∧ ∃ item, readEntries junk (.entry name type below rest) path l =
      readEntries junk rest path (rejectItem junk l item)) ∨
    (¬ FitsItem path name type ∧
      readEntries junk (.entry name type below rest) path l = .error .undefined) := by
  have hskip : fate path name type ≠ .skipped := by
    rw [h]
    decide
  by_cases hname : convertible name
  · obtain rfl := eq_other_of_rejected h hname
    have hbegin := beginEntry_convertible junk l hskip hname
    split at hbegin
    · obtain ⟨item, -, hitem⟩ := hbegin
      refine Or.inl ⟨fun _ _ => ‹_›, item, ?_⟩
      rw [readEntries, hitem]
      rfl
    · refine Or.inr ⟨fun hfits => absurd (hfits hskip hname) ‹_›, ?_⟩
      rw [readEntries, hbegin]
      rfl
  · obtain ⟨item, hitem⟩ := beginEntry_not_convertible junk l hskip hname
    refine Or.inl ⟨fun _ hconv => absurd hconv hname, item, ?_⟩
    rw [readEntries, hitem]
    rfl

/-- The import of a child up to the item for it. -/
theorem beginEntry_imported (h : fate path name type = .imported) :
    (FitsItem path name type ∧ ∃ item, item.name = convertedName name ∧
      beginEntry junk path name l =
        .ok (.ready ((allocItem junk l.state).2.setItem (l.taken junk) item) (l.taken junk))) ∨
    (¬ FitsItem path name type ∧ beginEntry junk path name l = .error .undefined) := by
  obtain ⟨hskip, hname, -⟩ := fate_eq_imported.mp h
  have hbegin := beginEntry_convertible junk l hskip hname
  split at hbegin
  · exact Or.inl ⟨fun _ _ => ‹_›, hbegin⟩
  · exact Or.inr ⟨fun hfits => absurd (hfits hskip hname) ‹_›, hbegin⟩

end Entry

/-! ## One child -/

section Child

variable {σ : State} (path : List UInt8) (out : Out) {fs' : Fs} {extent : Extent} {first : ℕ}

/-- `import_file` when there are clusters for the file. -/
theorem importFile_eq {st : Stat}
    (h : fsAllocExtent σ.fs (u32 st.size) .file = some (fs', some (extent, first))) :
    ∃ files, importFile σ path (some st) out =
      .ok (({ σ with fs := fs', files := files }).setImported out ⟨first, u32 st.size, none⟩, 0) := by
  simp only [importFile, h]
  exact ⟨_, rfl⟩

/-- The state in which the table of a directory is filled. -/
def tableOpened (σ : State) (fs' : Fs) (out : Out) (first : ℕ) : State :=
  ({ σ with fs := fs' }).setImported out
    { ({ σ with fs := fs' } : State).imported out with firstCluster := first }

/-- The state with the table of a directory. -/
def tableClosed (σ : State) (dir : Dir) (out : Out) : State :=
  ({ σ with dirs := σ.dirs ++ [dir] }).setImported out
    { ({ σ with dirs := σ.dirs ++ [dir] } : State).imported out with
      dotDotDirent := some σ.dirs.length, size := 0 }

/-- The placeholder for the first cluster of a parent. -/
def placeholder : ℕ := 2 ^ 32 - 1

/-- The second half of `import_dir` when there are clusters for the table. -/
theorem finishDir_eq {l : Loop}
    (h : fsAllocExtent l.state.fs (tableSize l.count) .dir = some (fs', some (extent, first))) :
    finishDir l path false out =
      fillEntries first l.count l.items (tableOpened l.state fs' out first) [] >>= fun r =>
        .ok (tableClosed r.1 ⟨path, extent, tableSize l.count,
          ownEntries placeholder first ++ r.2⟩ out, 0) := by
  have hsize : u32 (32 * (l.count + if false = true then 0 else 2)) = tableSize l.count := rfl
  unfold finishDir
  simp only [hsize, h]
  rfl

variable {path out}

/-- A call that comes back has found no clusters and freed the items, or it has made a table. -/
theorem finishDir_eq_ok {l : Loop} {σ' : State} {ret : ℤ}
    (h : finishDir l path false out = .ok (σ', ret)) :
    (∃ fs', fsAllocExtent l.state.fs (tableSize l.count) .dir = some (fs', none) ∧
        freeItems { l.state with fs := fs' } l.items = .ok σ' ∧ ret = -1) ∨
      ∃ fs' extent first σ₁ es,
        fsAllocExtent l.state.fs (tableSize l.count) .dir = some (fs', some (extent, first)) ∧
        fillEntries first l.count l.items (tableOpened l.state fs' out first) [] = .ok (σ₁, es) ∧
        σ' = tableClosed σ₁ ⟨path, extent, tableSize l.count,
          ownEntries placeholder first ++ es⟩ out ∧ ret = 0 := by
  have hsize : u32 (32 * (l.count + if false = true then 0 else 2)) = tableSize l.count := rfl
  cases halloc : fsAllocExtent l.state.fs (tableSize l.count) .dir with
  | none =>
      simp only [finishDir, hsize, halloc] at h
      cases h
  | some r =>
      obtain ⟨fs', found⟩ := r
      cases found with
      | none =>
          simp only [finishDir, hsize, halloc] at h
          obtain ⟨σ₁, hfree, hret⟩ := bind_eq_ok.mp h
          cases hret
          exact Or.inl ⟨fs', rfl, hfree, rfl⟩
      | some place =>
          obtain ⟨extent, first⟩ := place
          rw [finishDir_eq path out halloc] at h
          obtain ⟨⟨σ₁, es⟩, hfill, hret⟩ := bind_eq_ok.mp h
          cases hret
          exact Or.inr ⟨fs', extent, first, σ₁, es, rfl, hfill, rfl, rfl⟩

theorem apart_tableOpened {segs : List (Option ℕ × ℕ)} {held : List ℕ} :
    (tableOpened σ fs' out first).Apart segs held ↔ σ.Apart segs held := by
  unfold State.Apart tableOpened
  rw [next_setImported, freeItemsHead_setImported]
  rfl

theorem apart_tableClosed {dir : Dir} {segs : List (Option ℕ × ℕ)} {held : List ℕ} :
    (tableClosed σ dir out).Apart segs held ↔ σ.Apart segs held := by
  unfold State.Apart tableClosed
  rw [next_setImported, freeItemsHead_setImported]
  rfl

theorem fs_tableOpened : (tableOpened σ fs' out first).fs = fs' := fs_setImported _ _

theorem fs_tableClosed {dir : Dir} : (tableClosed σ dir out).fs = σ.fs := fs_setImported _ _

end Child

@[simp] theorem fs_allocItem (junk : Junk) (σ : State) : (allocItem junk σ).2.fs = σ.fs := by
  unfold allocItem
  split <;> rfl

/-! ## Backwards -/

section Back

variable {clusterSize dataSize limit : ℕ} (hsize : ValidSize clusterSize dataSize)
variable (row : Child → FatDirent) (junk : Junk)

/-- The clusters and the count after a run are those of the plan. -/
structure Cleared (clusterSize dataSize limit : ℕ) (plan : Plan) (l l' : Loop) : Prop where
  room : Room clusterSize dataSize limit l'.state.fs
  next : l'.state.fs.nextCluster = plan.next
  count : l'.count = l.count + plan.children.length

include hsize

/-- `import_file` leaves the stacks of items alone. -/
theorem importFile_back {σ σ' : State} {path : List UInt8} {out : Out} {st : Stat} {ret : ℤ}
    (hroom : Room clusterSize dataSize limit σ.fs)
    (hlimit : σ.fs.nextCluster + u32 st.size ⌈/⌉ clusterSize ≤ limit)
    (hrun : importFile σ path (some st) out = .ok (σ', ret)) :
    Room clusterSize dataSize limit σ'.fs ∧
      σ'.fs.nextCluster = σ.fs.nextCluster + u32 st.size ⌈/⌉ clusterSize ∧
      ∀ {segs held}, σ'.Apart segs held → σ.Apart segs held := by
  obtain ⟨fs', extent, halloc, hroom', hnext⟩ := hroom.alloc hsize hlimit .file
  obtain ⟨files, hfile⟩ := importFile_eq path out halloc
  rw [hfile] at hrun
  cases hrun
  rw [fs_setImported]
  refine ⟨hroom', hnext, fun {segs held} h => ?_⟩
  unfold State.Apart at h
  rw [next_setImported, freeItemsHead_setImported] at h
  exact h

/-- `import_dir` frees the items that it counted. -/
theorem finishDir_back {l : Loop} {σ' : State} {path : List UInt8} {out : Out} {ret : ℤ}
    (hroom : Room clusterSize dataSize limit l.state.fs)
    (hlimit : l.state.fs.nextCluster + tableSize l.count ⌈/⌉ clusterSize ≤ limit)
    (hrun : finishDir l path false out = .ok (σ', ret)) :
    Room clusterSize dataSize limit σ'.fs ∧
      σ'.fs.nextCluster = l.state.fs.nextCluster + tableSize l.count ⌈/⌉ clusterSize ∧
      ∀ {segs held}, σ'.Apart segs held → l.state.Apart ((l.items, l.count) :: segs) held := by
  obtain ⟨fs', extent, halloc, hroom', hnext⟩ := hroom.alloc hsize hlimit .dir
  rw [finishDir_eq path out halloc, bind_eq_ok] at hrun
  obtain ⟨⟨σ₁, entries⟩, hfill, hclosed⟩ := hrun
  cases hclosed
  rw [fs_tableClosed, fs_fillEntries hfill, fs_tableOpened]
  refine ⟨hroom', hnext, fun {segs held} h => ?_⟩
  exact apart_tableOpened.mp (apart_of_fillEntries hfill (apart_tableClosed.mp h))

/-- A run over the names of a directory, from its end to its beginning. -/
theorem readEntries_back (tree : Tree) : ∀ {path : List UInt8} {l l' : Loop} (dirs : ℕ),
    Room clusterSize dataSize limit l.state.fs →
    (tree.plan row clusterSize path l.state.fs.nextCluster dirs).next ≤ limit →
    tree.All Succeeds path → (∀ k, l.item = some k → l.state.freeItemsHead = some k) →
    readEntries junk tree path l = .ok l' →
    Cleared clusterSize dataSize limit
        (tree.plan row clusterSize path l.state.fs.nextCluster dirs) l l' ∧
      tree.All FitsItem path ∧
      ∀ segs held, l'.state.Apart ((l'.items, l'.count) :: segs) held →
        l.state.Apart ((l.items, l.count) :: segs) held ∧ tree.Orderly path l.item.isSome := by
  induction tree with
  | done =>
      intro path l l' dirs hroom _ _ _ hrun
      cases hrun
      exact ⟨⟨hroom, rfl, rfl⟩, trivial, fun segs held h => ⟨h, trivial⟩⟩
  | entry name type below rest ihbelow ihrest =>
      intro path l l' dirs hroom hlimit hsucceeds hstale hrun
      obtain ⟨hsucceed, hsucceeds_below, hsucceeds_rest⟩ := hsucceeds
      cases hfate : fate path name type with
      | skipped =>
          have hne : fate path name type ≠ .imported := by
            rw [hfate]
            decide
          have hfits : FitsItem path name type := fun hskip => absurd hfate hskip
          rw [plan_not_imported hne] at hlimit ⊢
          rw [readEntries_skipped junk l hfate] at hrun
          simp only [Tree.Orderly, hfate]
          cases hitem : l.item with
          | none =>
              have hskip : skipItem l = l := by rw [skipItem, hitem]
              rw [hskip] at hrun
              obtain ⟨hclear, hrest, hback⟩ := ihrest dirs hroom hlimit hsucceeds_rest hstale hrun
              refine ⟨hclear, ⟨hfits, fun h => absurd h.1 hne, hrest⟩, fun segs held h => ?_⟩
              obtain ⟨hapart, horder⟩ := hback segs held h
              rw [hitem] at horder
              exact ⟨hapart, rfl, horder⟩
          | some k =>
              -- the item of the name before is freed once more
              have hskip : skipItem l = { l with state := freeItem l.state k } := by
                rw [skipItem, hitem]
              rw [hskip] at hrun
              obtain ⟨hclear, hrest, hback⟩ := ihrest (l := { l with state := freeItem l.state k })
                dirs hroom hlimit hsucceeds_rest (fun j hj => hitem.symm.trans hj) hrun
              refine ⟨⟨hclear.room, hclear.next, hclear.count⟩,
                ⟨hfits, fun h => absurd h.1 hne, hrest⟩, fun segs held h => ?_⟩
              exact absurd (hback segs held h).1 (not_apart_of_freed (hstale k hitem))
      | rejected =>
          have hne : fate path name type ≠ .imported := by
            rw [hfate]
            decide
          rw [plan_not_imported hne] at hlimit ⊢
          simp only [Tree.Orderly, hfate]
          rcases readEntries_rejected junk l hfate with ⟨hfits, item, hreject⟩ | ⟨-, herror⟩
          · rw [hreject] at hrun
            have hfs : (rejectItem junk l item).state.fs = l.state.fs := fs_allocItem junk l.state
            obtain ⟨hclear, hrest, hback⟩ := ihrest dirs (hfs ▸ hroom) (hfs ▸ hlimit)
              hsucceeds_rest (fun k hk => hk) hrun
            rw [hfs] at hclear
            refine ⟨⟨hclear.room, hclear.next, hclear.count⟩,
              ⟨hfits, fun h => absurd h.1 hne, hrest⟩, fun segs held h => ?_⟩
            obtain ⟨hapart, horder⟩ := hback segs held h
            exact ⟨apart_of_allocItem (apart_of_setItem (apart_of_freeItem hapart)), horder⟩
          · rw [herror] at hrun
            cases hrun
      | imported =>
          simp only [Tree.Orderly, hfate]
          obtain ⟨hreg, hdir⟩ := hsucceed hfate
          rcases beginEntry_imported junk l hfate with ⟨hfits, item, -, hbegin⟩ | ⟨-, herror⟩
          · rw [readEntries, hbegin, bind_ok] at hrun
            generalize hσ : (allocItem junk l.state).2.setItem (l.taken junk) item = σ at hrun
            have hfs : σ.fs = l.state.fs := by
              rw [← hσ]
              exact fs_allocItem junk l.state
            have htaken : ∀ {segs held}, σ.Apart segs (l.taken junk :: held) →
                l.state.Apart segs held := by
              intro segs held h
              rw [← hσ] at h
              exact apart_of_allocItem (apart_of_setItem h)
            match type, hreg, hdir with
            | .other, _, _ => exact absurd rfl (fate_eq_imported.mp hfate).2.2
            | .reg none, hreg, _ => exact absurd rfl hreg
            | .dir false, _, hdir => exact absurd rfl hdir
            | .reg (some st), _, _ =>
                rw [plan_reg hfate] at hlimit ⊢
                obtain ⟨⟨σ₁, ret⟩, hfile, hrest⟩ := bind_eq_ok.mp hrun
                obtain ⟨hroom₁, hnext₁, hback₁⟩ := importFile_back hsize (hfs ▸ hroom)
                  (hfs ▸ le_plan_next.trans hlimit) hfile
                rw [hfs] at hnext₁
                have hadded : (addItem l σ₁ (l.taken junk) false).state.fs.nextCluster =
                  l.state.fs.nextCluster + u32 st.size ⌈/⌉ clusterSize := hnext₁
                obtain ⟨hclear, hfits_rest, hback⟩ := ihrest dirs hroom₁ (hadded ▸ hlimit)
                  hsucceeds_rest (fun k hk => by cases hk) hrest
                rw [hadded] at hclear
                refine ⟨⟨hclear.room, hclear.next, ?_⟩, ⟨hfits, by simp, hfits_rest⟩,
                  fun segs held h => ?_⟩
                · rw [hclear.count, List.length_cons]
                  exact Nat.add_right_comm l.count 1 _
                · obtain ⟨hapart, horder⟩ := hback segs held h
                  exact ⟨htaken (hback₁ (apart_of_addItem hapart)), by simp, horder⟩
            | .dir true, _, _ =>
                rw [plan_dir hfate] at hlimit ⊢
                obtain ⟨sub, hsub, hrun⟩ := bind_eq_ok.mp hrun
                obtain ⟨⟨σ₁, ret⟩, hfinish, hrest⟩ := bind_eq_ok.mp hrun
                have hstart : (Loop.start σ).state.fs = l.state.fs := hfs
                obtain ⟨hclear_sub, hfits_below, hback_sub⟩ :=
                  ihbelow (l := .start σ) dirs (hstart ▸ hroom)
                  (hstart ▸ (Nat.le_add_right _ _).trans (le_plan_next.trans hlimit))
                  (hsucceeds_below ⟨hfate, rfl⟩) (fun k hk => by cases hk) hsub
                rw [hstart] at hclear_sub
                have hcount : sub.count = (below.plan row clusterSize (chPath path name)
                    l.state.fs.nextCluster dirs).children.length := by
                  rw [hclear_sub.count]
                  exact Nat.zero_add _
                obtain ⟨hroom₁, hnext₁, hback₁⟩ := finishDir_back hsize hclear_sub.room
                  (by rw [hclear_sub.next, hcount]; exact le_plan_next.trans hlimit) hfinish
                rw [hclear_sub.next, hcount] at hnext₁
                generalize hplan : below.plan row clusterSize (chPath path name)
                  l.state.fs.nextCluster dirs = plan at hlimit hnext₁ ⊢
                have hadded : (addItem l σ₁ (l.taken junk) true).state.fs.nextCluster =
                  plan.next + tableSize plan.children.length ⌈/⌉ clusterSize := hnext₁
                obtain ⟨hclear, hfits_rest, hback⟩ := ihrest (plan.dirs + 1) hroom₁
                  (hadded ▸ hlimit) hsucceeds_rest (fun k hk => by cases hk) hrest
                rw [hadded] at hclear
                refine ⟨⟨hclear.room, hclear.next, ?_⟩, ⟨hfits, fun _ => hfits_below, hfits_rest⟩,
                  fun segs held h => ?_⟩
                · rw [hclear.count, List.length_cons]
                  exact Nat.add_right_comm l.count 1 _
                · obtain ⟨hapart, horder⟩ := hback segs held h
                  obtain ⟨hapart_sub, horder_sub⟩ :=
                    hback_sub _ _ (hback₁ (apart_of_addItem hapart))
                  exact ⟨htaken hapart_sub.of_seg_cons, fun _ => horder_sub, horder⟩
          · rw [readEntries, herror] at hrun
            cases hrun

end Back

end SystemExtras.Fat
