import SystemExtras.Fat.ImportTables

/-!
# What the import lists

The table of a directory should hold an entry for each child that can be imported, in
the order of `readdir`, with the child's 8.3 name, attribute, first cluster and size, and
the free list should hold no item twice and none that is in use.

`listsChildren_iff` says for which trees this is so.  The variable `item` of the loop
keeps the item of a rejected name, and the code at `skip_item` frees it again when the
next name is skipped before it gets an item of its own.  Besides, names and sizes must
survive their conversion.
-/

namespace SystemExtras.Fat

/-! ## The right entries -/

/-- The entry that belongs to a child. -/
def Child.right (c : Child) : FatDirent :=
  fatDirentSet (shortName c.name) (if c.isDir then fatAttrSubdir else 0) c.first c.size

/-- The size that a child has. -/
def EntryType.size : EntryType → ℕ
  | .reg (some st) => st.size
  | _ => 0

/-- A name and a size that survive their conversion. -/
def Exact (path name : List UInt8) (type : EntryType) : Prop :=
  fate path name type = .imported → ProperName name ∧ type.size < 2 ^ 32

instance (path name : List UInt8) (type : EntryType) : Decidable (Exact path name type) :=
  inferInstanceAs (Decidable (_ → _))

theorem u32_eq_self_iff {n : ℕ} : u32 n = n ↔ n < 2 ^ 32 := by
  unfold u32
  omega

theorem dirent_eq_right_iff {c : Child} (h : convertible c.name) :
    c.dirent = c.right ↔ ProperName c.name ∧ c.size < 2 ^ 32 := by
  rw [← convertedName_eq_iff h, ← u32_eq_self_iff]
  have hconverted : (convertedName c.name).take 11 = convertedName c.name :=
    List.take_of_length_le (by simp [convertedName, Mem.bytes])
  have hshort : (shortName c.name).take 11 = shortName c.name :=
    List.take_of_length_le (by simp [shortName, Mem.bytes])
  unfold Child.dirent Child.right fatDirentSet fatDirentSetFirstCluster
  rw [hconverted, hshort]
  constructor
  · intro h
    exact ⟨congrArg FatDirent.name h, congrArg FatDirent.size h⟩
  · rintro ⟨hname, hsize⟩
    rw [hname, hsize]

section Rows

variable {clusterSize : ℕ}

/-- The form of the entries is no matter for anything else. -/
theorem plan_row (row row' : Child → FatDirent) (tree : Tree) :
    ∀ (path : List UInt8) (next dirs : ℕ),
      (tree.plan row clusterSize path next dirs).children =
          (tree.plan row' clusterSize path next dirs).children ∧
        (tree.plan row clusterSize path next dirs).next =
          (tree.plan row' clusterSize path next dirs).next ∧
        (tree.plan row clusterSize path next dirs).dirs =
          (tree.plan row' clusterSize path next dirs).dirs := by
  induction tree with
  | done => exact fun path next dirs => ⟨rfl, rfl, rfl⟩
  | entry name type below rest ihbelow ihrest =>
      intro path next dirs
      rcases plan_cases path name below rest type with ⟨st, rfl, hfate⟩ | ⟨rfl, hfate⟩ | hplan
      · obtain ⟨hchildren, hnext, hdirs⟩ :=
          ihrest path (next + u32 st.size ⌈/⌉ clusterSize) dirs
        rw [plan_reg hfate, plan_reg hfate]
        exact ⟨congrArg (List.cons _) hchildren, hnext, hdirs⟩
      · obtain ⟨hchildren, hnext, hdirs⟩ := ihbelow (chPath path name) next dirs
        rw [plan_dir hfate, plan_dir hfate]
        simp only [hchildren, hnext, hdirs]
        obtain ⟨hchildren, hnext, hdirs⟩ := ihrest path
          ((below.plan row' clusterSize (chPath path name) next dirs).next +
            tableSize (below.plan row' clusterSize (chPath path name) next dirs).children.length
              ⌈/⌉ clusterSize)
          ((below.plan row' clusterSize (chPath path name) next dirs).dirs + 1)
        exact ⟨congrArg (List.cons _) hchildren, hnext, hdirs⟩
      · rw [hplan, hplan]
        exact ihrest path next dirs

theorem append_cons_eq_iff {α : Type*} {a a' c c' : List α} {b b' : α} (h : a.length = a'.length) :
    a ++ b :: c = a' ++ b' :: c' ↔ a = a' ∧ b = b' ∧ c = c' := by
  constructor
  · intro heq
    obtain ⟨ha, htail⟩ := List.append_inj heq h
    exact ⟨ha, List.cons.inj htail⟩
  · rintro ⟨rfl, rfl, rfl⟩
    rfl

/-- A name whose import succeeds becomes a file, a directory or nothing. -/
theorem Succeeds.cases {path name : List UInt8} {type : EntryType} (h : Succeeds path name type) :
    (∃ st, type = .reg (some st) ∧ fate path name (.reg (some st)) = .imported) ∨
      (type = .dir true ∧ fate path name (.dir true) = .imported) ∨
      fate path name type ≠ .imported := by
  by_cases hfate : fate path name type = .imported
  · obtain ⟨hreg, hdir⟩ := h hfate
    match type, hfate with
    | .reg (some st), hfate => exact Or.inl ⟨st, rfl, hfate⟩
    | .dir true, hfate => exact Or.inr (Or.inl ⟨rfl, hfate⟩)
    | .reg none, _ => exact absurd rfl hreg
    | .dir false, _ => exact absurd rfl hdir
    | .other, hfate => exact absurd rfl (fate_eq_imported.mp hfate).2.2
  · exact Or.inr (Or.inr hfate)

/-- The tables and the entries of a directory are right for exact names and sizes only. -/
theorem rows_eq_iff (tree : Tree) : ∀ {path : List UInt8} {next dirs : ℕ} (own own' : ℕ),
    tree.All Succeeds path →
    ((((tree.plan Child.dirent clusterSize path next dirs).tables own).map (List.drop 2) =
        ((tree.plan Child.right clusterSize path next dirs).tables own').map (List.drop 2) ∧
      (tree.plan Child.dirent clusterSize path next dirs).children.map Child.dirent =
        (tree.plan Child.right clusterSize path next dirs).children.map Child.right) ↔
      tree.All Exact path) := by
  induction tree with
  | done => exact fun {path next dirs} own own' _ => iff_of_true ⟨rfl, rfl⟩ trivial
  | entry name type below rest ihbelow ihrest =>
      intro path next dirs own own' hsucceeds
      obtain ⟨hsucceed, hsucceeds_below, hsucceeds_rest⟩ := hsucceeds
      simp only [Tree.All]
      rcases hsucceed.cases with ⟨st, rfl, hfate⟩ | ⟨rfl, hfate⟩ | hfate
      · have hname := (fate_eq_imported.mp hfate).2.1
        have hexact : Exact path name (.reg (some st)) ↔ ProperName name ∧ st.size < 2 ^ 32 :=
          ⟨fun h => h hfate, fun h _ => h⟩
        rw [plan_reg hfate, plan_reg hfate, hexact,
          ← @ihrest path (next + u32 st.size ⌈/⌉ clusterSize) dirs own own' hsucceeds_rest,
          List.map_cons, List.map_cons, List.cons.injEq, dirent_eq_right_iff hname]
        simp only [reduceCtorEq, and_false, false_imp_iff, true_and]
        exact and_left_comm
      · have hname := (fate_eq_imported.mp hfate).2.1
        have hexact : Exact path name (.dir true) ↔ ProperName name ∧ 0 < 2 ^ 32 :=
          ⟨fun h => h hfate, fun h _ => h⟩
        obtain ⟨hchildren, hnext, hdirs⟩ :
            (below.plan Child.dirent clusterSize (chPath path name) next dirs).children = _ ∧ _ :=
          plan_row Child.dirent Child.right below (chPath path name) next dirs
        have hnumber : ∀ row first, (below.plan row clusterSize (chPath path name) next dirs).dirs =
            dirs + ((below.plan row clusterSize (chPath path name) next dirs).tables first).length :=
          fun row first => plan_dirs below (chPath path name) next dirs first
        have hlen : ∀ first, ((below.plan Child.dirent clusterSize (chPath path name) next
            dirs).tables first).length = ((below.plan Child.right clusterSize (chPath path name) next
            dirs).tables first).length := by
          intro first
          have h₁ := hnumber Child.dirent first
          have h₂ := hnumber Child.right first
          omega
        have hbelow := fun first => @ihbelow (chPath path name) next dirs first first
          (hsucceeds_below ⟨hfate, rfl⟩)
        rw [plan_dir hfate, plan_dir hfate]
        simp only [hchildren, hnext, hdirs] at hbelow ⊢
        generalize below.plan Child.right clusterSize (chPath path name) next dirs = sub at *
        generalize below.plan Child.dirent clusterSize (chPath path name) next dirs = sub' at *
        generalize firstOf (tableSize sub.children.length) sub.next = first
        have hrest := @ihrest path (sub.next + tableSize sub.children.length ⌈/⌉ clusterSize)
          (sub.dirs + 1) own own' hsucceeds_rest
        have hown : ∀ own es, (ownEntries own first ++ es).drop 2 = es := fun own es => rfl
        rw [hexact, ← hbelow first, ← hrest, List.map_append, List.map_append, List.map_cons,
          List.map_cons, hown, hown, append_cons_eq_iff (by simp [hlen first]), List.map_cons,
          List.map_cons, List.cons.injEq, dirent_eq_right_iff hname]
        constructor
        · rintro ⟨⟨ha, hb, hc⟩, hchild, hr⟩
          exact ⟨hchild, fun _ => ⟨ha, hb⟩, hc, hr⟩
        · rintro ⟨hchild, hab, hc, hr⟩
          obtain ⟨ha, hb⟩ := hab ⟨hfate, trivial⟩
          exact ⟨⟨ha, hb, hc⟩, hchild, hr⟩
      · rw [plan_not_imported hfate, plan_not_imported hfate, ihrest own own' hsucceeds_rest]
        exact ⟨fun h => ⟨fun himported => absurd himported hfate, fun himported =>
          absurd himported.1 hfate, h⟩, fun h => h.2.2⟩

end Rows

/-! ## Tables that list the children -/

/-- The free items of a state. -/
structure FreeList (σ : State) (fl : List ℕ) : Prop where
  ends : Ends σ.next σ.freeItemsHead fl
  nodup : fl.Nodup
  bound : ∀ k ∈ fl, k < σ.itemCount

/-- What a call of `import_dir` in the state `σ`, whose other items are in use by the callers, should
have done when it ends in `σ'`. -/
structure ListsChildren (clusterSize : ℕ) (tree : Tree) (path : List UInt8) (σ : State)
    (fl : List ℕ) (σ' : State) : Prop where
  /-- There are new tables, for the directories below and for the directory itself.  Behind two
  leading entries each has the right one for each child. -/
  tables : ∃ new, σ'.dirs.map Dir.entries = σ.dirs.map Dir.entries ++ new ∧
    (∀ table ∈ new, 2 ≤ table.length) ∧
    new.map (List.drop 2) =
      ((tree.plan Child.right clusterSize path σ.fs.nextCluster σ.dirs.length).tables 0).map
        (List.drop 2) ++
        [(tree.plan Child.right clusterSize path σ.fs.nextCluster σ.dirs.length).children.map
          Child.right]
  /-- The free list holds no item twice and none that is in use. -/
  free : ∃ fl', Ends σ'.next σ'.freeItemsHead fl' ∧ fl'.Nodup ∧
    ∀ k ∈ fl', k ∈ fl ∨ σ.itemCount ≤ k

/-- The first cluster behind the ones that the import of a directory needs. -/
def Tree.clusterEnd (clusterSize : ℕ) (tree : Tree) (path : List UInt8) (σ : State) : ℕ :=
  let plan := tree.plan Child.right clusterSize path σ.fs.nextCluster σ.dirs.length
  plan.next + tableSize plan.children.length ⌈/⌉ clusterSize

theorem FreeList.owns {σ : State} {fl : List ℕ} (h : FreeList σ fl) : Owns σ fl σ fl [] :=
  ⟨h.ends, h.nodup, h.bound, fun _ hk => Or.inl hk, le_rfl, fun _ _ _ => rfl⟩

theorem two_le_tables {row : Child → FatDirent} {clusterSize : ℕ} (tree : Tree) :
    ∀ (path : List UInt8) (next dirs own : ℕ),
      ∀ table ∈ (tree.plan row clusterSize path next dirs).tables own, 2 ≤ table.length := by
  induction tree with
  | done => exact fun path next dirs own table h => absurd h List.not_mem_nil
  | entry name type below rest ihbelow ihrest =>
      intro path next dirs own table h
      rcases plan_cases path name below rest type with ⟨st, rfl, hfate⟩ | ⟨rfl, hfate⟩ | hplan
      · rw [plan_reg hfate] at h
        exact ihrest _ _ _ _ table h
      · rw [plan_dir hfate] at h
        rcases List.mem_append.mp h with h | h
        · exact ihbelow _ _ _ _ table h
        · rcases List.mem_cons.mp h with rfl | h
          · exact Nat.le_add_left _ _
          · exact ihrest _ _ _ _ table h
      · rw [hplan] at h
        exact ihrest _ _ _ _ table h

section Import

variable {clusterSize dataSize : ℕ} (hsize : ValidSize clusterSize dataSize)
variable (junk : Junk) {tree : Tree} {path : List UInt8} {σ : State} {fl : List ℕ} {out : Out}
variable (hroom : Room clusterSize dataSize (tree.clusterEnd clusterSize path σ) σ.fs)
variable (hsucceeds : tree.All Succeeds path)

include hsize hroom hsucceeds

theorem importDir_forth (hfree : FreeList σ fl) (hout : out.Valid σ fl)
    (hfits : tree.All FitsItem path) (horderly : tree.Orderly path false) :
    ∃ σ' fl', importDir junk σ path false out true tree = .ok (σ', 0) ∧
      Imports clusterSize dataSize (tree.clusterEnd clusterSize path σ)
        (tree.plan Child.dirent clusterSize path σ.fs.nextCluster σ.dirs.length) out σ fl σ' fl' := by
  obtain ⟨hchildren, hnext, -⟩ : (tree.plan Child.dirent clusterSize path σ.fs.nextCluster
      σ.dirs.length).children = _ ∧ _ :=
    plan_row Child.dirent Child.right tree path σ.fs.nextCluster σ.dirs.length
  have hlimit : (tree.plan Child.dirent clusterSize path σ.fs.nextCluster σ.dirs.length).next +
      tableSize (tree.plan Child.dirent clusterSize path σ.fs.nextCluster
        σ.dirs.length).children.length ⌈/⌉ clusterSize ≤ tree.clusterEnd clusterSize path σ := by
    rw [hchildren, hnext, Tree.clusterEnd]
  obtain ⟨sub, fl₁, il, hread, hfilled, hroom₁, hnext₁, hdirs₁⟩ :=
    readEntries_forth hsize junk tree (Filled.start hfree.owns) hroom
      ((Nat.le_add_right _ _).trans hlimit) hsucceeds hfits horderly
  obtain ⟨σ', fl', hfinish, himports⟩ :=
    imports_of_read hsize hout hlimit hfilled hroom₁ hnext₁ hdirs₁
  refine ⟨σ', fl', ?_, himports⟩
  rw [importDir, if_pos rfl, hread, bind_ok, hfinish]

theorem importDir_back {σ' : State} {fl' : List ℕ}
    (hrun : importDir junk σ path false out true tree = .ok (σ', 0))
    (hends : Ends σ'.next σ'.freeItemsHead fl') (hnodup : fl'.Nodup) :
    tree.All FitsItem path ∧ tree.Orderly path false := by
  rw [importDir, if_pos rfl] at hrun
  obtain ⟨sub, hread, hfinish⟩ := bind_eq_ok.mp hrun
  obtain ⟨hclear, hfits, hback⟩ := readEntries_back hsize Child.right junk tree σ.dirs.length hroom
    (Nat.le_add_right _ _) hsucceeds (fun k hk => by cases hk) hread
  have hcount : sub.count = (tree.plan Child.right clusterSize path σ.fs.nextCluster
      σ.dirs.length).children.length := hclear.count.trans (Nat.zero_add _)
  have hlimit : sub.state.fs.nextCluster + tableSize sub.count ⌈/⌉ clusterSize ≤
      tree.clusterEnd clusterSize path σ := by
    rw [hclear.next, hcount]
    exact le_rfl
  obtain ⟨-, -, hfinish_back⟩ := finishDir_back hsize hclear.room hlimit hfinish
  have hapart : σ'.Apart [] [] := ⟨fl', [], hends, List.Forall₂.nil, by simpa using hnodup⟩
  exact ⟨hfits, (hback _ _ (hfinish_back hapart)).2⟩

end Import

/-- The tables of a run that went well are right for exact names and sizes only. -/
theorem Imports.tables_iff {clusterSize dataSize limit : ℕ} {tree : Tree} {path : List UInt8}
    {σ σ' : State} {fl fl' : List ℕ} {out : Out} (hsucceeds : tree.All Succeeds path)
    (h : Imports clusterSize dataSize limit
      (tree.plan Child.dirent clusterSize path σ.fs.nextCluster σ.dirs.length) out σ fl σ' fl') :
    (∃ new, σ'.dirs.map Dir.entries = σ.dirs.map Dir.entries ++ new ∧
      (∀ table ∈ new, 2 ≤ table.length) ∧
      new.map (List.drop 2) =
        ((tree.plan Child.right clusterSize path σ.fs.nextCluster σ.dirs.length).tables 0).map
          (List.drop 2) ++
          [(tree.plan Child.right clusterSize path σ.fs.nextCluster σ.dirs.length).children.map
            Child.right]) ↔ tree.All Exact path := by
  have hdirs := h.dirs
  have hrows : ∀ own, _ ↔ tree.All Exact path := fun own =>
    @rows_eq_iff clusterSize tree path σ.fs.nextCluster σ.dirs.length own 0 hsucceeds
  have htwo : ∀ own, ∀ table ∈ (tree.plan Child.dirent clusterSize path σ.fs.nextCluster
      σ.dirs.length).tables own, 2 ≤ table.length :=
    two_le_tables tree path σ.fs.nextCluster σ.dirs.length
  generalize tree.plan Child.dirent clusterSize path σ.fs.nextCluster σ.dirs.length = plan at *
  generalize tree.plan Child.right clusterSize path σ.fs.nextCluster σ.dirs.length = right at *
  generalize firstOf (tableSize plan.children.length) plan.next = first at hdirs
  have hdrop : (plan.tables first ++ [ownEntries placeholder first ++
      plan.children.map Child.dirent]).map (List.drop 2) =
        (plan.tables first).map (List.drop 2) ++ [plan.children.map Child.dirent] := by
    rw [List.map_append]
    rfl
  rw [← hrows first, hdirs]
  constructor
  · rintro ⟨new, hnew, -, hright⟩
    rw [← List.append_cancel_left hnew, hdrop] at hright
    obtain ⟨htables, hlast⟩ := List.append_inj' hright rfl
    exact ⟨htables, List.cons.inj hlast |>.1⟩
  · rintro ⟨htables, hchildren⟩
    refine ⟨_, rfl, ?_, ?_⟩
    · intro table htable
      rcases List.mem_append.mp htable with htable | htable
      · exact htwo first table htable
      · rw [List.mem_singleton.mp htable]
        exact Nat.le_add_left _ _
    · rw [hdrop, htables, hchildren]

/-- A run that went well leaves a sound free list. -/
theorem Imports.free {clusterSize dataSize limit : ℕ} {plan : Plan} {σ σ' : State} {fl fl' : List ℕ}
    {out : Out} (h : Imports clusterSize dataSize limit plan out σ fl σ' fl') :
    ∃ fl', Ends σ'.next σ'.freeItemsHead fl' ∧ fl'.Nodup ∧
      ∀ k ∈ fl', k ∈ fl ∨ σ.itemCount ≤ k := by
  refine ⟨fl', h.owns.ends, (List.nodup_append'.mp h.owns.nodup).2.1, fun k hk => ?_⟩
  have hlent : k ∉ out.lent := fun hin => List.disjoint_of_nodup_append h.owns.nodup hin hk
  rcases h.owns.mem k (List.mem_append_right _ hk) with hin | hle
  · exact Or.inl ((List.mem_append.mp hin).resolve_left hlent)
  · exact Or.inr hle

/-- **What the import lists.**  With clusters for everything, and if every `stat` and `opendir`
succeeds, a call of `import_dir` lists each child once and leaves a sound free list exactly if
no name that is skipped comes right behind one that is rejected, no converted name is longer
than an item, and the names and sizes of the children survive their conversion. -/
theorem listsChildren_iff {clusterSize dataSize : ℕ} (hsize : ValidSize clusterSize dataSize)
    (junk : Junk) {tree : Tree} {path : List UInt8} {σ : State} {fl : List ℕ} {out : Out}
    (hroom : Room clusterSize dataSize (tree.clusterEnd clusterSize path σ) σ.fs)
    (hsucceeds : tree.All Succeeds path) (hfree : FreeList σ fl) (hout : out.Valid σ fl) :
    (∃ σ', importDir junk σ path false out true tree = .ok (σ', 0) ∧
      ListsChildren clusterSize tree path σ fl σ') ↔
    tree.Orderly path false ∧ tree.All FitsItem path ∧ tree.All Exact path := by
  constructor
  · rintro ⟨σ', hrun, hlists⟩
    obtain ⟨fl', hends, hnodup, -⟩ := hlists.free
    obtain ⟨hfits, horderly⟩ := importDir_back hsize junk hroom hsucceeds hrun hends hnodup
    obtain ⟨σ'', fl'', hrun', himports⟩ :=
      importDir_forth hsize junk hroom hsucceeds hfree hout hfits horderly
    obtain rfl : σ' = σ'' := by
      have := hrun.symm.trans hrun'
      simpa using this
    exact ⟨horderly, hfits, (himports.tables_iff hsucceeds).mp hlists.tables⟩
  · rintro ⟨horderly, hfits, hexact⟩
    obtain ⟨σ', fl', hrun, himports⟩ :=
      importDir_forth hsize junk hroom hsucceeds hfree hout hfits horderly
    exact ⟨σ', hrun, (himports.tables_iff hsucceeds).mpr hexact, himports.free⟩

/-! ## Two directories -/

/-- A volume of twenty clusters. -/
def smallVolume : Fs := (fsInit 512 10240).1

/-- The memory at the start of an import into it. -/
def smallStart : State := .initial smallVolume ⟨0, 0, none⟩

/-- Items that `malloc` leaves zeroed. -/
def zeroJunk : Junk := ⟨fun _ => ⟨[], ⟨0, 0, none⟩, none, false⟩, fun _ item => item⟩

theorem smallVolume_valid : ValidSize 512 10240 :=
  ⟨by decide, by decide, by decide, by decide, by decide⟩

/-- A file, a socket and a directory with another file, and the name of the directory itself. -/
def goodListing : Tree :=
  .entry [46] (.dir true) .done
    (.entry [97, 46, 116, 120, 116] (.reg (some ⟨700, 1, 2, 3⟩)) .done
      (.entry [115] .other .done
        (.entry [98] (.dir true) (.entry [99] (.reg (some ⟨5, 1, 4, 3⟩)) .done .done) .done)))

theorem listsChildren_goodListing :
    ∃ σ', importDir zeroJunk smallStart [46] false .tree true goodListing = .ok (σ', 0) ∧
      ListsChildren 512 goodListing [46] smallStart [] σ' := by
  have hinit := inv_init smallVolume_valid
  have hroom : Room 512 10240 (goodListing.clusterEnd 512 [46] smallStart) smallStart.fs :=
    ⟨hinit.geometry, hinit.zero, by decide⟩
  have hfree : FreeList smallStart [] := ⟨rfl, List.nodup_nil, by simp⟩
  have hout : Out.tree.Valid smallStart [] := by simp [Out.Valid, Out.lent]
  refine (listsChildren_iff smallVolume_valid zeroJunk hroom (by decide) hfree hout).mpr
    ⟨?_, ?_, ?_⟩
  · decide
  · decide
  · decide

/-- A socket, the name of the directory itself, and two files. -/
def badListing : Tree :=
  .entry [115] .other .done
    (.entry [46] (.dir true) .done
      (.entry [97] (.reg (some ⟨700, 1, 2, 3⟩)) .done
        (.entry [98] (.reg (some ⟨70, 1, 4, 3⟩)) .done .done)))

/-- Both entries of the table are for the second file, and the only item is in the free list twice. -/
theorem not_listsChildren_badListing :
    ¬ ∃ σ', importDir zeroJunk smallStart [46] false .tree true badListing = .ok (σ', 0) ∧
      ListsChildren 512 badListing [46] smallStart [] σ' := by
  have hinit := inv_init smallVolume_valid
  have hroom : Room 512 10240 (badListing.clusterEnd 512 [46] smallStart) smallStart.fs :=
    ⟨hinit.geometry, hinit.zero, by decide⟩
  rintro ⟨σ', hrun, hlists⟩
  obtain ⟨fl', hends, hnodup, -⟩ := hlists.free
  have horderly := (importDir_back smallVolume_valid zeroJunk hroom (by decide) hrun hends
    hnodup).2
  exact absurd horderly (by decide)

end SystemExtras.Fat
