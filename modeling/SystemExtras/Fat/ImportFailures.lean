import SystemExtras.Fat.ImportListing

/-!
# Children that cannot be imported

`import_file` fails when `stat` does, `import_dir` when `opendir` does, and both when no
clusters are left.  A child that fails should leave no trace: the table of its directory
should hold the entries of the children that were imported, in the order of `readdir`,
each with what the import of that child said.

The loop of `import_dir` does not look at what the two calls return.  A child that fails
is counted and keeps its item, and the item still says what it said when it was used the
last time.  `leavesNoTrace_iff` says that a run leaves no trace exactly when there is no
child that fails, in the directory or below, and nothing goes wrong with the items.

The calls that the loop makes are listed by `loopReports`, which follows the run without
being part of it.  In one direction a child that fails is counted, so that the table is
longer than it should be (`reported_counted`).  In the other the run follows the plan that
the names alone determine (`reported_imported`).
-/

namespace SystemExtras.Fat

/-! ## Reports -/

/-- What the calls for the children of a directory return, one after the other: the value, and the
`imp` of the child behind the call.  A directory that was opened has reports of its own. -/
inductive Reports where
  | done
  | child (name : List UInt8) (isDir : Bool) (ret : ℤ) (imp : Imported) (below rest : Reports)

namespace Reports

/-- The number of calls. -/
def length : Reports → ℕ
  | done => 0
  | child _ _ _ _ _ rest => rest.length + 1

/-- The entries of the children that were imported. -/
def entries : Reports → List FatDirent
  | done => []
  | child name isDir ret imp _ rest =>
      if ret = 0 then direntOf (convertedName name, isDir, imp) :: rest.entries else rest.entries

/-- No call fails. -/
def AllImported : Reports → Prop
  | done => True
  | child _ isDir ret _ below rest =>
      ret = 0 ∧ (isDir = true → below.AllImported) ∧ rest.AllImported

/-- The directories among the children that were imported, and those below them, have the tables that
they should have: their own two entries, which name the directory itself and its parent, and the
entries of the children that were imported. -/
def Tabled (tables : List (List FatDirent)) : ℕ → Reports → Prop
  | _, done => True
  | parent, child _ isDir ret imp below rest =>
      (ret = 0 → isDir = true →
        (∃ d, imp.dotDotDirent = some d ∧
          tables[d]? = some (ownEntries parent imp.firstCluster ++ below.entries)) ∧
        below.Tabled tables imp.firstCluster) ∧
      rest.Tabled tables parent

end Reports

/-- The reports of the calls that the loop of `import_dir` makes, as long as it goes on. -/
def loopReports (junk : Junk) : Tree → List UInt8 → Loop → Reports
  | .done, _, _ => .done
  | .entry name type below rest, path, l =>
      match beginEntry junk path name l with
      | .error _ => .done
      | .ok (.skipped l) => loopReports junk rest path l
      | .ok (.ready σ k) =>
          match type with
          | .reg stat =>
              match importFile σ (chPath path name) stat (.item k) with
              | .error _ => .done
              | .ok (σ', ret) => .child name false ret (σ'.imported (.item k)) .done
                  (loopReports junk rest path (addItem l σ' k false))
          | .dir opens =>
              match importDir junk σ (chPath path name) false (.item k) opens below with
              | .error _ => .done
              | .ok (σ', ret) => .child name true ret (σ'.imported (.item k))
                  (if opens then loopReports junk below (chPath path name) (.start σ) else .done)
                  (loopReports junk rest path (addItem l σ' k true))
          | .other => loopReports junk rest path (skipItem { l with state := σ, item := some k })

/-- The loop comes to its end, with the given reports. -/
structure Reported (junk : Junk) (tree : Tree) (path : List UInt8) (l l' : Loop)
    (reports : Reports) : Prop where
  run : readEntries junk tree path l = .ok l'
  reports : loopReports junk tree path l = reports

/-! ## One call -/

/-- The call for a child with the item `k`: the state, whether it is a directory, the value, and the
reports from inside. -/
inductive ChildCall (junk : Junk) (σ : State) (k : ℕ) (path : List UInt8) (below : Tree) :
    EntryType → State → Bool → ℤ → Reports → Prop
  | file {stat : Option Stat} {σ' : State} {ret : ℤ}
      (hfile : importFile σ path stat (.item k) = .ok (σ', ret)) :
      ChildCall junk σ k path below (.reg stat) σ' false ret .done
  | dir {sub : Loop} {σ' : State} {ret : ℤ} {inside : Reports}
      (hread : Reported junk below path (.start σ) sub inside)
      (hfinish : finishDir sub path false (.item k) = .ok (σ', ret)) :
      ChildCall junk σ k path below (.dir true) σ' true ret inside
  | unopened : ChildCall junk σ k path below (.dir false) σ true (-1) .done

section Entry

variable {junk : Junk} {path name : List UInt8} {type : EntryType} {below rest : Tree}
variable {l l' : Loop} {reports : Reports}

/-- What the loop does with a name: it passes over it, or it calls for a child. -/
theorem Reported.cases
    (h : Reported junk (.entry name type below rest) path l l' reports) :
    (fate path name type ≠ .imported ∧ ∃ l₁ : Loop, l₁.count = l.count ∧
      l₁.state.dirs = l.state.dirs ∧ l₁.state.fs = l.state.fs ∧
      Reported junk rest path l₁ l' reports) ∨
    (fate path name type = .imported ∧ ∃ (σ σ₁ : State) (k : ℕ) (isDir : Bool) (ret : ℤ)
      (inside later : Reports), σ.dirs = l.state.dirs ∧ σ.fs = l.state.fs ∧
        ChildCall junk σ k (chPath path name) below type σ₁ isDir ret inside ∧
        Reported junk rest path (addItem l σ₁ k isDir) l' later ∧
        reports = .child name isDir ret (σ₁.imported (.item k)) inside later) := by
  obtain ⟨hrun, hreports⟩ := h
  cases hfate : fate path name type with
  | skipped =>
      rw [readEntries, beginEntry_skipped junk l hfate] at hrun
      rw [loopReports, beginEntry_skipped junk l hfate] at hreports
      refine Or.inl ⟨by decide, skipItem l, ?_, ?_, ?_, hrun, hreports⟩
      · unfold skipItem
        split <;> rfl
      · unfold skipItem
        split <;> rfl
      · unfold skipItem
        split <;> rfl
  | rejected =>
      have hskip : fate path name type ≠ .skipped := by
        rw [hfate]
        decide
      have hpass : ∀ item, Reported junk rest path (rejectItem junk l item) l' reports →
          ∃ l₁ : Loop, l₁.count = l.count ∧ l₁.state.dirs = l.state.dirs ∧
            l₁.state.fs = l.state.fs ∧ Reported junk rest path l₁ l' reports :=
        fun item hrest =>
          ⟨rejectItem junk l item, rfl, dirs_allocItem junk l.state, fs_allocItem junk l.state,
            hrest⟩
      refine Or.inl ⟨by decide, ?_⟩
      by_cases hname : convertible name
      · obtain rfl := eq_other_of_rejected hfate hname
        have hbegin := beginEntry_convertible junk l hskip hname
        split at hbegin
        · obtain ⟨item, -, hitem⟩ := hbegin
          rw [readEntries, hitem] at hrun
          rw [loopReports, hitem] at hreports
          exact hpass item ⟨hrun, hreports⟩
        · rw [readEntries, hbegin] at hrun
          cases hrun
      · obtain ⟨item, hitem⟩ := beginEntry_not_convertible junk l hskip hname
        rw [readEntries, hitem] at hrun
        rw [loopReports, hitem] at hreports
        exact hpass item ⟨hrun, hreports⟩
  | imported =>
      rcases beginEntry_imported junk l hfate with ⟨-, item, -, hbegin⟩ | ⟨-, herror⟩
      · rw [readEntries, hbegin, bind_ok] at hrun
        rw [loopReports, hbegin] at hreports
        refine Or.inr ⟨rfl, (allocItem junk l.state).2.setItem (l.taken junk) item, ?_⟩
        have hdirs : ((allocItem junk l.state).2.setItem (l.taken junk) item).dirs = l.state.dirs :=
          dirs_allocItem junk l.state
        have hfs : ((allocItem junk l.state).2.setItem (l.taken junk) item).fs = l.state.fs :=
          fs_allocItem junk l.state
        generalize (allocItem junk l.state).2.setItem (l.taken junk) item = σ at *
        cases type with
        | other => exact absurd rfl (fate_eq_imported.mp hfate).2.2
        | reg stat =>
            obtain ⟨⟨σ₁, ret⟩, hfile, hrun⟩ := bind_eq_ok.mp hrun
            simp only [hfile] at hreports
            exact ⟨σ₁, _, false, ret, .done, _, hdirs, hfs, .file hfile, ⟨hrun, rfl⟩,
              hreports.symm⟩
        | dir opens =>
            cases opens with
            | false =>
                exact ⟨σ, _, true, -1, .done, _, hdirs, hfs, .unopened, ⟨hrun, rfl⟩,
                  hreports.symm⟩
            | true =>
                obtain ⟨sub, hread, hrun⟩ := bind_eq_ok.mp hrun
                obtain ⟨⟨σ₁, ret⟩, hfinish, hrun⟩ := bind_eq_ok.mp hrun
                have hcall : importDir junk σ (chPath path name) false (.item (l.taken junk)) true
                    below = .ok (σ₁, ret) := by
                  rw [importDir, if_pos rfl, hread, bind_ok, hfinish]
                simp only [hcall, if_true] at hreports
                exact ⟨σ₁, _, true, ret, _, _, hdirs, hfs, .dir ⟨hread, rfl⟩ hfinish,
                  ⟨hrun, rfl⟩, hreports.symm⟩
      · rw [readEntries, herror] at hrun
        cases hrun

end Entry

/-! ## What a call says -/

/-- The lengths of the tables. -/
def State.lengths (σ : State) : List ℕ := σ.dirs.map fun dir => dir.entries.length

theorem length_of_lengths {σ σ' : State} {n : ℕ} (h : σ'.lengths = σ.lengths ++ [n]) :
    σ'.dirs.length = σ.dirs.length + 1 := by
  simpa [State.lengths] using congrArg List.length h

section Calls

variable {σ σ' : State} {path : List UInt8} {out : Out} {ret : ℤ}

theorem importFile_cases {stat : Option Stat} (h : importFile σ path stat out = .ok (σ', ret)) :
    σ'.dirs = σ.dirs ∧ (ret = 0 → ∃ st fs' extent first, stat = some st ∧
      fsAllocExtent σ.fs (u32 st.size) .file = some (fs', some (extent, first)) ∧ σ'.fs = fs' ∧
      σ'.imported out = ⟨first, u32 st.size, none⟩) := by
  cases stat with
  | none =>
      cases h
      exact ⟨rfl, fun h => by cases h⟩
  | some st =>
      match halloc : fsAllocExtent σ.fs (u32 st.size) .file with
      | none =>
          simp only [importFile, halloc] at h
          cases h
      | some (fs', none) =>
          simp only [importFile, halloc] at h
          cases h
          exact ⟨rfl, fun h => by cases h⟩
      | some (fs', some (extent, first)) =>
          simp only [importFile, halloc] at h
          cases h
          refine ⟨dirs_setImported _, fun _ => ⟨st, fs', extent, first, rfl, halloc, ?_, ?_⟩⟩
          · exact fs_setImported _ _
          · exact imported_setImported _

theorem lengths_patchDotDot (my : ℕ) (dirs : List Dir) (d : Option ℕ) :
    (patchDotDot my dirs d).map (fun dir => dir.entries.length) =
      dirs.map fun dir => dir.entries.length := by
  cases d with
  | none => rfl
  | some d =>
      refine List.ext_getElem? fun i => ?_
      rw [patchDotDot, List.getElem?_map, List.getElem?_map, List.getElem?_modify]
      cases dirs[i]? with
      | none => rfl
      | some dir =>
          by_cases hd : d = i <;> simp [hd]

theorem imported_freeItem (k : ℕ) (out : Out) : (freeItem σ k).imported out = σ.imported out := by
  cases out with
  | tree => rfl
  | item j =>
      unfold freeItem State.setItem State.imported
      by_cases hj : j = k
      · subst hj
        simp
      · simp [Function.update_of_ne hj]

theorem lengths_of_freeItems {head : Option ℕ} (h : freeItems σ head = .ok σ') :
    σ'.lengths = σ.lengths := by
  cases head with
  | none => cases h
  | some k =>
      obtain ⟨tail, -, hret⟩ := bind_eq_ok.mp h
      cases hret
      rfl

/-- The loop that fills a table makes one entry for each item it counted, and leaves what the items
say. -/
theorem fillEntries_cases {my : ℕ} : ∀ {n : ℕ} {items : Option ℕ} {σ σ' : State}
    {entries entries' : List FatDirent}, fillEntries my n items σ entries = .ok (σ', entries') →
      entries'.length = n + entries.length ∧ σ'.lengths = σ.lengths ∧
        ∀ out, σ'.imported out = σ.imported out := by
  intro n
  induction n with
  | zero =>
      intro items σ σ' entries entries' h
      cases h
      exact ⟨(Nat.zero_add _).symm, rfl, fun _ => rfl⟩
  | succ n ih =>
      intro items σ σ' entries entries' h
      obtain ⟨k, rfl, hrest⟩ := fillEntries_succ h
      obtain ⟨hlen, hlengths, himported⟩ := ih hrest
      refine ⟨?_, hlengths.trans (lengths_patchDotDot ..), fun out => ?_⟩
      · rw [hlen, List.length_cons]
        omega
      · rw [himported out, imported_freeItem]
        cases out <;> rfl

/-- The second half of `import_dir`: there is a table with an entry for each child that was counted,
or the call fails. -/
theorem finishDir_cases {l : Loop} (h : finishDir l path false out = .ok (σ', ret)) :
    l.state.lengths <+: σ'.lengths ∧ (ret = 0 → ∃ fs' extent first,
      fsAllocExtent l.state.fs (tableSize l.count) .dir = some (fs', some (extent, first)) ∧
      σ'.fs = fs' ∧ σ'.imported out = ⟨first, 0, some l.state.dirs.length⟩ ∧
      σ'.lengths = l.state.lengths ++ [l.count + 2]) := by
  obtain ⟨fs', halloc, hfree, rfl⟩ | ⟨fs', extent, first, σ₁, es, halloc, hfill, rfl, rfl⟩ :=
    finishDir_eq_ok h
  · refine ⟨?_, fun h => by cases h⟩
    rw [lengths_of_freeItems hfree]
    exact List.prefix_rfl
  · obtain ⟨hlen, hlengths, himported⟩ := fillEntries_cases hfill
    have hopened : (tableOpened l.state fs' out first).dirs = l.state.dirs := dirs_tableOpened
    have hsame : σ₁.lengths = l.state.lengths := by
      rw [hlengths, State.lengths, hopened]
      rfl
    have hnumber : σ₁.dirs.length = l.state.dirs.length := by
      simpa [State.lengths] using congrArg List.length hsame
    have hclosed : (tableClosed σ₁ ⟨path, extent, tableSize l.count,
        ownEntries placeholder first ++ es⟩ out).lengths = l.state.lengths ++ [l.count + 2] := by
      rw [State.lengths, dirs_tableClosed, List.map_append, ← hsame, List.map_singleton,
        List.length_append, hlen, List.length_nil, Nat.add_zero, Nat.add_comm]
      rfl
    refine ⟨⟨_, hclosed.symm⟩, fun _ => ⟨fs', extent, first, halloc, ?_, ?_, hclosed⟩⟩
    · rw [fs_tableClosed, fs_fillEntries hfill, fs_tableOpened]
    · have hfirst : (σ₁.imported out).firstCluster = first := by
        rw [himported out]
        exact congrArg Imported.firstCluster (imported_setImported _)
      rw [tableClosed, imported_setImported, hnumber]
      cases out <;> rw [← hfirst] <;> rfl

end Calls

/-- A directory without children for which no clusters are left is not only a failure: the code at
`free_items` reads through its null list. -/
theorem finishDir_empty {fs' : Fs} {l : Loop} (hitems : l.items = none)
    (halloc : fsAllocExtent l.state.fs (tableSize l.count) .dir = some (fs', none))
    (path : List UInt8) (out : Out) : finishDir l path false out = .error .undefined := by
  have hsize : u32 (32 * (l.count + if false = true then 0 else 2)) = tableSize l.count := rfl
  simp only [finishDir, hsize, halloc, hitems]
  rfl

/-! ## Counting the entries -/

theorem getElem?_of_prefix {α : Type*} {l l' : List α} (h : l <+: l') {i : ℕ} {a : α}
    (hi : l[i]? = some a) : l'[i]? = some a := by
  obtain ⟨more, rfl⟩ := h
  rw [List.getElem?_append_left (List.getElem?_eq_some_iff.mp hi).1, hi]

namespace Reports

variable {lengths lengths' : List ℕ} {reports : Reports}

/-- The directories among the children that were imported, and those below them, have a table with an
entry for each call. -/
def Counted (lengths : List ℕ) : Reports → Prop
  | done => True
  | child _ isDir ret imp below rest =>
      (ret = 0 → isDir = true →
        (∃ d, imp.dotDotDirent = some d ∧ lengths[d]? = some (below.length + 2)) ∧
        below.Counted lengths) ∧
      rest.Counted lengths

theorem Counted.mono (hmore : lengths <+: lengths') :
    ∀ {reports : Reports}, reports.Counted lengths → reports.Counted lengths' := by
  intro reports
  induction reports with
  | done => exact fun _ => trivial
  | child name isDir ret imp below rest ihbelow ihrest =>
      intro h
      refine ⟨fun hret hdir => ?_, ihrest h.2⟩
      obtain ⟨⟨d, hd, hlen⟩, hbelow⟩ := h.1 hret hdir
      exact ⟨⟨d, hd, getElem?_of_prefix hmore hlen⟩, ihbelow hbelow⟩

theorem length_entries_le : ∀ reports : Reports, reports.entries.length ≤ reports.length
  | done => le_rfl
  | child name isDir ret imp below rest => by
      have hrest := length_entries_le rest
      unfold entries length
      split
      · exact Nat.succ_le_succ hrest
      · exact hrest.trans (Nat.le_succ _)

/-- A table with an entry for each call, which should have one for each child that was imported,
shows that all were. -/
theorem allImported_of_tabled {tables : List (List FatDirent)} : ∀ {reports : Reports} {parent : ℕ},
    reports.Counted (tables.map List.length) → reports.Tabled tables parent →
      reports.entries.length = reports.length → reports.AllImported := by
  intro reports
  induction reports with
  | done => exact fun _ _ _ => trivial
  | child name isDir ret imp below rest ihbelow ihrest =>
      intro parent hcounted htabled hlen
      have hle := length_entries_le rest
      by_cases hret : ret = 0
      · rw [entries, if_pos hret, length, List.length_cons] at hlen
        refine ⟨hret, fun hdir => ?_, ihrest hcounted.2 htabled.2 (Nat.succ.inj hlen)⟩
        obtain ⟨⟨d, hd, hcount⟩, hbelow⟩ := hcounted.1 hret hdir
        obtain ⟨⟨d', hd', htable⟩, htables⟩ := htabled.1 hret hdir
        obtain rfl := Option.some.inj (hd.symm.trans hd')
        rw [List.getElem?_map, htable, Option.map_some, List.length_append] at hcount
        refine ihbelow hbelow htables ?_
        have hown : (ownEntries parent imp.firstCluster).length = 2 := rfl
        have := Option.some.inj hcount
        omega
      · rw [entries, if_neg hret, length] at hlen
        omega

end Reports

/-- A run counts the calls, and a table that it makes has an entry for each of them. -/
theorem reported_counted {junk : Junk} (tree : Tree) : ∀ {path : List UInt8} {l l' : Loop}
    {reports : Reports}, Reported junk tree path l l' reports →
      l'.count = l.count + reports.length ∧ l.state.lengths <+: l'.state.lengths ∧
        reports.Counted l'.state.lengths := by
  induction tree with
  | done =>
      rintro path l l' reports ⟨hrun, rfl⟩
      cases hrun
      exact ⟨rfl, List.prefix_rfl, trivial⟩
  | entry name type below rest ihbelow ihrest =>
      intro path l l' reports h
      rcases h.cases with ⟨-, l₁, hcount, hdirs, -, hrest⟩ |
        ⟨-, σ, σ₁, k, isDir, ret, inside, later, hdirs, -, hcall, hrest, rfl⟩
      · obtain ⟨hcount', hmore, hcounted⟩ := ihrest hrest
        rw [hcount] at hcount'
        rw [State.lengths, hdirs] at hmore
        exact ⟨hcount', hmore, hcounted⟩
      · obtain ⟨hcount, hmore, hcounted⟩ := ihrest hrest
        have hstart : l.state.lengths = σ.lengths := by
          unfold State.lengths
          rw [hdirs]
        have hinside : σ.lengths <+: σ₁.lengths ∧ (ret = 0 → isDir = true →
            (∃ d, (σ₁.imported (.item k)).dotDotDirent = some d ∧
              σ₁.lengths[d]? = some (inside.length + 2)) ∧ inside.Counted σ₁.lengths) := by
          cases hcall with
          | file hfile =>
              rw [State.lengths, State.lengths, (importFile_cases hfile).1]
              exact ⟨List.prefix_rfl, fun _ hdir => by cases hdir⟩
          | unopened => exact ⟨List.prefix_rfl, fun hret => by cases hret⟩
          | dir hread hfinish =>
              obtain ⟨hcount_sub, hmore_sub, hcounted_sub⟩ := ihbelow hread
              obtain ⟨hmore₁, hclosed⟩ := finishDir_cases hfinish
              refine ⟨hmore_sub.trans hmore₁, fun hret _ => ?_⟩
              obtain ⟨_, _, _, -, -, himported, hlengths⟩ := hclosed hret
              refine ⟨⟨_, congrArg Imported.dotDotDirent himported, ?_⟩, hcounted_sub.mono hmore₁⟩
              rw [hlengths, ← Nat.zero_add inside.length, show 0 + inside.length = _ from
                hcount_sub.symm]
              simp [State.lengths]
        have hadded : (addItem l σ₁ k isDir).state.lengths = σ₁.lengths := rfl
        rw [hadded] at hmore
        refine ⟨?_, ?_, fun hret hdir => ?_, hcounted⟩
        · rw [hcount, Reports.length]
          exact Nat.add_right_comm l.count 1 _
        · rw [hstart]
          exact hinside.1.trans hmore
        · obtain ⟨⟨d, hd, hlen⟩, hbelow⟩ := hinside.2 hret hdir
          exact ⟨⟨d, hd, getElem?_of_prefix hmore hlen⟩, hbelow.mono hmore⟩

/-! ## Runs without failures -/

theorem tableSize_lt (count : ℕ) : tableSize count < 2 ^ 32 := u32_lt _

section Imported

variable {clusterSize dataSize : ℕ} (hsize : ValidSize clusterSize dataSize)

include hsize

/-- A call of `fs_alloc_extent` that succeeds had the clusters. -/
theorem Room.of_alloc {fs fs' : Fs} {len first : ℕ} {type : ExtentType} {extent : Extent}
    (h : Room clusterSize dataSize (dataSize ⌈/⌉ clusterSize + 2) fs)
    (hnext : fs.nextCluster ≤ dataSize ⌈/⌉ clusterSize + 2) (hlen : len < 2 ^ 32)
    (halloc : fsAllocExtent fs len type = some (fs', some (extent, first))) :
    fs.nextCluster + len ⌈/⌉ clusterSize ≤ dataSize ⌈/⌉ clusterSize + 2 ∧
      first = firstOf len fs.nextCluster ∧
      Room clusterSize dataSize (dataSize ⌈/⌉ clusterSize + 2) fs' ∧
      fs'.nextCluster = fs.nextCluster + len ⌈/⌉ clusterSize := by
  by_cases hfits : fs.nextCluster + len ⌈/⌉ clusterSize ≤ dataSize ⌈/⌉ clusterSize + 2
  · obtain ⟨fs₁, extent₁, halloc₁, hroom₁, hnext₁⟩ := h.alloc hsize hfits type
    rw [halloc] at halloc₁
    cases halloc₁
    exact ⟨hfits, rfl, hroom₁, hnext₁⟩
  · have hpos : 0 < len := by
      refine Nat.pos_of_ne_zero fun hzero => hfits ?_
      rwa [hzero, zero_ceilDiv, Nat.add_zero]
    have hfew : len ⌈/⌉ clusterSize < 2 ^ 31 := by
      have hlower := hsize.lower
      rw [Nat.ceilDiv_eq_add_pred_div, Nat.div_lt_iff_lt_mul (by omega)]
      have := Nat.mul_le_mul_left (2 ^ 31) hlower
      have hupper := hsize.upper
      omega
    have hnum := h.geometry.numClusters_eq
    rw [fsAllocExtent_eq hsize h.geometry h.zero (hnum ▸ hnext) type hpos hfew,
      if_pos (by omega)] at halloc
    cases halloc

/-- A run that reports no failure has followed the plan for the names of a directory, of which the
first table has the number `n`. -/
structure AsPlanned (clusterSize dataSize : ℕ) (plan : Plan) (n : ℕ) (l l' : Loop)
    (reports : Reports) : Prop where
  fits : plan.next ≤ dataSize ⌈/⌉ clusterSize + 2
  room : Room clusterSize dataSize (dataSize ⌈/⌉ clusterSize + 2) l'.state.fs
  next : l'.state.fs.nextCluster = plan.next
  dirs : l'.state.dirs.length = plan.dirs
  count : l'.count = l.count + plan.children.length
  entries : reports.entries = plan.children.map Child.dirent
  tabled : ∀ own before after, before.length = n →
    reports.Tabled (before ++ plan.tables own ++ after) own

theorem reported_imported {junk : Junk} (tree : Tree) : ∀ {path : List UInt8} {l l' : Loop}
    {reports : Reports}, Room clusterSize dataSize (dataSize ⌈/⌉ clusterSize + 2) l.state.fs →
      l.state.fs.nextCluster ≤ dataSize ⌈/⌉ clusterSize + 2 →
      Reported junk tree path l l' reports → reports.AllImported →
      tree.All Succeeds path ∧ AsPlanned clusterSize dataSize
        (tree.plan Child.dirent clusterSize path l.state.fs.nextCluster l.state.dirs.length)
        l.state.dirs.length l l' reports := by
  induction tree with
  | done =>
      rintro path l l' reports hroom hnext ⟨hrun, rfl⟩ _
      cases hrun
      exact ⟨trivial, hnext, hroom, rfl, rfl, rfl, rfl, fun _ _ _ _ => trivial⟩
  | entry name type below rest ihbelow ihrest =>
      intro path l l' reports hroom hnext h hall
      rcases h.cases with ⟨hfate, l₁, hcount, hdirs, hfs, hrest⟩ |
        ⟨hfate, σ, σ₁, k, isDir, ret, inside, later, hdirs, hfs, hcall, hrest, rfl⟩
      · rw [plan_not_imported hfate, ← hdirs, ← hfs]
        obtain ⟨hsucceeds, hplanned⟩ := ihrest (hfs ▸ hroom) (hfs ▸ hnext) hrest hall
        exact ⟨⟨fun h => absurd h hfate, fun h => absurd h.1 hfate, hsucceeds⟩, hplanned.fits,
          hplanned.room, hplanned.next, hplanned.dirs, hcount ▸ hplanned.count, hplanned.entries,
          hplanned.tabled⟩
      · obtain ⟨hret, hbelow, hlater⟩ := hall
        cases hcall with
        | unopened => cases hret
        | @file stat _ _ hfile =>
            obtain ⟨hdirs₁, hsaid⟩ := importFile_cases hfile
            obtain ⟨st, fs', extent, first, rfl, halloc, rfl, himported⟩ := hsaid hret
            obtain ⟨hfits, hfirst, hroom₁, hnext₁⟩ :=
              Room.of_alloc hsize (hfs ▸ hroom) (hfs ▸ hnext) (u32_lt _) halloc
            rw [hfs] at hfits hfirst hnext₁
            obtain ⟨hsucceeds, hplanned⟩ := ihrest (l := addItem l σ₁ k false) hroom₁
              (hnext₁ ▸ hfits) hrest hlater
            have hstart : (addItem l σ₁ k false).state.fs.nextCluster =
              l.state.fs.nextCluster + u32 st.size ⌈/⌉ clusterSize := hnext₁
            have hnumber : (addItem l σ₁ k false).state.dirs.length = l.state.dirs.length :=
              congrArg List.length (hdirs₁.trans hdirs)
            rw [hstart, hnumber] at hplanned
            rw [plan_reg hfate]
            refine ⟨⟨fun _ => ⟨by simp, by simp⟩, fun h => by simp at h, hsucceeds⟩,
              hplanned.fits, hplanned.room, hplanned.next, hplanned.dirs, ?_, ?_, ?_⟩
            · rw [hplanned.count, List.length_cons]
              exact Nat.add_right_comm l.count 1 _
            · rw [Reports.entries, if_pos hret, himported, hfirst, hplanned.entries]
              rfl
            · intro own before after hbefore
              exact ⟨fun _ hdir => (by cases hdir), hplanned.tabled own before after hbefore⟩
        | @dir sub _ _ _ hread hfinish =>
            obtain ⟨hsucceeds_below, hsub⟩ := ihbelow (l := .start σ) (hfs ▸ hroom) (hfs ▸ hnext)
              hread (hbelow rfl)
            obtain ⟨-, hsaid⟩ := finishDir_cases hfinish
            obtain ⟨fs', extent, first, halloc, rfl, himported, hlengths⟩ := hsaid hret
            obtain ⟨hfits, hfirst, hroom₁, hnext₁⟩ := Room.of_alloc hsize hsub.room
              (hsub.next ▸ hsub.fits) (tableSize_lt _) halloc
            have hcount : sub.count = _ := hsub.count.trans (Nat.zero_add _)
            have hstart : (Loop.start σ).state.dirs.length = l.state.dirs.length :=
              congrArg List.length hdirs
            have hclusters : (Loop.start σ).state.fs = l.state.fs := hfs
            rw [hsub.next, hcount] at hfits hfirst hnext₁
            rw [hstart, hclusters] at hsub hfits hfirst hnext₁
            have hnumbers : ∀ own, (below.plan Child.dirent clusterSize (chPath path name)
                l.state.fs.nextCluster l.state.dirs.length).dirs = l.state.dirs.length +
                ((below.plan Child.dirent clusterSize (chPath path name)
                  l.state.fs.nextCluster l.state.dirs.length).tables own).length :=
              plan_dirs below (chPath path name) l.state.fs.nextCluster l.state.dirs.length
            rw [plan_dir hfate]
            generalize below.plan Child.dirent clusterSize (chPath path name)
              l.state.fs.nextCluster l.state.dirs.length = plan at hsub hfits hfirst hnext₁ hnumbers ⊢
            obtain ⟨hsucceeds, hplanned⟩ := ihrest (l := addItem l σ₁ k true) hroom₁
              (hnext₁ ▸ hfits) hrest hlater
            have hadded : (addItem l σ₁ k true).state.fs.nextCluster =
              plan.next + tableSize plan.children.length ⌈/⌉ clusterSize := hnext₁
            have hnumber : (addItem l σ₁ k true).state.dirs.length = plan.dirs + 1 :=
              hsub.dirs ▸ length_of_lengths hlengths
            rw [hadded, hnumber] at hplanned
            refine ⟨⟨fun _ => ⟨by simp, by simp⟩, fun _ => hsucceeds_below, hsucceeds⟩,
              hplanned.fits, hplanned.room, hplanned.next, hplanned.dirs, ?_, ?_, ?_⟩
            · rw [hplanned.count, List.length_cons]
              exact Nat.add_right_comm l.count 1 _
            · rw [Reports.entries, if_pos hret, himported, hfirst, hplanned.entries, hsub.dirs]
              rfl
            · intro own before after hbefore
              -- the table of the directory comes behind the ones of the directories below it
              have hlen : (before ++ plan.tables first).length = plan.dirs := by
                rw [List.length_append, hbefore, hnumbers first]
              simp only
              rw [← hfirst]
              generalize hlast : ownEntries own first ++ plan.children.map Child.dirent = mine
              refine ⟨fun _ _ => ⟨⟨plan.dirs, ?_, ?_⟩, ?_⟩, ?_⟩
              · rw [himported, hsub.dirs]
              · rw [himported, hsub.entries, hlast, ← hlen]
                simp
              · rw [himported]
                simpa using hsub.tabled first before (mine :: _ ++ after) hbefore
              · have hlast := hplanned.tabled own (before ++ plan.tables first ++ [mine]) after
                  (by rw [List.length_append, hlen]; rfl)
                simpa using hlast

theorem importFile_ret {limit : ℕ} {σ σ' : State} {path : List UInt8} {out : Out} {st : Stat}
    {ret : ℤ} (hroom : Room clusterSize dataSize limit σ.fs)
    (hlimit : σ.fs.nextCluster + u32 st.size ⌈/⌉ clusterSize ≤ limit)
    (h : importFile σ path (some st) out = .ok (σ', ret)) : ret = 0 := by
  obtain ⟨fs', extent, halloc, -⟩ := hroom.alloc hsize hlimit .file
  obtain ⟨files, hfile⟩ := importFile_eq path out halloc
  rw [hfile] at h
  cases h
  rfl

theorem finishDir_ret {limit : ℕ} {l : Loop} {σ' : State} {path : List UInt8} {out : Out} {ret : ℤ}
    (hroom : Room clusterSize dataSize limit l.state.fs)
    (hlimit : l.state.fs.nextCluster + tableSize l.count ⌈/⌉ clusterSize ≤ limit)
    (h : finishDir l path false out = .ok (σ', ret)) : ret = 0 := by
  obtain ⟨fs', extent, halloc, -⟩ := hroom.alloc hsize hlimit .dir
  rw [finishDir_eq path out halloc] at h
  obtain ⟨r, -, hret⟩ := bind_eq_ok.mp h
  cases hret
  rfl

/-- Where `stat` and `opendir` succeed and there are clusters for everything, no call fails. -/
theorem allImported_of_succeeds {junk : Junk} (tree : Tree) : ∀ {path : List UInt8} {l l' : Loop}
    {reports : Reports}, Room clusterSize dataSize (dataSize ⌈/⌉ clusterSize + 2) l.state.fs →
      (tree.plan Child.dirent clusterSize path l.state.fs.nextCluster l.state.dirs.length).next ≤
        dataSize ⌈/⌉ clusterSize + 2 →
      Reported junk tree path l l' reports → tree.All Succeeds path →
      reports.AllImported := by
  induction tree with
  | done =>
      rintro path l l' reports _ _ ⟨-, rfl⟩ _
      trivial
  | entry name type below rest ihbelow ihrest =>
      intro path l l' reports hroom hlimit h hsucceeds
      obtain ⟨hsucceed, hsucceeds_below, hsucceeds_rest⟩ := hsucceeds
      rcases h.cases with ⟨hfate, l₁, -, hdirs, hfs, hrest⟩ |
        ⟨hfate, σ, σ₁, k, isDir, ret, inside, later, hdirs, hfs, hcall, hrest, rfl⟩
      · rw [plan_not_imported hfate, ← hdirs, ← hfs] at hlimit
        exact ihrest (hfs ▸ hroom) hlimit hrest hsucceeds_rest
      · obtain ⟨hreg, hdir⟩ := hsucceed hfate
        cases hcall with
        | unopened => exact absurd rfl hdir
        | @file stat _ _ hfile =>
            obtain ⟨st, rfl⟩ : ∃ st, stat = some st :=
              Option.ne_none_iff_exists'.mp fun hnone => hreg (by rw [hnone])
            rw [plan_reg hfate] at hlimit
            have hlimit₁ : σ.fs.nextCluster + u32 st.size ⌈/⌉ clusterSize ≤
              dataSize ⌈/⌉ clusterSize + 2 := hfs ▸ le_plan_next.trans hlimit
            obtain ⟨hroom₁, hnext₁, -⟩ := importFile_back hsize (hfs ▸ hroom) hlimit₁ hfile
            have hstart : (addItem l σ₁ k false).state.fs.nextCluster =
              l.state.fs.nextCluster + u32 st.size ⌈/⌉ clusterSize := hfs ▸ hnext₁
            have hnumber : (addItem l σ₁ k false).state.dirs.length = l.state.dirs.length :=
              congrArg List.length ((importFile_cases hfile).1.trans hdirs)
            rw [← hstart, ← hnumber] at hlimit
            exact ⟨importFile_ret hsize (hfs ▸ hroom) hlimit₁ hfile, fun hdir => (by cases hdir),
              ihrest hroom₁ hlimit hrest hsucceeds_rest⟩
        | @dir sub _ _ _ hread hfinish =>
            rw [plan_dir hfate] at hlimit
            have hstart : (Loop.start σ).state.dirs.length = l.state.dirs.length :=
              congrArg List.length hdirs
            have hclusters : (Loop.start σ).state.fs = l.state.fs := hfs
            have hlimit_sub := le_plan_next.trans hlimit
            rw [← hclusters] at hlimit hlimit_sub hroom
            rw [← hstart] at hlimit hlimit_sub
            have hall := ihbelow (l := .start σ) hroom ((Nat.le_add_right _ _).trans hlimit_sub)
              hread (hsucceeds_below ⟨hfate, rfl⟩)
            obtain ⟨-, hsub⟩ := reported_imported hsize below hroom
              (le_plan_next.trans ((Nat.le_add_right _ _).trans hlimit_sub)) hread hall
            generalize below.plan Child.dirent clusterSize (chPath path name)
              (Loop.start σ).state.fs.nextCluster (Loop.start σ).state.dirs.length = plan at *
            have hcount : sub.count = plan.children.length := hsub.count.trans (Nat.zero_add _)
            rw [← hsub.next, ← hcount] at hlimit_sub
            have hret := finishDir_ret hsize hsub.room hlimit_sub hfinish
            obtain ⟨hroom₁, hnext₁, -⟩ := finishDir_back hsize hsub.room hlimit_sub hfinish
            obtain ⟨_, _, _, -, -, -, hlengths⟩ := (finishDir_cases hfinish).2 hret
            have hadded : (addItem l σ₁ k true).state.fs.nextCluster =
                plan.next + tableSize plan.children.length ⌈/⌉ clusterSize := by
              rw [← hsub.next, ← hcount]
              exact hnext₁
            have hnumber : (addItem l σ₁ k true).state.dirs.length = plan.dirs + 1 :=
              hsub.dirs ▸ length_of_lengths hlengths
            simp only at hlimit
            rw [← hadded, ← hnumber] at hlimit
            exact ⟨hret, fun _ => hall, ihrest hroom₁ hlimit hrest hsucceeds_rest⟩

end Imported

/-! ## No trace -/

/-- What a call of `import_dir` in the state `σ` should leave behind when it returns `0` in the state
`σ'`, whichever calls for children failed: the directory, and the ones that were imported below it,
have the tables that they should have, and the tables that were there before are as they were. -/
structure LeavesNoTrace (junk : Junk) (tree : Tree) (path : List UInt8) (out : Out)
    (σ σ' : State) : Prop where
  tabled : (Reports.child path true 0 (σ'.imported out) (loopReports junk tree path (.start σ))
    .done).Tabled (σ'.dirs.map Dir.entries) placeholder
  kept : σ.dirs.map Dir.entries <+: σ'.dirs.map Dir.entries

/-- The `stat` and the `opendir` of each child succeed, and there are clusters for everything. -/
def NoChildFails (clusterSize : ℕ) (tree : Tree) (path : List UInt8) (σ : State) : Prop :=
  tree.All Succeeds path ∧ tree.clusterEnd clusterSize path σ ≤ σ.fs.numClusters

instance (clusterSize : ℕ) (tree : Tree) (path : List UInt8) (σ : State) :
    Decidable (NoChildFails clusterSize tree path σ) := inferInstanceAs (Decidable (_ ∧ _))

/-- The free list of `σ'` holds no item twice and none that is in use. -/
def StillFree (σ : State) (fl : List ℕ) (σ' : State) : Prop :=
  ∃ fl', Ends σ'.next σ'.freeItemsHead fl' ∧ fl'.Nodup ∧ ∀ k ∈ fl', k ∈ fl ∨ σ.itemCount ≤ k

section Trace

variable {clusterSize dataSize : ℕ} (hsize : ValidSize clusterSize dataSize)
variable {junk : Junk} {tree : Tree} {path : List UInt8} {out : Out} {σ σ' : State} {fl : List ℕ}
variable (hroom : Room clusterSize dataSize σ.fs.nextCluster σ.fs)
variable (hrun : importDir junk σ path false out true tree = .ok (σ', 0))

theorem clusterEnd_eq {plan : Plan}
    (hplan : tree.plan Child.dirent clusterSize path σ.fs.nextCluster σ.dirs.length = plan) :
    tree.clusterEnd clusterSize path σ =
      plan.next + tableSize plan.children.length ⌈/⌉ clusterSize := by
  obtain ⟨hchildren, hnext, -⟩ : (tree.plan Child.dirent clusterSize path σ.fs.nextCluster
      σ.dirs.length).children = _ ∧ _ :=
    plan_row Child.dirent Child.right tree path σ.fs.nextCluster σ.dirs.length
  rw [← hplan, hchildren, hnext, Tree.clusterEnd]

include hsize hroom hrun

/-- A child that fails is counted, and shows in the length of the table. -/
theorem noChildFails_of_leavesNoTrace (h : LeavesNoTrace junk tree path out σ σ') :
    NoChildFails clusterSize tree path σ := by
  rw [importDir, if_pos rfl] at hrun
  obtain ⟨l₁, hread, hfinish⟩ := bind_eq_ok.mp hrun
  have htabled := h.tabled
  have hreport : Reported junk tree path (.start σ) l₁ _ := ⟨hread, rfl⟩
  generalize loopReports junk tree path (.start σ) = reports at htabled hreport
  obtain ⟨hcount, -, hcounted⟩ := reported_counted tree hreport
  obtain ⟨hmore, hsaid⟩ := finishDir_cases hfinish
  obtain ⟨fs', extent, first, halloc, -, himported, hlengths⟩ := hsaid rfl
  have hlen : l₁.count = reports.length := hcount.trans (Nat.zero_add _)
  have hself : (Reports.child path true 0 (σ'.imported out) reports .done).Counted
      ((σ'.dirs.map Dir.entries).map List.length) := by
    rw [List.map_map]
    refine ⟨fun _ _ => ⟨⟨l₁.state.dirs.length, by rw [himported], ?_⟩,
      hcounted.mono hmore⟩, trivial⟩
    change σ'.lengths[_]? = _
    rw [hlengths, ← hlen]
    simp [State.lengths]
  have hall : reports.AllImported := (Reports.allImported_of_tabled hself htabled rfl).2.1 rfl
  have hnum := hroom.geometry.numClusters_eq
  have hroom₀ : Room clusterSize dataSize (dataSize ⌈/⌉ clusterSize + 2) (Loop.start σ).state.fs :=
    ⟨hroom.geometry, hroom.zero, hnum.ge⟩
  obtain ⟨hsucceeds, hplanned⟩ :=
    reported_imported hsize tree hroom₀ (hnum ▸ hroom.room) hreport hall
  obtain ⟨hfits, -⟩ :=
    Room.of_alloc hsize hplanned.room (hplanned.next ▸ hplanned.fits) (tableSize_lt _) halloc
  rw [hplanned.next, hplanned.count] at hfits
  refine ⟨hsucceeds, ?_⟩
  rw [clusterEnd_eq rfl, hnum]
  simpa [Loop.start] using hfits

/-- Without failures, and with a sound free list, the run leaves what it should. -/
theorem leavesNoTrace_of_noChildFails (hfree : FreeList σ fl) (hout : out.Valid σ fl)
    (hnone : NoChildFails clusterSize tree path σ) (horderly : tree.Orderly path false) :
    LeavesNoTrace junk tree path out σ σ' ∧ StillFree σ fl σ' := by
  obtain ⟨hsucceeds, hclusters⟩ := hnone
  have hnum := hroom.geometry.numClusters_eq
  have hroom₁ : Room clusterSize dataSize (tree.clusterEnd clusterSize path σ) σ.fs :=
    ⟨hroom.geometry, hroom.zero, hclusters⟩
  have hroom₂ : Room clusterSize dataSize (dataSize ⌈/⌉ clusterSize + 2) σ.fs :=
    ⟨hroom.geometry, hroom.zero, hnum.ge⟩
  obtain ⟨l, hread, hfinish⟩ : ∃ l, readEntries junk tree path (.start σ) = .ok l ∧
      finishDir l path false out = .ok (σ', 0) := by
    rw [importDir, if_pos rfl] at hrun
    exact bind_eq_ok.mp hrun
  obtain ⟨-, hfits, -⟩ := readEntries_back hsize Child.right junk tree σ.dirs.length hroom₁
    (Nat.le_add_right _ _) hsucceeds (fun k hk => by cases hk) hread
  obtain ⟨σ₁, fl', hrun₁, himports⟩ :=
    importDir_forth hsize junk hroom₁ hsucceeds hfree hout hfits horderly
  obtain rfl : σ₁ = σ' := congrArg Prod.fst (Except.ok.inj (hrun₁.symm.trans hrun))
  have hreport : Reported junk tree path (.start σ) l _ := ⟨hread, rfl⟩
  -- all calls for children succeed, so the reports are the ones of the plan
  have hlimit : (tree.plan Child.dirent clusterSize path σ.fs.nextCluster σ.dirs.length).next ≤
      dataSize ⌈/⌉ clusterSize + 2 := by
    rw [clusterEnd_eq rfl, hnum] at hclusters
    exact (Nat.le_add_right _ _).trans hclusters
  have hall := allImported_of_succeeds hsize tree hroom₂ hlimit hreport hsucceeds
  obtain ⟨-, hplanned⟩ :=
    reported_imported hsize tree hroom₂ (hnum ▸ hroom.room) hreport hall
  have himported := himports.imported
  have hdirs := himports.dirs
  have hnumbers : ∀ own, (tree.plan Child.dirent clusterSize path σ.fs.nextCluster
      σ.dirs.length).dirs = σ.dirs.length + ((tree.plan Child.dirent clusterSize path
        σ.fs.nextCluster σ.dirs.length).tables own).length :=
    plan_dirs tree path σ.fs.nextCluster σ.dirs.length
  change AsPlanned _ _ (tree.plan Child.dirent clusterSize path σ.fs.nextCluster σ.dirs.length)
    σ.dirs.length _ _ _ at hplanned
  generalize tree.plan Child.dirent clusterSize path σ.fs.nextCluster σ.dirs.length = plan at *
  generalize firstOf (tableSize plan.children.length) plan.next = first at himported hdirs
  have hlen : (σ.dirs.map Dir.entries ++ plan.tables first).length = plan.dirs := by
    rw [List.length_append, List.length_map, hnumbers first]
  refine ⟨⟨⟨fun _ _ => ⟨⟨plan.dirs, ?_, ?_⟩, ?_⟩, trivial⟩, ?_⟩, himports.free⟩
  · rw [himported]
  · rw [himported, hdirs, hplanned.entries, ← hlen, ← List.append_assoc]
    exact List.getElem?_concat_length ..
  · rw [himported, hdirs, ← List.append_assoc]
    exact hplanned.tabled first _ _ (List.length_map _)
  · rw [hdirs]
    exact List.prefix_append _ _

end Trace

/-- **What failures leave behind.**  A run that makes a table leaves no trace of the children that
fail only if none does.  The call makes a table, leaves no trace and a sound free list exactly if no
child fails, in the directory or below, no name that is skipped comes right behind one that is
rejected, and no converted name is longer than an item. -/
theorem leavesNoTrace_iff {clusterSize dataSize : ℕ} (hsize : ValidSize clusterSize dataSize)
    {junk : Junk} {tree : Tree} {path : List UInt8} {out : Out} {σ : State} {fl : List ℕ}
    (hroom : Room clusterSize dataSize σ.fs.nextCluster σ.fs) (hfree : FreeList σ fl)
    (hout : out.Valid σ fl) :
    (∀ σ', importDir junk σ path false out true tree = .ok (σ', 0) →
      LeavesNoTrace junk tree path out σ σ' → NoChildFails clusterSize tree path σ) ∧
    ((∃ σ', importDir junk σ path false out true tree = .ok (σ', 0) ∧
        LeavesNoTrace junk tree path out σ σ' ∧ StillFree σ fl σ') ↔
      NoChildFails clusterSize tree path σ ∧ tree.Orderly path false ∧ tree.All FitsItem path) := by
  refine ⟨fun σ' hrun => noChildFails_of_leavesNoTrace hsize hroom hrun, ?_, ?_⟩
  · rintro ⟨σ', hrun, htrace, fl', hends, hnodup, -⟩
    have hnone := noChildFails_of_leavesNoTrace hsize hroom hrun htrace
    have hroom' : Room clusterSize dataSize (tree.clusterEnd clusterSize path σ) σ.fs :=
      ⟨hroom.geometry, hroom.zero, hnone.2⟩
    obtain ⟨hfits, horderly⟩ := importDir_back hsize junk hroom' hnone.1 hrun hends hnodup
    exact ⟨hnone, horderly, hfits⟩
  · rintro ⟨hnone, horderly, hfits⟩
    have hroom' : Room clusterSize dataSize (tree.clusterEnd clusterSize path σ) σ.fs :=
      ⟨hroom.geometry, hroom.zero, hnone.2⟩
    obtain ⟨σ', -, hrun, -⟩ := importDir_forth hsize junk hroom' hnone.1 hfree hout hfits horderly
    exact ⟨σ', hrun, leavesNoTrace_of_noChildFails hsize hroom hrun hfree hout hnone horderly⟩

/-- The import of the directory above, which leaves no trace. -/
theorem leavesNoTrace_goodListing :
    ∃ σ', importDir zeroJunk smallStart [46] false .tree true goodListing = .ok (σ', 0) ∧
      LeavesNoTrace zeroJunk goodListing [46] .tree smallStart σ' ∧ StillFree smallStart [] σ' := by
  have hinit := inv_init smallVolume_valid
  have hstart : Room 512 10240 smallStart.fs.nextCluster smallStart.fs :=
    ⟨hinit.geometry, hinit.zero, by decide⟩
  have hfree : FreeList smallStart [] := ⟨rfl, List.nodup_nil, by simp⟩
  have hout : Out.tree.Valid smallStart [] := by simp [Out.Valid, Out.lent]
  exact (leavesNoTrace_iff smallVolume_valid hstart hfree hout).2.mpr
    ⟨by decide, by decide, by decide⟩

/-- A directory with a file in it, and a file for which `stat` fails. -/
def staleListing : Tree :=
  .entry [100] (.dir true) (.entry [120] (.reg (some ⟨700, 1, 2, 3⟩)) .done .done)
    (.entry [98] (.reg none) .done .done)

/-- The file for which `stat` fails is listed with the cluster and the size of the other one. -/
theorem not_leavesNoTrace_staleListing :
    ∃ σ', importDir zeroJunk smallStart [46] false .tree true staleListing = .ok (σ', 0) ∧
      σ'.dirs.map (fun dir => dir.entries.map fun de => (de.firstCluster, de.size)) =
        [[(5, 0), (4, 0), (2, 700)], [(2 ^ 32 - 1, 0), (5, 0), (4, 0), (2, 700)]] ∧
      ¬ LeavesNoTrace zeroJunk staleListing [46] .tree smallStart σ' := by
  have hinit := inv_init smallVolume_valid
  have hstart : Room 512 10240 smallStart.fs.nextCluster smallStart.fs :=
    ⟨hinit.geometry, hinit.zero, by decide⟩
  obtain ⟨σ', hrun, htables⟩ : ∃ σ', importDir zeroJunk smallStart [46] false .tree true
      staleListing = .ok (σ', 0) ∧
        σ'.dirs.map (fun dir => dir.entries.map fun de => (de.firstCluster, de.size)) =
          [[(5, 0), (4, 0), (2, 700)], [(2 ^ 32 - 1, 0), (5, 0), (4, 0), (2, 700)]] :=
    ⟨_, rfl, by decide⟩
  refine ⟨σ', hrun, htables, fun htrace => ?_⟩
  exact absurd (noChildFails_of_leavesNoTrace smallVolume_valid hstart hrun htrace) (by decide)

end SystemExtras.Fat
