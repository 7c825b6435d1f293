import SystemExtras.Ext4.Directory

/-!
# Reading a directory of the host

`build_directory_structure` lists a directory of the host, and a loop makes a `struct
dentry` of each name.  Under `force` a name for which `lstat` fails, or whose type is
unknown, is meant to be skipped: the loop takes a step back and has one entry less.

One index serves the list of names and the array of entries.  The step back is right for
the array.  In the list it leads to the name of the file that failed, which was freed a
moment before, and the names behind it are never reached.  `skipsUnreadable_iff` says
that the loop skips what it cannot read only at the end of the list.
-/

namespace SystemExtras.Ext4

/-! ## The code -/

/-- What `lstat` says about a file of the host. -/
structure SourceStat where
  mode : ℕ
  size : ℕ
  mtime : ℕ
  deriving DecidableEq, Repr

/-- What `fs_config_func` says about a path. -/
structure FsConfig where
  uid : ℕ
  gid : ℕ
  mode : ℕ
  capabilities : ℕ
  deriving DecidableEq, Repr

/-- The host: `lstat`, `readlink` (what it stores), `fs_config_func` unless it is null, and
`selabel_lookup` unless there is no `sehnd`. -/
structure Host where
  lstat : List UInt8 → Option SourceStat
  readlink : List UInt8 → List UInt8
  fsConfig : Option (List UInt8 → Bool → FsConfig)
  selabelLookup : Option (List UInt8 → ℕ → Option (List UInt8))

/-- `struct dentry`, up to the pointer to the inode number. -/
structure SourceDentry where
  path : Option (List UInt8)
  fullPath : Option (List UInt8)
  filename : Option (List UInt8)
  link : Option (List UInt8)
  size : ℕ
  fileType : ℕ
  mode : ℕ
  uid : ℕ
  gid : ℕ
  mtime : ℕ
  secon : Option (List UInt8)
  capabilities : ℕ
  deriving DecidableEq, Repr

/-- A zeroed entry. -/
def SourceDentry.zero : SourceDentry := ⟨none, none, none, none, 0, 0, 0, 0, 0, 0, none, 0⟩

/-- `S_IFMT`. -/
def S_IFMT : ℕ := 0xF000

/-- `S_ISDIR`. -/
def isDir (mode : ℕ) : Bool := mode &&& S_IFMT = 0x4000

/-- `S_ISLNK`. -/
def isLink (mode : ℕ) : Bool := mode &&& S_IFMT = 0xA000

/-- The chain of tests for the type of a file. -/
def sourceFileType (mode : ℕ) : Option ℕ :=
  if mode &&& S_IFMT = 0x8000 then some 1
  else if isDir mode then some 2
  else if mode &&& S_IFMT = 0x2000 then some 3
  else if mode &&& S_IFMT = 0x6000 then some 4
  else if mode &&& S_IFMT = 0x1000 then some 5
  else if mode &&& S_IFMT = 0xC000 then some 6
  else if isLink mode then some 7
  else none

/-- `namelist`, whose elements are freed one by one, `dentries`, and the variables of the loop. -/
structure Listing where
  namelist : List (Option (List UInt8))
  dentries : List SourceDentry
  i : ℕ
  entries : ℕ
  dirs : ℕ
  deriving DecidableEq, Repr

/-- Before the loop. -/
def Listing.start (names : List (List UInt8)) : Listing :=
  ⟨names.map some, List.replicate names.length .zero, 0, names.length, 0⟩

/-- `namelist[i]->d_name`. -/
def Listing.name (l : Listing) : Except Stop (List UInt8) :=
  match l.namelist[l.i]? with
  | some (some name) => .ok name
  | _ => .error .undefined

/-- `free(namelist[i])`. -/
def Listing.freeName (l : Listing) : Except Stop Listing :=
  match l.namelist[l.i]? with
  | some (some _) => .ok { l with namelist := l.namelist.set l.i none }
  | _ => .error .undefined

/-- The code for a name that is skipped, with the `i++` of the loop. -/
def Listing.back (l : Listing) : Listing := { l with entries := l.entries - 1 }

section Code

variable (host : Host) (blockSize : ℕ) (fullPath dirPath : List UInt8)

/-- The assignments to an entry from what `lstat` said, up to the type. -/
def describeDentry (path : List UInt8) (stat : SourceStat) (d : SourceDentry) : SourceDentry :=
  let d := { d with size := stat.size, mode := stat.mode &&& 0xFFF, mtime := u32 stat.mtime }
  let d :=
    match host.fsConfig with
    | none => d
    | some fsConfig =>
        let config := fsConfig path (isDir stat.mode)
        { d with
          mode := u16 config.mode
          uid := u16 config.uid
          gid := u16 config.gid
          capabilities := config.capabilities }
  match host.selabelLookup with
  | none => d
  | some lookup =>
      match lookup path stat.mode with
      | none => d
      | some secon => { d with secon := some secon }

/-- The target of a link, in a buffer of one block. -/
def linkBuffer (target : List UInt8) : List UInt8 :=
  let read := target.take (blockSize - 1)
  read ++ List.replicate (blockSize - read.length) 0

/-- The assignments of the two paths and the name. -/
def nameDentry (name : List UInt8) (d : SourceDentry) : SourceDentry :=
  { d with
    filename := some name
    path := some (dirPath ++ name)
    fullPath := some (fullPath ++ name) }

/-- The assignments for a type that is known. -/
def typeDentry (full : List UInt8) (mode type : ℕ) (d : SourceDentry) : SourceDentry :=
  { d with
    fileType := type
    link := if isLink mode then some (linkBuffer blockSize (host.readlink full)) else d.link }

/-- One round of the loop. -/
def readSourceEntry (l : Listing) : Except Stop Listing := do
  let name ← l.name
  let full := fullPath ++ name
  let d := nameDentry fullPath dirPath name (l.dentries.getD l.i .zero)
  let l ← l.freeName
  match host.lstat full with
  | none => .ok { l with dentries := l.dentries.set l.i d }.back
  | some stat =>
      let d := describeDentry host (dirPath ++ name) stat d
      match sourceFileType stat.mode with
      | none => .ok { l with dentries := l.dentries.set l.i d }.back
      | some type =>
          .ok { l with
            dentries := l.dentries.set l.i (typeDentry host blockSize full stat.mode type d)
            i := l.i + 1
            dirs := if isDir stat.mode then l.dirs + 1 else l.dirs }

/-- The loop, for as many rounds as there are names. -/
def readSourceLoop : ℕ → Listing → Except Stop Listing
  | 0, l => .ok l
  | fuel + 1, l =>
      if l.i < l.entries then do readSourceLoop fuel (← readSourceEntry host blockSize fullPath dirPath l)
      else .ok l

/-- The loop over the names that `scandir` returned. -/
def readSource (names : List (List UInt8)) : Except Stop Listing :=
  readSourceLoop host blockSize fullPath dirPath names.length (.start names)

end Code

/-- `"lost+found"`. -/
def lostAndFoundName : List UInt8 := [108, 111, 115, 116, 43, 102, 111, 117, 110, 100]

/-- The entry for a directory that is not on the host. -/
def lostAndFound (host : Host) (dirPath : List UInt8) : SourceDentry :=
  let path := dirPath ++ lostAndFoundName
  let d := { SourceDentry.zero with
    filename := some lostAndFoundName, path := some path, mode := 0x1C0, fileType := 2 }
  match host.selabelLookup with
  | none => d
  | some lookup => { d with secon := lookup path d.mode }

/-- `build_directory_structure` up to `make_directory`: the entries and the number of directories. -/
def sourceEntries (host : Host) (blockSize : ℕ) (fullPath dirPath : List UInt8) (dirInode : ℕ)
    (names : List (List UInt8)) : Except Stop (List SourceDentry × ℕ) := do
  let needsLostAndFound := dirInode = 0 ∧ lostAndFoundName ∉ names
  let l ← readSource host blockSize fullPath dirPath names
  let dentries := l.dentries.take l.entries
  .ok (if needsLostAndFound then (lostAndFound host dirPath :: dentries, l.dirs + 1)
    else (dentries, l.dirs))

/-! ## Listings without unreadable entries -/

section Reading

variable (host : Host) (fullPath dirPath : List UInt8)

/-- `lstat` succeeds and the type is known. -/
def Readable (name : List UInt8) : Prop :=
  ((host.lstat (fullPath ++ name)).bind fun stat => sourceFileType stat.mode).isSome

instance : DecidablePred (Readable host fullPath) := fun name =>
  inferInstanceAs (Decidable (((host.lstat (fullPath ++ name)).bind fun stat =>
    sourceFileType stat.mode).isSome = true))

/-- The entry is the one of the name. -/
structure Shows (name : List UInt8) (d : SourceDentry) : Prop where
  filename : d.filename = some name
  path : d.path = some (dirPath ++ name)
  stat : ∃ stat, host.lstat (fullPath ++ name) = some stat ∧ d.size = stat.size ∧
    sourceFileType stat.mode = some d.fileType

/-- The loop ends, and the entries are those of the names that can be read, in their order.  It has
touched no name after it freed it, which would be undefined. -/
def SkipsUnreadable (blockSize : ℕ) (names : List (List UInt8)) : Prop :=
  ∃ l, readSource host blockSize fullPath dirPath names = .ok l ∧ l.i = l.entries ∧
    l.entries = (names.filter (Readable host fullPath)).length ∧
    List.Forall₂ (Shows host fullPath dirPath) (names.filter (Readable host fullPath))
      (l.dentries.take l.entries)

variable {host fullPath dirPath}

theorem readable_iff {name : List UInt8} : Readable host fullPath name ↔
    ∃ stat type, host.lstat (fullPath ++ name) = some stat ∧
      sourceFileType stat.mode = some type := by
  unfold Readable
  cases host.lstat (fullPath ++ name) with
  | none => simp
  | some stat => simp [Option.isSome_iff_exists]

/-- The number of directories among the entries. -/
def directories (dentries : List SourceDentry) : ℕ := dentries.countP (·.fileType = 2)

theorem sourceFileType_eq_two {mode type : ℕ} (h : sourceFileType mode = some type) :
    type = 2 ↔ isDir mode := by
  unfold sourceFileType at h
  unfold isDir
  split at h
  · cases h
    simp_all
  · split at h
    · cases h
      simp_all [isDir]
    · rename_i hdir
      refine iff_of_false ?_ hdir
      repeat' split at h
      all_goals first | cases h; decide | cases h

/-! ## One round -/

/-- The loop has read the names `front`, all of them readable, and the names `rest` are to come. -/
structure Reached (host : Host) (fullPath dirPath : List UInt8) (front rest : List (List UInt8))
    (l : Listing) : Prop where
  i : l.i = front.length
  entries : l.entries = front.length + rest.length
  namelist : l.namelist = List.replicate front.length none ++ rest.map some
  length : l.dentries.length = front.length + rest.length
  shown : List.Forall₂ (Shows host fullPath dirPath) front (l.dentries.take front.length)
  dirs : l.dirs = directories (l.dentries.take front.length)

theorem reached_start (names : List (List UInt8)) :
    Reached host fullPath dirPath [] names (.start names) :=
  ⟨rfl, (Nat.zero_add _).symm, rfl, by simp [Listing.start], List.Forall₂.nil, rfl⟩

variable {front rest : List (List UInt8)} {name : List UInt8} {l : Listing} {blockSize : ℕ}

theorem Reached.name_eq (h : Reached host fullPath dirPath front (name :: rest) l) :
    l.namelist[l.i]? = some (some name) := by
  rw [h.i, h.namelist, List.getElem?_append_right (by simp)]
  simp

/-- Freeing a name. -/
theorem Reached.freed (h : Reached host fullPath dirPath front (name :: rest) l) :
    l.namelist.set l.i none = List.replicate (front.length + 1) none ++ rest.map some := by
  rw [h.i, h.namelist, List.set_append_right _ _ (by simp)]
  simp [List.replicate_succ']

/-- The round starts with copying and freeing the name. -/
theorem readSourceEntry_eq (hname : l.namelist[l.i]? = some (some name)) :
    readSourceEntry host blockSize fullPath dirPath l =
      (let full := fullPath ++ name
      let d := nameDentry fullPath dirPath name (l.dentries.getD l.i .zero)
      let l := { l with namelist := l.namelist.set l.i none }
      match host.lstat full with
      | none => .ok { l with dentries := l.dentries.set l.i d }.back
      | some stat =>
          let d := describeDentry host (dirPath ++ name) stat d
          match sourceFileType stat.mode with
          | none => .ok { l with dentries := l.dentries.set l.i d }.back
          | some type =>
              .ok { l with
                dentries := l.dentries.set l.i (typeDentry host blockSize full stat.mode type d)
                i := l.i + 1
                dirs := if isDir stat.mode then l.dirs + 1 else l.dirs }) := by
  have hread : l.name = .ok name := by rw [Listing.name, hname]
  have hfree : l.freeName = .ok { l with namelist := l.namelist.set l.i none } := by
    rw [Listing.freeName, hname]
  rw [readSourceEntry, hread, bind_ok, hfree, bind_ok]

theorem describeDentry_spec (path : List UInt8) (stat : SourceStat) (d : SourceDentry) :
    (describeDentry host path stat d).filename = d.filename ∧
      (describeDentry host path stat d).path = d.path ∧
      (describeDentry host path stat d).size = stat.size := by
  unfold describeDentry
  cases host.fsConfig <;> cases host.selabelLookup with
  | none => exact ⟨rfl, rfl, rfl⟩
  | some lookup =>
      dsimp only
      cases lookup path stat.mode <;> exact ⟨rfl, rfl, rfl⟩

/-- Whatever the entry held before, it is the one of the name afterwards. -/
theorem shows_typeDentry {stat : SourceStat} {type : ℕ}
    (hstat : host.lstat (fullPath ++ name) = some stat)
    (htype : sourceFileType stat.mode = some type) (full : List UInt8) (d : SourceDentry) :
    Shows host fullPath dirPath name (typeDentry host blockSize full stat.mode type
      (describeDentry host (dirPath ++ name) stat (nameDentry fullPath dirPath name d))) := by
  obtain ⟨hfilename, hpath, hsize⟩ : (describeDentry host (dirPath ++ name) stat
      (nameDentry fullPath dirPath name d)).filename = some name ∧ _ :=
    describeDentry_spec (dirPath ++ name) stat (nameDentry fullPath dirPath name d)
  exact ⟨hfilename, hpath, stat, hstat, hsize, htype⟩

/-- A name that can be read becomes the next entry. -/
theorem Reached.read (blockSize : ℕ)
    (h : Reached host fullPath dirPath front (name :: rest) l)
    (hreadable : Readable host fullPath name) :
    ∃ l', readSourceEntry host blockSize fullPath dirPath l = .ok l' ∧
      Reached host fullPath dirPath (front ++ [name]) rest l' := by
  obtain ⟨stat, type, hstat, htype⟩ := readable_iff.mp hreadable
  have hround : readSourceEntry host blockSize fullPath dirPath l = _ :=
    readSourceEntry_eq h.name_eq
  simp only [hstat, htype] at hround
  have hlength := h.length
  have htake : ∀ d, (l.dentries.set l.i d).take (front ++ [name]).length =
      l.dentries.take front.length ++ [d] := by
    intro d
    rw [h.i, List.length_append, List.length_singleton, List.take_add_one, List.getElem?_set_self
      (by rw [hlength, List.length_cons]; omega), List.take_set_of_le le_rfl]
    rfl
  refine ⟨_, hround, ?_, ?_, ?_, ?_, ?_, ?_⟩
  · rw [List.length_append, h.i]
    rfl
  · rw [h.entries, List.length_append, List.length_cons, List.length_singleton]
    omega
  · rw [h.freed, List.length_append]
    rfl
  · rw [List.length_set, hlength, List.length_append, List.length_cons, List.length_singleton]
    omega
  · rw [htake]
    exact List.rel_append h.shown (.cons (shows_typeDentry hstat htype _ _) .nil)
  · rw [htake, directories, List.countP_append, List.countP_singleton]
    simp only [h.dirs, typeDentry, sourceFileType_eq_two htype, decide_eq_true_eq]
    split <;> rfl

/-- At a name that cannot be read the loop steps back, to the name that it has freed. -/
theorem Reached.skip (blockSize : ℕ)
    (h : Reached host fullPath dirPath front (name :: rest) l)
    (hreadable : ¬ Readable host fullPath name) :
    ∃ l', readSourceEntry host blockSize fullPath dirPath l = .ok l' ∧
      l'.i = front.length ∧ l'.entries = front.length + rest.length ∧
      l'.name = .error .undefined ∧ l'.dirs = l.dirs ∧
      l'.dentries.take front.length = l.dentries.take front.length := by
  have hround : readSourceEntry host blockSize fullPath dirPath l = _ :=
    readSourceEntry_eq h.name_eq
  obtain ⟨d, hd⟩ : ∃ d, readSourceEntry host blockSize fullPath dirPath l = .ok { l with
      namelist := l.namelist.set l.i none, dentries := l.dentries.set l.i d }.back := by
    cases hstat : host.lstat (fullPath ++ name) with
    | none =>
        simp only [hstat] at hround
        exact ⟨_, hround⟩
    | some stat =>
        cases htype : sourceFileType stat.mode with
        | none =>
            simp only [hstat, htype] at hround
            exact ⟨_, hround⟩
        | some type => exact absurd (readable_iff.mpr ⟨stat, type, hstat, htype⟩) hreadable
  refine ⟨_, hd, h.i, ?_, ?_, rfl, ?_⟩
  · change l.entries - 1 = _
    rw [h.entries, List.length_cons]
    omega
  · have hfreed : (l.namelist.set l.i none)[l.i]? = some none := by
      rw [h.freed, h.i, List.getElem?_append_left (by simp)]
      simp
    unfold Listing.name Listing.back
    simp only [hfreed]
  · change (l.dentries.set l.i d).take front.length = _
    rw [h.i, List.take_set_of_le le_rfl]

/-! ## The loop -/

theorem readSourceLoop_succ (fuel : ℕ) (h : l.i < l.entries) :
    readSourceLoop host blockSize fullPath dirPath (fuel + 1) l =
      readSourceEntry host blockSize fullPath dirPath l >>=
        readSourceLoop host blockSize fullPath dirPath fuel := by
  rw [readSourceLoop, if_pos h]

theorem Reached.lt (h : Reached host fullPath dirPath front (name :: rest) l) :
    l.i < l.entries := by
  rw [h.i, h.entries, List.length_cons]
  omega

/-- The loop ends well when at most the last name cannot be read, and has skipped it. -/
theorem readSourceLoop_of_readable : ∀ {rest front : List (List UInt8)} {l : Listing},
    Reached host fullPath dirPath front rest l →
    (∀ name ∈ rest.dropLast, Readable host fullPath name) →
    ∃ l', readSourceLoop host blockSize fullPath dirPath rest.length l = .ok l' ∧
      l'.i = l'.entries ∧
      l'.entries = (front ++ rest.filter (Readable host fullPath)).length ∧
      List.Forall₂ (Shows host fullPath dirPath) (front ++ rest.filter (Readable host fullPath))
        (l'.dentries.take l'.entries) ∧
      l'.dirs = directories (l'.dentries.take l'.entries) := by
  intro rest
  induction rest with
  | nil =>
      intro front l h _
      have hend : l.entries = front.length := h.entries
      refine ⟨l, rfl, h.i.trans hend.symm, ?_, ?_, ?_⟩
      · rw [List.filter_nil, List.append_nil, hend]
      · rw [List.filter_nil, List.append_nil, hend]
        exact h.shown
      · rw [hend]
        exact h.dirs
  | cons name rest ih =>
      intro front l h hreadable
      rw [List.length_cons, readSourceLoop_succ _ h.lt]
      by_cases hname : Readable host fullPath name
      · obtain ⟨l₁, hround, h₁⟩ := h.read blockSize hname
        have hrest : ∀ name ∈ rest.dropLast, Readable host fullPath name := by
          intro n hn
          have hne : rest ≠ [] := by
            rintro rfl
            cases hn
          exact hreadable n (List.dropLast_cons_of_ne_nil hne ▸ List.mem_cons_of_mem _ hn)
        obtain ⟨l', hrun, hlast⟩ := ih h₁ hrest
        refine ⟨l', by rw [hround, bind_ok, hrun], ?_⟩
        rwa [List.filter_cons_of_pos (by simpa using hname), ← List.singleton_append,
          ← List.append_assoc]
      · -- only the last name is not known to be readable
        obtain rfl : rest = [] := by
          by_contra hne
          exact hname (hreadable name (List.dropLast_cons_of_ne_nil hne ▸ List.mem_cons_self))
        obtain ⟨l₁, hround, hi, hentries, -, hdirs, htake⟩ := h.skip blockSize hname
        have hend : l₁.entries = front.length := hentries
        refine ⟨l₁, by rw [hround, bind_ok]; rfl, hi.trans hend.symm, ?_, ?_, ?_⟩
        · rw [List.filter_cons_of_neg (by simpa using hname), List.filter_nil,
            List.append_nil, hend]
        · rw [List.filter_cons_of_neg (by simpa using hname), List.filter_nil,
            List.append_nil, hend,
            htake]
          exact h.shown
        · rw [hend, htake, hdirs]
          exact h.dirs

/-- A name behind one that cannot be read makes the loop use what it has freed. -/
theorem readable_of_readSourceLoop : ∀ {rest front : List (List UInt8)} {l l' : Listing},
    Reached host fullPath dirPath front rest l →
    readSourceLoop host blockSize fullPath dirPath rest.length l = .ok l' →
    ∀ name ∈ rest.dropLast, Readable host fullPath name := by
  intro rest
  induction rest with
  | nil => exact fun _ _ name hname => absurd hname List.not_mem_nil
  | cons name rest ih =>
      intro front l l' h hrun
      rw [List.length_cons, readSourceLoop_succ _ h.lt] at hrun
      cases rest with
      | nil => exact fun name hname => absurd hname List.not_mem_nil
      | cons next rest =>
          obtain ⟨l₁, hround, hrest⟩ := bind_eq_ok.mp hrun
          by_cases hname : Readable host fullPath name
          · obtain ⟨l₂, hround₂, h₂⟩ := h.read blockSize hname
            obtain rfl := Except.ok.inj (hround.symm.trans hround₂)
            intro n hn
            have hmem : n ∈ name :: (next :: rest).dropLast := hn
            rcases List.mem_cons.mp hmem with rfl | hn
            · exact hname
            · exact ih h₂ hrest n hn
          · -- the next round reads the name that was freed
            obtain ⟨l₂, hround₂, hi, hentries, hfreed, -, -⟩ := h.skip blockSize hname
            obtain rfl := Except.ok.inj (hround.symm.trans hround₂)
            have hlt : l₁.i < l₁.entries := by
              rw [hi, hentries, List.length_cons]
              omega
            rw [List.length_cons, readSourceLoop_succ _ hlt, readSourceEntry, hfreed] at hrest
            cases hrest

/-- **What the loop skips.**  With `force` the loop leaves exactly the entries of the names that can be
read, and touches no name that it has freed, if and only if every name but the last one can be
read. -/
theorem skipsUnreadable_iff (host : Host) (fullPath dirPath : List UInt8) (blockSize : ℕ)
    (names : List (List UInt8)) :
    SkipsUnreadable host fullPath dirPath blockSize names ↔
      ∀ name ∈ names.dropLast, Readable host fullPath name := by
  constructor
  · intro h
    obtain ⟨l, hrun, -⟩ := h
    exact readable_of_readSourceLoop (reached_start names) hrun
  · intro hreadable
    obtain ⟨l, hrun, hend, hlen, hshown, -⟩ :=
      readSourceLoop_of_readable (reached_start names) hreadable
    exact ⟨l, hrun, hend, hlen, hshown⟩

/-- What `make_directory` is called with when only the last name may be unreadable. -/
theorem sourceEntries_of_readable {host : Host} {fullPath dirPath : List UInt8} {blockSize : ℕ}
    {names : List (List UInt8)} (dirInode : ℕ)
    (h : ∀ name ∈ names.dropLast, Readable host fullPath name) :
    ∃ ds, List.Forall₂ (Shows host fullPath dirPath) (names.filter (Readable host fullPath)) ds ∧
      sourceEntries host blockSize fullPath dirPath dirInode names =
        .ok (if dirInode = 0 ∧ lostAndFoundName ∉ names then
            (lostAndFound host dirPath :: ds, directories (lostAndFound host dirPath :: ds))
          else (ds, directories ds)) := by
  obtain ⟨l, hrun, -, -, hshown, hdirs⟩ : ∃ l, readSourceLoop host blockSize fullPath dirPath
      names.length (.start names) = .ok l ∧ _ :=
    readSourceLoop_of_readable (reached_start names) h
  have hread : readSource host blockSize fullPath dirPath names = .ok l := hrun
  refine ⟨_, hshown, ?_⟩
  rw [sourceEntries, hread, bind_ok, ← hdirs]
  have hlost : (lostAndFound host dirPath).fileType = 2 := by
    unfold lostAndFound
    cases host.selabelLookup <;> rfl
  rw [directories, List.countP_cons_of_pos (by simpa using hlost), ← directories, ← hdirs]

end Reading

/-! ## A name that disappears -/

/-- Two regular files, of which the first is removed between the calls of `scandir` and `lstat`. -/
def removedFile : Host :=
  { lstat := fun path => if path = [47, 97] then none else some ⟨0x81A4, 5, 0⟩
    readlink := fun _ => []
    fsConfig := none
    selabelLookup := none }

/-- The second file is not reached: the loop looks for the name of the first one again. -/
theorem not_skipsUnreadable_removedFile :
    readSource removedFile 4096 [47] [] [[97], [98]] = .error .undefined ∧
      ¬ SkipsUnreadable removedFile [47] [] 4096 [[97], [98]] := by
  have hrun : readSource removedFile 4096 [47] [] [[97], [98]] = .error .undefined := by decide
  refine ⟨hrun, fun h => ?_⟩
  obtain ⟨l, hok, -⟩ := h
  rw [hrun] at hok
  cases hok

end SystemExtras.Ext4
