import SystemExtras.Ext4.FixupRuns

/-!
# What the check of the directories searches

The first pass over the directories is a dry run: it goes from the root into every
subdirectory and changes nothing.  Where it looks is a matter of types and names only.  It
passes over an entry that is neither a directory nor of unknown type, and over `.` and `..`
(`IdleEntry`), and it stops at a number that is zero.

`Searchable p T d` describes a device from this point of view.  Here `T.records n` are the
records in use, up to the first number that is zero; a directory of the tree may be
`Faulty`, which is one that the tool cannot read; and an idle entry may have the number of
no inode at all.  Up to eight bytes behind the records are no part of a directory for the
check, whatever they hold; they are `Stray` if the marking pass, which takes them for one
more entry, cannot work on them.

## Strategy

The check returns if and only if no directory of the tree is faulty, and otherwise it calls
`critical_error`.

* `recurseDir_reports`: by induction on the depth, the check fails only where a directory is
  faulty.
* `Searchable.not_faulty`: it returns only if none is.  `Checked p d n` says that the check
  of `n` has returned.  It is handed on from a directory to those the tool enters from there:
  in the loop over the records every record in use is visited (`visits_of_walk`), since the
  check leaves the numbers as they are.
-/

namespace SystemExtras.Ext4

open DevM

/-! ## Entries, directories, trees -/

/-- An entry that the tool does not look behind. -/
def IdleEntry (fileType : ℕ) (name : List UInt8) : Prop :=
  fileType ≠ EXT4_FT_UNKNOWN ∧ (fileType = EXT4_FT_DIR → name = [46] ∨ name = [46, 46])

instance (fileType : ℕ) (name : List UInt8) : Decidable (IdleEntry fileType name) :=
  inferInstanceAs (Decidable (_ ∧ _))

/-- A call of `critical_error`. -/
def Stop.Critical (e : Stop) : Prop := ∃ msg, e = .criticalError msg

/-- A directory for which the tool calls `critical_error`: the inode cannot be read, is none of a
directory, or has a size that is no multiple of the block size or too large to be allocated; or
the blocks cannot be found or read. -/
def Faulty (p : Fixup) (d : Device) (n : ℕ) : Prop :=
  (∃ e : Stop, e.Critical ∧ readInode p n d = .error e) ∨ ∃ inode, readInode p n d = .ok inode ∧
    (isDirInode inode = false ∨ dirSize inode % p.info.blockSize ≠ 0 ∨
      n ≠ EXT4_ROOT_INO ∧ 2 ^ 31 ≤ dirSize inode ∨
      ∀ fuel, ∃ e : Stop, e.Critical ∧
        (blockList p (fuel + 1) inode (dirSize inode / p.info.blockSize) d >>= readBlocks p d) =
          .error e)

namespace DirTree

variable (T : DirTree) (p : Fixup) (d : Device)

/-- The tool does not look behind the record. -/
def Idle (n r : ℕ) : Prop := IdleEntry (recFileType (T.buf p d n) r) (recName (T.buf p d n) r)

instance (n r : ℕ) : Decidable (T.Idle p d n r) := inferInstanceAs (Decidable (IdleEntry _ _))

/-- `m` is a directory of the tree that the tool enters from `n`. -/
def Searches (n m : ℕ) : Prop :=
  ∃ r ∈ T.records n, ¬ T.Idle p d n r ∧ recInum (T.buf p d n) r = m ∧ m ∈ T.dirs ∧
    recName (T.buf p d n) r ≠ [46] ∧ recName (T.buf p d n) r ≠ [46, 46] ∧
    (recFileType (T.buf p d n) r = EXT4_FT_UNKNOWN → ∀ inode, readInode p m d = .ok inode →
      isDirInode inode = true)

/-- Where the records in use end. -/
def stop (n : ℕ) : ℕ := (T.records n).max?.elim 0 fun q => q + recLength (T.buf p d n) q

/-- Behind the records in use nothing is left, or a number that is zero. -/
def Clear (n : ℕ) : Prop :=
  T.stop p d n = T.size p n ∨
    T.stop p d n + 4 ≤ T.size p n ∧ recInum (T.buf p d n) (T.stop p d n) = 0

instance (n : ℕ) : Decidable (T.Clear p d n) := inferInstanceAs (Decidable (_ ∨ _))

/-- The inode that an entry behind the records in use leads to. -/
def strayInum (n : ℕ) : ℕ := recInum (T.buf p d n) (T.stop p d n) &&& 0x7fffffff

/-- At most eight bytes are left behind the records in use, and the marking pass can do nothing with
them: they are less than an entry, or one with a name, or one that is a directory by its type and
none by its number. -/
structure Stray (n : ℕ) : Prop where
  stop_lt : T.stop p d n < T.size p n
  size_le : T.size p n ≤ T.stop p d n + 8
  used : T.stop p d n + 4 ≤ T.size p n → recInum (T.buf p d n) (T.stop p d n) ≠ 0
  harm : T.size p n < T.stop p d n + 8 ∨
    (DirEntry.nameLen.at_ (T.stop p d n)).get (T.buf p d n) ≠ 0 ∨
    recFileType (T.buf p d n) (T.stop p d n) = EXT4_FT_DIR ∧
      ∃ inode, readInode p (T.strayInum p d n) d = .ok inode ∧ isDirInode inode = false

/-- The inodes that the tool looks at. -/
def Consults (v : ℕ) : Prop :=
  v ∈ T.dirs ∨
    (∃ n ∈ T.dirs, ∃ r ∈ T.records n, ¬ T.Idle p d n r ∧ v = recInum (T.buf p d n) r) ∨
    ∃ n ∈ T.dirs, T.Stray p d n ∧ recFileType (T.buf p d n) (T.stop p d n) = EXT4_FT_DIR ∧
      v = T.strayInum p d n

/-- What the tool reads of these inodes, and the blocks that map directories. -/
def searchBytes : Set ℕ :=
  {x | (∃ v, T.Consults p d v ∧ x ∈ Set.Ico (inodeOffset p v) (inodeOffset p v + inodeBytes)) ∨
    ∃ n ∈ T.dirs, ∃ inode, readInode p n d = .ok inode ∧
      ∃ b ∈ mapBlocks p inode, x ∈ blockBytes p b}

end DirTree

/-- A record in use.  If the tool looks behind it, it leads to a directory of the tree or, its type
being unknown, to the inode of something else. -/
structure SoundEntry (p : Fixup) (T : DirTree) (d : Device) (n r : ℕ) : Prop where
  used : recInum (T.buf p d n) r ≠ 0
  inum_lt : recInum (T.buf p d n) r < 2 ^ 31
  newInum_lt : p.newInum (recInum (T.buf p d n) r) < 2 ^ 31
  leads : ¬ T.Idle p d n r →
    (recFileType (T.buf p d n) r = EXT4_FT_UNKNOWN ∧
      ∃ inode, readInode p (recInum (T.buf p d n) r) d = .ok inode ∧ isDirInode inode = false) ∨
    recInum (T.buf p d n) r ∈ T.dirs ∧
      (recFileType (T.buf p d n) r = EXT4_FT_UNKNOWN → ∀ inode,
        readInode p (recInum (T.buf p d n) r) d = .ok inode → isDirInode inode = true) ∧
      (recName (T.buf p d n) r ≠ [46] → recName (T.buf p d n) r ≠ [46, 46] →
        T.depth (recInum (T.buf p d n) r) < T.depth n)

/-- A directory that can be read, with its records in use from the start on. -/
structure SoundDir (p : Fixup) (T : DirTree) (d : Device) (n : ℕ) : Prop where
  inode : ∃ inode, readInode p n d = .ok inode ∧ DirInode p (T.blocks n) inode d
  blocks_le : ∀ b ∈ T.blocks n, b * p.info.blockSize + p.info.blockSize ≤ d.size
  tiles : Tiles (T.buf p d n) p.info.blockSize (T.stop p d n) 0 (T.records n)
  stop_le : T.stop p d n ≤ T.size p n
  leftover : T.Clear p d n ∨ T.Stray p d n
  entry : ∀ r ∈ T.records n, SoundEntry p T d n r

/-- The directories that the tool searches, each of them faulty or sound. -/
structure Searchable (p : Fixup) (T : DirTree) (d : Device) : Prop where
  readExt : Ext4.readExt d = .ok p
  size_lt : d.size < 2 ^ 63
  root_mem : EXT4_ROOT_INO ∈ T.dirs
  reachable : ∀ n ∈ T.dirs, Relation.ReflTransGen (T.Searches p d) EXT4_ROOT_INO n
  dir : ∀ n ∈ T.dirs, Faulty p d n ∨ SoundDir p T d n

/-- What the migration asks of a device besides directories that can be read: a root that keeps its
number, and parts of the filesystem that lie apart from each other. -/
structure Migratable (p : Fixup) (T : DirTree) (d : Device) : Prop where
  steady : Steady p
  groups_pos : 0 < p.aux.groups
  blockSize_le : p.info.blockSize ≤ MAX_EXT4_BLOCK_SIZE
  blocks_nodup : (T.dirs.flatMap T.blocks).Nodup
  copies : CopiesApart p
  copies_le : ∀ i, HasCopy p i → sbOffset p i + Sb.size ≤ d.size ∧
    descOffset p i + p.descLen ≤ d.size
  dirs_state : Disjoint (T.bytes p) stateBytes
  dirs_copies : Disjoint (T.bytes p) (copyBytes p)
  dirs_bitmaps : Disjoint (T.bytes p) (bitmapBytes p)
  dirs_search : Disjoint (T.bytes p) (T.searchBytes p d)
  search_state : Disjoint (T.searchBytes p d) stateBytes
  search_copies : Disjoint (T.searchBytes p d) (copyBytes p)
  search_bitmaps : Disjoint (T.searchBytes p d) (bitmapBytes p)

/-! ## What the check reports -/

/-- The tool does not look behind an idle entry. -/
theorem visitEntry_idle {p : Fixup} {mode : Mode} {d : Device} {x : ℕ}
    {recurseDir : Mem → ℕ → DevM Stop Unit} {fileType : ℕ} {name : List UInt8}
    (h : IdleEntry fileType name) :
    visitEntry p mode recurseDir fileType name x d = (.ok (), []) := by
  obtain ⟨hunknown, hdots⟩ := h
  obtain ⟨isDir, hisDir, htype⟩ : ∃ isDir, isEntryDir p mode fileType x d = .ok isDir ∧
      (isDir = true → fileType = EXT4_FT_DIR) := by
    unfold isEntryDir
    by_cases hdir : fileType = EXT4_FT_DIR
    · exact ⟨true, if_pos hdir, fun _ => hdir⟩
    · exact ⟨false, by rw [if_neg hdir, if_neg hunknown], by simp⟩
  have hnot : ¬ (isDir = true ∧ name ≠ [46] ∧ name ≠ [46, 46] ∧
      (mode = .updateInodeNums → Marked x)) := by
    rintro ⟨h, hdot, hdotdot, -⟩
    rcases hdots (htype h) with h | h
    · exact hdot h
    · exact hdotdot h
  unfold visitEntry
  rw [bind_of_eq (x := DevM.query (isEntryDir p mode fileType x)) (Prod.ext hisDir rfl),
    if_neg hnot]
  rfl


/-- The name of a record that is not cut off. -/
theorem entryName_of_fits {buf : Mem} {size r : ℕ}
    (hle : r + DirEntry.nameOffset + (DirEntry.nameLen.at_ r).get buf ≤ size) :
    entryName buf size r = .ok (recName buf r) := by
  have hmin : min ((DirEntry.nameLen.at_ r).get buf) (size - (r + DirEntry.nameOffset)) =
      (DirEntry.nameLen.at_ r).get buf := min_eq_left (by omega)
  have hlen : ∀ k, (buf.bytes (r + DirEntry.nameOffset) k).length = k := by
    intro k
    simp [Mem.bytes]
  unfold entryName recName
  simp only [hmin]
  rw [if_neg (by
    rw [hlen]
    omega)]

/-- The sanity check writes nothing back. -/
theorem writeBlocks_true {p : Fixup} {d : Device} (buf : Mem) (blocks : List ℕ) :
    ∀ off, writeBlocks p true buf off blocks d = (.ok (), []) := by
  induction blocks with
  | nil => exact fun _ => rfl
  | cons c rest ih =>
      intro off
      have hres : (writeBlock p true c fun i => buf (off + i)).result d = .ok () := rfl
      exact Prod.ext ((bind_of_ok hres).1.trans (congrArg Prod.fst (ih _)))
        ((bind_of_ok hres).2.trans (congrArg Prod.snd (ih _)))

section Reports

variable {p : Fixup} {T : DirTree} {d : Device} {P : Stop → Prop} {n r stop : ℕ} {buf inode : Mem}

theorem critical_msg (msg : String) : (Stop.criticalError msg).Critical := ⟨msg, rfl⟩

/-- The loop ends at a zero. -/
theorem walk_zero {mode : Mode} {recurseDir : Mem → ℕ → DevM Stop Unit} {size fuel o : ℕ}
    {prev : Option ℕ} (hroom : o + 4 ≤ size) (hzero : recInum buf o = 0)
    (hpad : ¬ (prev ≠ none ∧ mode ≠ .markInodeNums ∧ size - o ≤ 8)) :
    walk p mode recurseDir size (fuel + 1) buf o prev = pure buf := by
  have hzero : (DirEntry.inode.at_ o).get buf = 0 := hzero
  unfold walk
  rw [if_neg (by omega)]
  cases prev with
  | none => exact (if_neg (not_lt.mpr hroom)).trans (if_pos hzero)
  | some q =>
      have hshort : decide (mode ≠ .markInodeNums ∧ size - o ≤ 8) = false :=
        decide_eq_false fun h => hpad ⟨Option.some_ne_none q, h⟩
      rw [hshort]
      exact (if_neg (not_lt.mpr hroom)).trans (if_pos hzero)

/-- The loop adds what little is left to the last record. -/
theorem walk_pad {mode : Mode} {recurseDir : Mem → ℕ → DevM Stop Unit} {size fuel o q : ℕ}
    (hlt : o < size) (hmode : mode ≠ .markInodeNums) (hshort : size - o ≤ 8) :
    walk p mode recurseDir size (fuel + 1) buf o (some q) =
      pure ((DirEntry.recLen.at_ q).set buf (recLength buf q + (size - o))) := by
  unfold walk
  rw [if_neg (not_le.mpr hlt), decide_eq_true ⟨hmode, hshort⟩]
  rfl

/-- The loop of the check over the records `rs`.  It comes past the last of them unless more than
eight bytes are left there and do not start with a zero. -/
theorem walk_reports {recurseDir : Mem → ℕ → DevM Stop Unit}
    (hrec : ∀ inode size, ReadOnly (recurseDir inode size)) {size : ℕ} (hstop : stop ≤ size)
    {rs : List ℕ} : ∀ {fuel o : ℕ} {prev : Option ℕ}, rs.length < fuel →
      Tiles buf p.info.blockSize stop o rs → (∀ r ∈ rs, recInum buf r ≠ 0) →
      (stop = size ∨ (stop + 4 ≤ size ∧ recInum buf stop = 0) ∨
        size ≤ stop + 8 ∧ (prev = none → rs ≠ [])) →
      (∀ r ∈ rs, FailsOnly P (visitEntry p .sanityCheckPass recurseDir (recFileType buf r)
        (recName buf r) (recInum buf r)) d) →
      FailsOnly P (walk p .sanityCheckPass recurseDir size fuel buf o prev) d := by
  induction rs with
  | nil =>
      rintro fuel o prev hfuel ho - hend -
      obtain ⟨fuel, rfl⟩ : ∃ k, fuel = k + 1 := ⟨fuel - 1, by omega⟩
      obtain rfl : o = stop := ho
      by_cases hle : size ≤ o
      · unfold walk
        rw [if_pos hle]
        exact FailsOnly.pure
      by_cases hpad : prev ≠ none ∧ Mode.sanityCheckPass ≠ .markInodeNums ∧ size - o ≤ 8
      · obtain ⟨hprev, hmode, hshort⟩ := hpad
        obtain ⟨q, rfl⟩ := Option.ne_none_iff_exists'.mp hprev
        rw [walk_pad (by omega) hmode hshort]
        exact FailsOnly.pure
      · obtain ⟨hroom, hzero⟩ : o + 4 ≤ size ∧ recInum buf o = 0 := by
          rcases hend with h | h | ⟨h₁, h₂⟩
          · omega
          · exact h
          · exact absurd ⟨fun h => h₂ h rfl, by decide, by omega⟩ hpad
        rw [walk_zero hroom hzero hpad]
        exact FailsOnly.pure
  | cons o rest ih =>
      rintro fuel _ prev hfuel ⟨rfl, hok, hrest⟩ hused hend hvisit
      obtain ⟨fuel, rfl⟩ : ∃ k, fuel = k + 1 := ⟨fuel - 1, by omega⟩
      have hmin := hok.minLength
      have hname := hok.name
      have hle := hrest.le
      have hne : (DirEntry.inode.at_ o).get buf ≠ 0 := hused o List.mem_cons_self
      rw [walk_record (by omega), if_neg hne]
      refine FailsOnly.query_bind (fun e he => ?_) fun name hentry =>
        FailsOnly.bind ?_ fun _ _ => ?_
      · rw [entryName_of_fits (by omega)] at he
        cases he
      · rw [entryName_of_fits (by omega)] at hentry
        cases hentry
        exact hvisit o List.mem_cons_self
      · rw [(visitEntry_readOnly hrec _ _ _).final]
        -- the check leaves the number as it is
        have hsame : (DirEntry.inode.at_ o).set buf ((DirEntry.inode.at_ o).get buf) = buf :=
          Mem.store_load buf _ _
        simp only [processInum, hsame]
        refine ih (by simpa using hfuel) hrest (fun r hr => hused r (List.mem_cons_of_mem _ hr)) ?_
          fun r hr => hvisit r (List.mem_cons_of_mem _ hr)
        rcases hend with h | h | h
        · exact Or.inl h
        · exact Or.inr (Or.inl h)
        · exact Or.inr (Or.inr ⟨h.1, fun hc => absurd hc (by simp)⟩)

/-- A directory of the tree is faulty, and the tool says so. -/
def Reported (p : Fixup) (T : DirTree) (d : Device) (e : Stop) : Prop :=
  e.Critical ∧ ∃ n ∈ T.dirs, Faulty p d n

variable (hT : Searchable p T d)

include hT

theorem Searchable.blockSize_pos : 0 < p.info.blockSize :=
  (readExt_eq_ok.mp hT.readExt).blockSize_pos

/-- A block is longer than what is left. -/
theorem DirTree.Stray.records_ne_nil (h : T.Stray p d n) : T.records n ≠ [] := by
  intro hnil
  obtain ⟨hlt, hle, -⟩ := h
  have hbs := (readExt_eq_ok.mp hT.readExt).blockSize_ge
  have hstop : T.stop p d n = 0 := by
    unfold DirTree.stop
    rw [hnil]
    rfl
  unfold DirTree.size at hlt hle
  cases hlen : (T.blocks n).length with
  | zero =>
      rw [hlen] at hlt
      omega
  | succ k =>
      rw [hlen, Nat.mul_succ] at hle
      omega

/-- Reading the inode of a directory. -/
theorem Searchable.readInode_reports (hn : n ∈ T.dirs) (e : Stop)
    (h : Ext4.readInode p n d = .error e) : Reported p T d e := by
  rcases hT.dir n hn with hfaulty | hsound
  · rcases id hfaulty with ⟨e', he', hread⟩ | ⟨inode, hread, -⟩
    · rw [h] at hread
      cases hread
      exact ⟨he', n, hn, hfaulty⟩
    · rw [h] at hread
      cases hread
  · obtain ⟨inode, hread, -⟩ := hsound.inode
    rw [h] at hread
    cases hread

/-- An entry of a sound directory, the check of the directories below it being known. -/
theorem visitEntry_reports {fuel : ℕ} (hsound : SoundDir p T d n)
    (hfuel : T.depth n < fuel + 1) (hr : r ∈ T.records n)
    (ih : ∀ m ∈ T.dirs, T.depth m < fuel → ∀ inode, readInode p m d = .ok inode →
      isDirInode inode = true → (m ≠ EXT4_ROOT_INO → dirSize inode < 2 ^ 31) →
      FailsOnly (Reported p T d) (recurseDir p .sanityCheckPass fuel inode (dirSize inode)) d) :
    FailsOnly (Reported p T d) (visitEntry p .sanityCheckPass (recurseDir p .sanityCheckPass fuel)
      (recFileType (T.buf p d n) r) (recName (T.buf p d n) r) (recInum (T.buf p d n) r)) d := by
  by_cases hidle : T.Idle p d n r
  · exact FailsOnly.of_ok (congrArg Prod.fst (visitEntry_idle hidle))
  have hentry := hsound.entry r hr
  have hlow : recInum (T.buf p d n) r &&& 0x7fffffff = recInum (T.buf p d n) r :=
    (and_low31 _).trans (Nat.mod_eq_of_lt hentry.inum_lt)
  have hnot : ¬ (Mode.sanityCheckPass = .updateInodeNums ∧ ¬ Marked (recInum (T.buf p d n) r)) :=
    fun h => by cases h.1
  unfold visitEntry
  rcases hentry.leads hidle with ⟨hunknown, inode, hread, hfile⟩ | ⟨hmem, -, hdepth⟩
  · -- the inode says that it is no directory
    have hisDir : isEntryDir p .sanityCheckPass (recFileType (T.buf p d n) r)
        (recInum (T.buf p d n) r) d = .ok false := by
      unfold isEntryDir
      rw [if_neg (by rw [hunknown]; decide), if_pos hunknown, if_neg hnot, hlow, hread, bind_ok,
        hfile]
    refine FailsOnly.query_bind (fun e he => ?_) fun isDir h => ?_
    · rw [hisDir] at he
      cases he
    · rw [hisDir] at h
      cases h
      rw [if_neg (by simp)]
      exact FailsOnly.pure
  · refine FailsOnly.query_bind (fun e he => ?_) fun isDir _ => ?_
    · unfold isEntryDir at he
      by_cases htype : recFileType (T.buf p d n) r = EXT4_FT_DIR
      · rw [if_pos htype] at he
        cases he
      by_cases hunknown : recFileType (T.buf p d n) r = EXT4_FT_UNKNOWN
      · rw [if_neg htype, if_pos hunknown, if_neg hnot, hlow] at he
        cases hread : readInode p (recInum (T.buf p d n) r) d with
        | error e' =>
            rw [hread] at he
            cases he
            exact hT.readInode_reports hmem e hread
        | ok inode =>
            rw [hread] at he
            cases he
      · rw [if_neg htype, if_neg hunknown] at he
        cases he
    by_cases henter : isDir = true ∧ recName (T.buf p d n) r ≠ [46] ∧
        recName (T.buf p d n) r ≠ [46, 46] ∧ (Mode.sanityCheckPass = .updateInodeNums →
          Marked (recInum (T.buf p d n) r))
    · rw [if_pos henter, hlow]
      refine FailsOnly.query_bind (hT.readInode_reports hmem) fun inode hread => ?_
      by_cases hdir : isDirInode inode = true
      · rw [if_neg (not_not.mpr hdir)]
        by_cases hlarge : 2 ^ 31 ≤ dirSize inode
        · rw [if_pos hlarge]
          refine FailsOnly.fail ⟨critical_msg _, _, hmem,
            (hT.dir _ hmem).resolve_right fun hsound => ?_⟩
          obtain ⟨inode', hread', hinode⟩ := hsound.inode
          rw [hread] at hread'
          cases hread'
          exact absurd hinode.size_lt (not_lt.mpr (hinode.dirSize_eq ▸ hlarge))
        · rw [if_neg hlarge]
          have hlt : T.depth (recInum (T.buf p d n) r) < fuel :=
            lt_of_lt_of_le (hdepth henter.2.1 henter.2.2.1) (Nat.lt_succ_iff.mp hfuel)
          exact ih _ hmem hlt inode hread hdir fun _ => not_le.mp hlarge
      · rw [if_pos hdir]
        exact FailsOnly.fail ⟨critical_msg _, _, hmem,
          Or.inr ⟨inode, hread, Or.inl (by simpa using hdir)⟩⟩
    · rw [if_neg henter]
      exact FailsOnly.pure

/-- The check of a directory fails only where a directory is faulty. -/
theorem recurseDir_reports (fuel : ℕ) : ∀ n ∈ T.dirs, T.depth n < fuel → ∀ inode,
    readInode p n d = .ok inode → isDirInode inode = true →
    (n ≠ EXT4_ROOT_INO → dirSize inode < 2 ^ 31) →
    FailsOnly (Reported p T d) (recurseDir p .sanityCheckPass fuel inode (dirSize inode)) d := by
  induction fuel with
  | zero => exact fun n _ h => absurd h (Nat.not_lt_zero _)
  | succ fuel ih =>
      intro n hn hfuel inode hread hdir hlt
      unfold recurseDir
      by_cases hmod : dirSize inode % p.info.blockSize = 0
      swap
      · rw [if_pos hmod]
        exact FailsOnly.fail ⟨critical_msg _, n, hn, Or.inr ⟨inode, hread, Or.inr (Or.inl hmod)⟩⟩
      rw [if_neg (not_not.mpr hmod)]
      rcases hT.dir n hn with hfaulty | hsound
      · -- the blocks cannot be found or read
        obtain ⟨e, he, hload⟩ : ∃ e : Stop, e.Critical ∧ (blockList p (fuel + 1) inode
            (dirSize inode / p.info.blockSize) d >>= readBlocks p d) = .error e := by
          rcases id hfaulty with ⟨e, -, he⟩ | ⟨inode', hread', hfault⟩
          · rw [hread] at he
            cases he
          rw [hread] at hread'
          cases hread'
          rcases hfault with hnot | hnot | ⟨hroot, hge⟩ | hload
          · rw [hdir] at hnot
            cases hnot
          · exact absurd hmod hnot
          · exact absurd (hlt hroot) (not_lt.mpr hge)
          · exact hload fuel
        refine FailsOnly.query_bind (fun e' he' => ?_) fun blocks hblocks =>
          FailsOnly.query_bind (fun e' he' => ?_) fun buf hbuf => ?_
        · rw [he'] at hload
          cases hload
          exact ⟨he, n, hn, hfaulty⟩
        · rw [hblocks, bind_ok, he'] at hload
          cases hload
          exact ⟨he, n, hn, hfaulty⟩
        · rw [hblocks, bind_ok, hbuf] at hload
          cases hload
      · obtain ⟨inode', hread', hinode⟩ := hsound.inode
        rw [hread] at hread'
        cases hread'
        have hpos := hT.blockSize_pos
        have hsize : dirSize inode = T.size p n := hinode.dirSize_eq
        have hdiv : T.size p n / p.info.blockSize = (T.blocks n).length :=
          Nat.mul_div_cancel_left _ hpos
        have hblocks : blockList p (fuel + 1) inode (T.blocks n).length d = .ok (T.blocks n) :=
          hinode.blockList_congr (fun _ _ _ => rfl) rfl hT.size_lt (fun _ _ _ _ _ => rfl) fuel
        rw [hsize, hdiv]
        refine FailsOnly.query_bind (fun e he => ?_) fun blocks hblocks' =>
          FailsOnly.query_bind (fun e he => ?_) fun buf hbuf => ?_
        · rw [hblocks] at he
          cases he
        · rw [hblocks] at hblocks'
          cases hblocks'
          rw [readBlocks_eq hpos hT.size_lt hsound.blocks_le] at he
          cases he
        · rw [hblocks] at hblocks'
          cases hblocks'
          rw [readBlocks_eq hpos hT.size_lt hsound.blocks_le] at hbuf
          cases hbuf
          rw [if_neg (not_le.mpr hinode.size_lt : ¬ 2 ^ 31 ≤ T.size p n)]
          have hlength := hsound.tiles.length_le
          have hle := hsound.stop_le
          refine FailsOnly.bind (walk_reports (recurseDir_readOnly fuel) hle (by omega) hsound.tiles
            (fun r hr => (hsound.entry r hr).used) ?_ fun r hr =>
              visitEntry_reports hT hsound hfuel hr ih) fun c _ => ?_
          · exact hsound.leftover.elim (Or.imp id Or.inl) fun h =>
              Or.inr (Or.inr ⟨h.size_le, fun _ => h.records_ne_nil hT⟩)
          · exact FailsOnly.of_ok (congrArg Prod.fst (writeBlocks_true _ _ _))

end Reports

/-! ## What the check has visited when it returns -/

/-- The check of a directory has returned. -/
def Checked (p : Fixup) (d : Device) (n : ℕ) : Prop :=
  ∃ fuel inode, readInode p n d = .ok inode ∧ isDirInode inode = true ∧
    (recurseDir p .sanityCheckPass fuel inode (dirSize inode)).result d = .ok ()

section Checked

variable {p : Fixup} {T : DirTree} {d : Device} {n m stop fuel : ℕ} {buf c : Mem}
  {inode : Mem}

/-- The check visits all the records in use. -/
theorem visits_of_walk {recurseDir : Mem → ℕ → DevM Stop Unit}
    (hrec : ∀ inode size, ReadOnly (recurseDir inode size)) {size : ℕ} (hstop : stop ≤ size)
    {rs : List ℕ} : ∀ {fuel o : ℕ} {prev : Option ℕ}, Tiles buf p.info.blockSize stop o rs →
      (∀ r ∈ rs, recInum buf r ≠ 0) →
      (walk p .sanityCheckPass recurseDir size fuel buf o prev).result d = .ok c →
      ∀ r ∈ rs, (visitEntry p .sanityCheckPass recurseDir (recFileType buf r) (recName buf r)
        (recInum buf r)).result d = .ok () := by
  induction rs with
  | nil => exact fun _ _ _ _ hr => absurd hr List.not_mem_nil
  | cons o rest ih =>
      rintro fuel _ prev ⟨rfl, hok, hrest⟩ hused hwalk
      have hmin := hok.minLength
      have hname := hok.name
      have hle := hrest.le
      have hne : (DirEntry.inode.at_ o).get buf ≠ 0 := hused o List.mem_cons_self
      cases fuel with
      | zero => cases hwalk
      | succ fuel =>
          rw [walk_record (by omega), if_neg hne] at hwalk
          obtain ⟨name, hentry, hwalk⟩ := result_bind_eq_ok.mp hwalk
          have hentry : entryName buf size o = .ok name := hentry
          rw [entryName_of_fits (by omega)] at hentry
          cases hentry
          obtain ⟨_, hvisit, hwalk⟩ := result_bind_eq_ok.mp hwalk
          rw [(visitEntry_readOnly hrec _ _ _).final, final_query] at hwalk
          -- the check leaves the number as it is
          have hsame : (DirEntry.inode.at_ o).set buf ((DirEntry.inode.at_ o).get buf) = buf :=
            Mem.store_load buf _ _
          simp only [processInum, hsame] at hwalk
          intro r hr
          rcases List.mem_cons.mp hr with rfl | hr
          · exact hvisit
          · exact ih hrest (fun r hr => hused r (List.mem_cons_of_mem _ hr)) hwalk r hr

/-- What the check of a directory has read. -/
theorem check_reads
    (h : (recurseDir p .sanityCheckPass (fuel + 1) inode (dirSize inode)).result d = .ok ()) :
    dirSize inode % p.info.blockSize = 0 ∧ dirSize inode < 2 ^ 31 ∧ ∃ blocks buf c,
      blockList p (fuel + 1) inode (dirSize inode / p.info.blockSize) d = .ok blocks ∧
      readBlocks p d blocks = .ok buf ∧
      (walk p .sanityCheckPass (recurseDir p .sanityCheckPass fuel) (dirSize inode)
        (dirSize inode + 1) buf 0 none).result d = .ok c := by
  unfold recurseDir at h
  split at h
  · cases h
  rename_i hmod
  obtain ⟨blocks, hblocks, h⟩ := result_bind_eq_ok.mp h
  obtain ⟨buf, hbuf, h⟩ := result_bind_eq_ok.mp h
  rw [final_query, final_query] at h
  split at h
  · cases h
  rename_i hlt
  obtain ⟨c, hwalk, -⟩ := result_bind_eq_ok.mp h
  exact ⟨not_not.mp hmod, not_le.mp hlt, blocks, buf, c, hblocks, hbuf, hwalk⟩

theorem Checked.not_faulty (h : Checked p d n) : ¬ Faulty p d n := by
  obtain ⟨fuel, inode, hread, hdir, hcheck⟩ := h
  cases fuel with
  | zero => cases hcheck
  | succ fuel =>
      obtain ⟨hmod, hlt, blocks, buf, -, hblocks, hbuf, -⟩ := check_reads hcheck
      rintro (⟨e, -, he⟩ | ⟨inode', hread', hfault⟩)
      · rw [hread] at he
        cases he
      rw [hread] at hread'
      cases hread'
      rcases hfault with hnot | hnot | ⟨-, hge⟩ | hload
      · rw [hdir] at hnot
        cases hnot
      · exact hnot hmod
      · omega
      · obtain ⟨e, -, he⟩ := hload fuel
        rw [hblocks, bind_ok, hbuf] at he
        cases he

/-- An entry that the check has visited and looks behind. -/
theorem checked_of_visit {fileType inum : ℕ} {name : List UInt8}
    (hvisit : (visitEntry p .sanityCheckPass (recurseDir p .sanityCheckPass fuel) fileType name
      inum).result d = .ok ()) (hidle : ¬ IdleEntry fileType name) (hlt : inum < 2 ^ 31)
    (hdir : fileType = EXT4_FT_UNKNOWN → ∀ inode, readInode p inum d = .ok inode →
      isDirInode inode = true) (hdot : name ≠ [46]) (hdotdot : name ≠ [46, 46]) :
    Checked p d inum := by
  have hlow : inum &&& 0x7fffffff = inum := (and_low31 inum).trans (Nat.mod_eq_of_lt hlt)
  unfold visitEntry at hvisit
  obtain ⟨isDir, hisDir, hvisit⟩ := result_bind_eq_ok.mp hvisit
  rw [final_query] at hvisit
  have hisDir : isEntryDir p .sanityCheckPass fileType inum d = .ok isDir := hisDir
  have htrue : isDir = true := by
    unfold isEntryDir at hisDir
    by_cases htype : fileType = EXT4_FT_DIR
    · rw [if_pos htype] at hisDir
      exact (Except.ok.inj hisDir).symm
    have hunknown : fileType = EXT4_FT_UNKNOWN := by
      by_contra hne
      exact hidle ⟨hne, fun h => absurd h htype⟩
    have hnot : ¬ (Mode.sanityCheckPass = .updateInodeNums ∧ ¬ Marked inum) := fun h => by cases h.1
    rw [if_neg htype, if_pos hunknown, if_neg hnot, hlow, bind_eq_ok] at hisDir
    obtain ⟨inode, hread, hisDir⟩ := hisDir
    rw [← Except.ok.inj hisDir]
    exact hdir hunknown inode hread
  have henter : isDir = true ∧ name ≠ [46] ∧ name ≠ [46, 46] ∧
      (Mode.sanityCheckPass = .updateInodeNums → Marked inum) :=
    ⟨htrue, hdot, hdotdot, fun h => by cases h⟩
  rw [if_pos henter, hlow] at hvisit
  obtain ⟨inode, hread, hvisit⟩ := result_bind_eq_ok.mp hvisit
  rw [final_query] at hvisit
  have hread : readInode p inum d = .ok inode := hread
  by_cases hisdir : isDirInode inode = true
  · rw [if_neg (not_not.mpr hisdir)] at hvisit
    by_cases hlarge : 2 ^ 31 ≤ dirSize inode
    · rw [if_pos hlarge] at hvisit
      cases hvisit
    · rw [if_neg hlarge] at hvisit
      exact ⟨fuel, inode, hread, hisdir, hvisit⟩
  · rw [if_pos hisdir] at hvisit
    cases hvisit

variable (hT : Searchable p T d)

include hT

/-- The check goes on from a directory to those it enters. -/
theorem Checked.searches (h : Checked p d n) (hn : n ∈ T.dirs) (hm : T.Searches p d n m) :
    Checked p d m := by
  have hsound := (hT.dir n hn).resolve_left h.not_faulty
  obtain ⟨fuel, inode, hread, hdir, hcheck⟩ := h
  cases fuel with
  | zero => cases hcheck
  | succ fuel =>
      obtain ⟨-, -, blocks, buf, c, hblocks, hbuf, hwalk⟩ := check_reads hcheck
      obtain ⟨inode', hread', hinode⟩ := hsound.inode
      rw [hread] at hread'
      cases hread'
      rw [hinode.dirSize_eq, Nat.mul_div_cancel_left _ hT.blockSize_pos,
        hinode.blockList_congr (fun _ _ _ => rfl) rfl hT.size_lt (fun _ _ _ _ _ => rfl)] at hblocks
      cases hblocks
      rw [readBlocks_eq hT.blockSize_pos hT.size_lt hsound.blocks_le] at hbuf
      cases hbuf
      obtain ⟨r, hr, hidle, rfl, -, hdot, hdotdot, htype⟩ := hm
      have hvisit := visits_of_walk (recurseDir_readOnly fuel)
        (hinode.dirSize_eq.symm ▸ hsound.stop_le) hsound.tiles
        (fun r hr => (hsound.entry r hr).used) hwalk r hr
      exact checked_of_visit hvisit hidle (hsound.entry r hr).inum_lt htype hdot hdotdot

/-- When the check returns, no directory of the tree is faulty. -/
theorem Searchable.not_faulty (h : Checked p d EXT4_ROOT_INO) : ∀ n ∈ T.dirs, ¬ Faulty p d n := by
  have hboth : ∀ n, Relation.ReflTransGen (T.Searches p d) EXT4_ROOT_INO n →
      n ∈ T.dirs ∧ Checked p d n := by
    intro n hn
    induction hn with
    | refl => exact ⟨hT.root_mem, h⟩
    | tail _ hstep ih =>
        obtain ⟨r, -, -, -, hmem, -⟩ := id hstep
        exact ⟨hmem, ih.2.searches hT ih.1 hstep⟩
  exact fun n hn => (hboth n (hT.reachable n hn)).2.not_faulty

end Checked

end SystemExtras.Ext4
