import SystemExtras.Ext4.Renumber

/-!
# The passes over the directories

A pass finds a number in every live record that is either the one it starts from
(`Mode.start`) or the one it leaves (`Mode.target`): a pass may have been cut off
before, and what it had done by then must not be done twice.  In the last pass a
number that has been replaced no longer leads to its directory, so that pass skips
such records; it may do so because a directory is written behind all of its
subdirectories.  `Prog` states this: behind a replaced number everything is done.

`recurseDir_spec` is the induction over the tree.  It says that a pass that starts
with `Prog` keeps `Prog` after every one of its writes and returns with everything
below its directory done.
-/

namespace SystemExtras.Ext4

open DevM

/-! ## Numbers with bit 31 -/

section Bit31

variable {v : ℕ}

theorem or_bit31 (hv : v < 2 ^ 31) : v ||| 0x80000000 = v + 2 ^ 31 := by
  have h := Nat.two_pow_add_eq_or_of_lt hv 1
  rw [Nat.mul_one] at h
  rw [Nat.or_comm, Nat.add_comm]
  exact h.symm

theorem and_low31 (v : ℕ) : v &&& 0x7fffffff = v % 2 ^ 31 := Nat.and_two_pow_sub_one_eq_mod v 31

theorem marked_iff : Marked v ↔ v.testBit 31 = true := by
  unfold Marked
  rw [show (0x80000000 : ℕ) = 2 ^ 31 by rfl, Nat.and_two_pow]
  cases v.testBit 31 <;> simp

theorem not_marked_of_lt (hv : v < 2 ^ 31) : ¬ Marked v := by
  rw [marked_iff, Nat.testBit_lt_two_pow hv]
  simp

theorem marked_or_bit31 (v : ℕ) : Marked (v ||| 0x80000000) := by
  rw [marked_iff, Nat.testBit_or, show (0x80000000 : ℕ) = 2 ^ 31 by rfl, Nat.testBit_two_pow_self]
  simp

end Bit31

/-! ## What a pass does to a number -/

namespace Mode

/-- The number a pass finds in a record it has not dealt with, `v` being the number in
the image. -/
def start (mode : Mode) (v : ℕ) : ℕ :=
  match mode with
  | .sanityCheckPass => v
  | .markInodeNums => v
  | .updateInodeNums => v ||| 0x80000000

/-- The number a pass leaves in a record. -/
def target (mode : Mode) (p : Fixup) (v : ℕ) : ℕ :=
  match mode with
  | .sanityCheckPass => v
  | .markInodeNums => v ||| 0x80000000
  | .updateInodeNums => p.newInum v

end Mode

section Inums

variable {p : Fixup} {mode : Mode} {v x : ℕ}

theorem computeNewInum_eq (hpos : 0 < v) (hv : v < 2 ^ 31) (hnew : p.newInum v < 2 ^ 31) :
    p.computeNewInum v = p.newInum v := by
  unfold Fixup.computeNewInum
  simp only [sub32_of_le (show 1 ≤ v by omega) (show v < 2 ^ 32 by omega)]
  exact u32_of_lt (hnew.trans (by decide))

theorem newInum_pos (p : Fixup) (v : ℕ) : 0 < p.newInum v := Nat.succ_pos _

theorem processInum_start (hpos : 0 < v) (hv : v < 2 ^ 31) (hnew : p.newInum v < 2 ^ 31) :
    processInum p mode (mode.start v) = mode.target p v := by
  cases mode with
  | sanityCheckPass => rfl
  | markInodeNums => rfl
  | updateInodeNums =>
      have hlow : (v ||| 0x80000000) &&& 0x7fffffff = v := by
        rw [and_low31, or_bit31 hv]
        omega
      simp only [processInum, Mode.start, Mode.target, marked_or_bit31, if_true, hlow,
        computeNewInum_eq hpos hv hnew]

theorem processInum_target (hnew : p.newInum v < 2 ^ 31) :
    processInum p mode (mode.target p v) = mode.target p v := by
  cases mode with
  | sanityCheckPass => rfl
  | markInodeNums =>
      simp only [processInum, Mode.target, Nat.or_assoc, Nat.or_self]
  | updateInodeNums =>
      simp only [processInum, Mode.target, not_marked_of_lt hnew, if_false]

/-- A pass leaves every number it meets as its target. -/
theorem processInum_eq (hx : x = mode.start v ∨ x = mode.target p v) (hpos : 0 < v)
    (hv : v < 2 ^ 31) (hnew : p.newInum v < 2 ^ 31) : processInum p mode x = mode.target p v := by
  rcases hx with rfl | rfl
  · exact processInum_start hpos hv hnew
  · exact processInum_target hnew

/-- The numbers a pass meets are 32 bit numbers other than zero. -/
theorem meets_bounds (hx : x = mode.start v ∨ x = mode.target p v) (hpos : 0 < v)
    (hv : v < 2 ^ 31) (hnew : p.newInum v < 2 ^ 31) : 0 < x ∧ x < 2 ^ 32 := by
  have hor := or_bit31 hv
  have hnewpos := newInum_pos p v
  rcases hx with rfl | rfl <;> cases mode <;> simp only [Mode.start, Mode.target] <;> omega

/-- A number that the last pass has replaced is not marked; any other leads to its inode. -/
theorem meets_cases (hx : x = mode.start v ∨ x = mode.target p v) (hv : v < 2 ^ 31)
    (hnew : p.newInum v < 2 ^ 31) :
    mode = .updateInodeNums ∧ ¬ Marked x ∧ x = mode.target p v ∨
      x &&& 0x7fffffff = v ∧ (mode = .updateInodeNums → Marked x) := by
  have hlow : (v ||| 0x80000000) &&& 0x7fffffff = v := by
    rw [and_low31, or_bit31 hv]
    omega
  have hlow' : v &&& 0x7fffffff = v := by
    rw [and_low31]
    omega
  cases mode with
  | sanityCheckPass =>
      rcases hx with rfl | rfl <;> exact Or.inr ⟨hlow', by simp⟩
  | markInodeNums =>
      rcases hx with rfl | rfl
      · exact Or.inr ⟨hlow', by simp⟩
      · exact Or.inr ⟨hlow, by simp⟩
  | updateInodeNums =>
      rcases hx with rfl | rfl
      · exact Or.inr ⟨hlow, fun _ => marked_or_bit31 v⟩
      · exact Or.inl ⟨rfl, not_marked_of_lt hnew, rfl⟩

end Inums

/-! ## How far a pass has come -/

/-- The directory and everything below it has the numbers that the pass leaves. -/
def Done (p : Fixup) (T : DirTree) (d₀ : Device) (mode : Mode) (val : ℕ → ℕ → ℕ) (n : ℕ) : Prop :=
  ∀ m, Relation.ReflTransGen (T.IsSub p d₀) n m →
    ∀ r ∈ T.live p d₀ m, val m r = mode.target p (origInum p T d₀ m r)

/-- The numbers in the directories while a pass is under way. -/
structure Prog (p : Fixup) (T : DirTree) (d₀ : Device) (mode : Mode) (val : ℕ → ℕ → ℕ) : Prop where
  meets : ∀ n ∈ T.dirs, ∀ r ∈ T.live p d₀ n, val n r = mode.start (origInum p T d₀ n r) ∨
    val n r = mode.target p (origInum p T d₀ n r)
  behind : mode = .updateInodeNums → ∀ n ∈ T.dirs, ∀ r, T.Enters p d₀ n r →
    val n r = mode.target p (origInum p T d₀ n r) → Done p T d₀ mode val (origInum p T d₀ n r)

/-- From `val` to `val'` the pass has changed nothing in directories of depth `k` and more, and
has not taken back what it had done. -/
structure Advances (p : Fixup) (T : DirTree) (d₀ : Device) (mode : Mode) (k : ℕ)
    (val val' : ℕ → ℕ → ℕ) : Prop where
  frame : ∀ m, k ≤ T.depth m → val' m = val m
  keeps : ∀ m r, val m r = mode.target p (origInum p T d₀ m r) →
    val' m r = mode.target p (origInum p T d₀ m r)

/-- The device while a pass is under way that found the numbers `val`. -/
def Progress (p : Fixup) (T : DirTree) (d₀ d₁ : Device) (mode : Mode) (k : ℕ) (val : ℕ → ℕ → ℕ)
    (R : (ℕ → ℕ → ℕ) → Prop) (d : Device) : Prop :=
  ∃ val', Holds p T d₀ d₁ val' d ∧ Prog p T d₀ mode val' ∧ Advances p T d₀ mode k val val' ∧ R val'

section Progress

variable {p : Fixup} {T : DirTree} {d₀ d₁ d : Device} {mode : Mode} {k k' n r : ℕ}
  {val val' val'' : ℕ → ℕ → ℕ} {R R' : (ℕ → ℕ → ℕ) → Prop}

theorem Advances.refl : Advances p T d₀ mode k val val := ⟨fun _ _ => rfl, fun _ _ h => h⟩

theorem Advances.trans (h : Advances p T d₀ mode k val val')
    (h' : Advances p T d₀ mode k val' val'') : Advances p T d₀ mode k val val'' :=
  ⟨fun m hm => (h'.frame m hm).trans (h.frame m hm), fun m r hr => h'.keeps m r (h.keeps m r hr)⟩

theorem Advances.mono (h : Advances p T d₀ mode k val val') (hk : k ≤ k') :
    Advances p T d₀ mode k' val val' := ⟨fun m hm => h.frame m (hk.trans hm), h.keeps⟩

theorem Done.advances (h : Done p T d₀ mode val n) (ha : Advances p T d₀ mode k val val') :
    Done p T d₀ mode val' n := fun m hm r hr => ha.keeps m r (h m hm r hr)

theorem Progress.of (hH : Holds p T d₀ d₁ val d) (hP : Prog p T d₀ mode val) (hR : R val) :
    Progress p T d₀ d₁ mode k val R d := ⟨val, hH, hP, Advances.refl, hR⟩

theorem Progress.after (h : Progress p T d₀ d₁ mode k val' R d)
    (ha : Advances p T d₀ mode k' val val') (hk : k ≤ k')
    (hR : ∀ v, Advances p T d₀ mode k' val' v → R v → R' v) :
    Progress p T d₀ d₁ mode k' val R' d := by
  obtain ⟨v, hH, hP, hv, hRv⟩ := h
  exact ⟨v, hH, hP, ha.trans (hv.mono hk), hR v (hv.mono hk) hRv⟩

theorem origInum_pos (hr : r ∈ T.live p d₀ n) : 0 < origInum p T d₀ n r :=
  Nat.pos_of_ne_zero (recInum_ne_zero_of_live hr)

theorem refers_of_live (hn : n ∈ T.dirs) (hr : r ∈ T.live p d₀ n) :
    T.Refers p d₀ (origInum p T d₀ n r) := Or.inr ⟨n, hn, r, hr, rfl⟩

variable (hI : DirImage p T d₀) (hn : n ∈ T.dirs)

include hI hn

/-- A record leads into a subdirectory if it names a directory. -/
theorem DirImage.enters_iff (hr : r ∈ T.live p d₀ n) {inode : Mem}
    (hread : readInode p (origInum p T d₀ n r) d₀ = .ok inode) :
    T.Enters p d₀ n r ↔ isDirInode inode = true ∧ recName (T.buf p d₀ n) r ≠ [46] ∧
      recName (T.buf p d₀ n) r ≠ [46, 46] := by
  constructor
  · rintro ⟨-, hmem, hname⟩
    obtain ⟨inode', hread', hdir⟩ := hI.inode _ hmem
    rw [show readInode p (recInum (T.buf p d₀ n) r) d₀ = .ok inode from hread] at hread'
    cases hread'
    exact ⟨hdir.isDir, hname⟩
  · rintro ⟨hdir, hname⟩
    obtain ⟨inode', hread', -, hmem⟩ := (hI.entry n hn r hr).inode
    rw [show readInode p (recInum (T.buf p d₀ n) r) d₀ = .ok inode from hread] at hread'
    cases hread'
    exact ⟨hr, (hmem hdir).1, hname⟩

theorem DirImage.depth_lt (h : T.Enters p d₀ n r) :
    T.depth (origInum p T d₀ n r) < T.depth n := by
  obtain ⟨hr, hmem, hdot, hdotdot⟩ := h
  obtain ⟨inode, hread, -, hsub⟩ := (hI.entry n hn r hr).inode
  have hdir := ((hI.enters_iff hn hr hread).mp ⟨hr, hmem, hdot, hdotdot⟩).1
  exact (hsub hdir).2 hdot hdotdot

end Progress

/-! ## One entry -/

/-- What `recurse_dir` does on every directory of less than the given depth. -/
def Recurses (p : Fixup) (T : DirTree) (d₀ d₁ : Device) (mode : Mode) (bound : ℕ)
    (recurseDir : Mem → ℕ → DevM Stop Unit) : Prop :=
  ∀ n ∈ T.dirs, T.depth n < bound → ∀ inode inode₀ val d, readInode p n d₀ = .ok inode₀ →
    inode.SameOn inode₀ 0 DirTree.inodeBytes → Holds p T d₀ d₁ val d → Prog p T d₀ mode val →
    Crash (Progress p T d₀ d₁ mode (T.depth n + 1) val fun _ => True)
      (recurseDir inode (T.size p n)) d
      (Returns fun _ => Progress p T d₀ d₁ mode (T.depth n + 1) val fun v => Done p T d₀ mode v n)

section Entry

variable {p : Fixup} {T : DirTree} {d₀ d₁ d : Device} {mode : Mode} {n r : ℕ} {val : ℕ → ℕ → ℕ}

theorem DirInode.dirSize_eq {blocks : List ℕ} {inode : Mem} (h : DirInode p blocks inode d) :
    dirSize inode = p.info.blockSize * blocks.length := by
  unfold dirSize
  rw [h.blocksLo]
  exact u32_of_lt (h.size_lt.trans (by decide))

/-- The size of a directory, read from what a run has left of its inode. -/
theorem DirImage.dirSize_eq (hI : DirImage p T d₀) (hn : n ∈ T.dirs) {inode inode' : Mem}
    (hread : readInode p n d₀ = .ok inode) (hsame : inode'.SameOn inode 0 DirTree.inodeBytes) :
    dirSize inode' = T.size p n ∧ dirSize inode' < 2 ^ 31 := by
  obtain ⟨inode₁, hread₁, hdir⟩ := hI.inode n hn
  rw [hread] at hread₁
  cases hread₁
  have hsize : dirSize inode' = T.size p n := (dirSize_congr hsame).trans hdir.dirSize_eq
  refine ⟨hsize, ?_⟩
  rw [hsize]
  exact hdir.size_lt

variable (hI : DirImage p T d₀) (hS : SameNav p T d₀ d₁) (hn : n ∈ T.dirs)

include hI hS hn

/-- `is_entry_dir` on a number that still leads to its inode. -/
theorem isEntryDir_eq (hr : r ∈ T.live p d₀ n) (hH : Holds p T d₀ d₁ val d) {inode : Mem} {x : ℕ}
    (hread : readInode p (origInum p T d₀ n r) d₀ = .ok inode)
    (hlow : x &&& 0x7fffffff = origInum p T d₀ n r) (hmarked : mode = .updateInodeNums → Marked x) :
    isEntryDir p mode (recFileType (T.buf p d₀ n) r) x d = .ok (isDirInode inode) := by
  obtain ⟨inode₁, hread₁, htype, -⟩ := (hI.entry n hn r hr).inode
  rw [show readInode p (recInum (T.buf p d₀ n) r) d₀ = .ok inode from hread] at hread₁
  cases hread₁
  unfold isEntryDir
  by_cases hdir : recFileType (T.buf p d₀ n) r = EXT4_FT_DIR
  · rcases htype with hunknown | htype
    · rw [hdir] at hunknown
      cases hunknown
    · rw [if_pos hdir, htype.mp hdir]
  · rw [if_neg hdir]
    by_cases hunknown : recFileType (T.buf p d₀ n) r = EXT4_FT_UNKNOWN
    · obtain ⟨inode', hread', hsame⟩ := hH.readInode hI hS (refers_of_live hn hr) hread
      rw [if_pos hunknown, if_neg fun hc => hc.2 (hmarked hc.1), hlow, hread', bind_ok,
        isDirInode_congr hsame]
    · rw [if_neg hunknown]
      rcases htype with htype | htype
      · exact absurd htype hunknown
      · rw [Bool.eq_false_iff.mpr fun h => hdir (htype.mpr h)]

/-- Visiting an entry finishes the directory behind it. -/
theorem visitEntry_spec {recurseDir : Mem → ℕ → DevM Stop Unit}
    (hrec : Recurses p T d₀ d₁ mode (T.depth n) recurseDir) (hr : r ∈ T.live p d₀ n)
    (hH : Holds p T d₀ d₁ val d) (hP : Prog p T d₀ mode val) :
    Crash (Progress p T d₀ d₁ mode (T.depth n) val fun _ => True)
      (visitEntry p mode recurseDir (recFileType (T.buf p d₀ n) r) (recName (T.buf p d₀ n) r)
        (val n r)) d
      (Returns fun _ => Progress p T d₀ d₁ mode (T.depth n) val fun v =>
        T.Enters p d₀ n r → Done p T d₀ mode v (origInum p T d₀ n r)) := by
  obtain ⟨inode, hread, htype, hsub⟩ := (hI.entry n hn r hr).inode
  have hentry := hI.entry n hn r hr
  have hmeets := hP.meets n hn r hr
  have hstart : Progress p T d₀ d₁ mode (T.depth n) val (fun _ => True) d := .of hH hP trivial
  unfold visitEntry
  rcases meets_cases hmeets hentry.inum_lt hentry.newInum_lt with
    ⟨rfl, hmark, htarget⟩ | ⟨hlow, hmark⟩
  · -- the number has been replaced, and the directory behind it is done
    obtain ⟨isDir, hisDir⟩ : ∃ b, isEntryDir p .updateInodeNums (recFileType (T.buf p d₀ n) r)
        (val n r) d = .ok b := by
      unfold isEntryDir
      rw [if_pos (⟨rfl, hmark⟩ : (Mode.updateInodeNums = .updateInodeNums ∧ ¬ Marked (val n r)))]
      split
      · exact ⟨_, rfl⟩
      · split <;> exact ⟨_, rfl⟩
    apply Crash.query_bind hisDir
    rw [if_neg fun hc => hmark (hc.2.2.2 rfl)]
    exact Crash.pure hstart ⟨(), rfl, .of hH hP fun hent => hP.behind rfl n hn r hent htarget⟩
  · apply Crash.query_bind (isEntryDir_eq hI hS hn hr hH hread hlow hmark)
    by_cases hent : T.Enters p d₀ n r
    · obtain ⟨hdir, hdot, hdotdot⟩ := (hI.enters_iff hn hr hread).mp hent
      have hdepth := hI.depth_lt hn hent
      obtain ⟨inode', hread', hsame⟩ := hH.readInode hI hS (refers_of_live hn hr) hread
      obtain ⟨hsize, hlt⟩ := hI.dirSize_eq hent.2.1 hread hsame
      rw [if_pos ⟨hdir, hdot, hdotdot, hmark⟩, hlow]
      apply Crash.query_bind hread'
      rw [if_neg (by simp [isDirInode_congr hsame, hdir]), if_neg (not_le.mpr hlt), hsize]
      refine (hrec _ hent.2.1 hdepth inode' inode val d hread hsame hH hP).mono ?_ ?_
      · intro d' hd'
        exact hd'.after Advances.refl hdepth fun _ _ _ => trivial
      · rintro _ d' ⟨_, rfl, hd'⟩
        exact ⟨(), rfl, hd'.after Advances.refl hdepth fun v _ hdone _ => hdone⟩
    · have hnot : ¬ (isDirInode inode = true ∧ recName (T.buf p d₀ n) r ≠ [46] ∧
          recName (T.buf p d₀ n) r ≠ [46, 46] ∧ (mode = .updateInodeNums → Marked (val n r))) :=
        fun hc => hent ((hI.enters_iff hn hr hread).mpr ⟨hc.1, hc.2.1, hc.2.2.1⟩)
      rw [if_neg hnot]
      exact Crash.pure hstart ⟨(), rfl, .of hH hP fun hc => absurd hc hent⟩

end Entry

/-! ## The records of a directory -/

section Walk

variable {p : Fixup} {T : DirTree} {d₀ d₁ d : Device} {mode : Mode} {n r : ℕ} {val : ℕ → ℕ → ℕ}

/-- The name of a record that has room for it. -/
theorem entryName_eq {buf : Mem} {bs size : ℕ} (hok : RecordOk buf bs r)
    (hle : r + recLength buf r ≤ size) : entryName buf size r = .ok (recName buf r) := by
  have hname := hok.name
  have hmin : min ((DirEntry.nameLen.at_ r).get buf) (size - (r + DirEntry.nameOffset)) =
      (DirEntry.nameLen.at_ r).get buf := min_eq_left (by omega)
  have hlen : ∀ k, (buf.bytes (r + DirEntry.nameOffset) k).length = k := by
    intro k
    simp [Mem.bytes]
  unfold entryName recName
  simp only [hmin]
  rw [if_neg (by
    rw [hlen]
    omega)]

/-- One round of the loop, on a record that does not end in the last bytes. -/
theorem walk_record {recurseDir : Mem → ℕ → DevM Stop Unit} {size fuel o : ℕ} {buf : Mem}
    {prev : Option ℕ} (hle : o + 12 ≤ size) :
    walk p mode recurseDir size (fuel + 1) buf o prev =
      if (DirEntry.inode.at_ o).get buf = 0 then pure buf
      else (do
        let name ← DevM.query fun _ => entryName buf size o
        visitEntry p mode recurseDir ((DirEntry.fileType.at_ o).get buf) name
          ((DirEntry.inode.at_ o).get buf)
        walk p mode recurseDir size fuel
          ((DirEntry.inode.at_ o).set buf (processInum p mode ((DirEntry.inode.at_ o).get buf)))
          (o + (DirEntry.recLen.at_ o).get buf) (some o)) := by
  have hshort : decide (mode ≠ .markInodeNums ∧ size - o ≤ 8) = false := by
    rw [decide_eq_false_iff_not]
    omega
  have hroom : ¬ size < o + DirEntry.nameOffset := by
    unfold DirEntry.nameOffset
    omega
  conv_lhs => unfold walk
  rw [if_neg (show ¬ size ≤ o by omega), hshort]
  cases prev <;> simp only [if_neg (show ¬ size < o + 4 by omega), if_neg hroom]

theorem Tiles.length_le {buf : Mem} {bs size : ℕ} {rs : List ℕ} :
    ∀ {o : ℕ}, Tiles buf bs size o rs → o + 12 * rs.length ≤ size := by
  induction rs with
  | nil =>
      rintro o rfl
      exact Nat.le_refl _
  | cons r rest ih =>
      rintro o ⟨rfl, hok, hrest⟩
      have := ih hrest
      have := hok.minLength
      rw [List.length_cons]
      omega

variable (hI : FixupImage p T d₀) (hS : SameNav p T d₀ d₁) (hn : n ∈ T.dirs)

/-- The loop over the records `rs`, everything before them being done with. -/
structure WalkAt (p : Fixup) (T : DirTree) (d₀ : Device) (mode : Mode) (n : ℕ) (rs : List ℕ)
    (val : ℕ → ℕ → ℕ) (new : ℕ → ℕ) : Prop where
  suffix : rs <:+ T.records n
  ahead : ∀ r ∈ T.live p d₀ n, r ∈ rs → new r = val n r
  past : ∀ r ∈ T.live p d₀ n, r ∉ rs → new r = mode.target p (origInum p T d₀ n r)
  behind : ∀ r, T.Enters p d₀ n r → r ∉ rs → Done p T d₀ mode val (origInum p T d₀ n r)

/-- What the loop leaves: the buffer with the new numbers, and all subdirectories done. -/
def Walked (p : Fixup) (T : DirTree) (d₀ d₁ : Device) (mode : Mode) (n : ℕ) (val : ℕ → ℕ → ℕ)
    (buf : Mem) (d : Device) : Prop :=
  buf = T.renum p d₀ (fun r => mode.target p (origInum p T d₀ n r)) n ∧
    Progress p T d₀ d₁ mode (T.depth n) val
      (fun v => ∀ r, T.Enters p d₀ n r → Done p T d₀ mode v (origInum p T d₀ n r)) d

/-- Nothing in use is left: the loop is done. -/
theorem WalkAt.finished {rs : List ℕ} {new : ℕ → ℕ} (hW : WalkAt p T d₀ mode n rs val new)
    (hdead : ∀ r ∈ T.live p d₀ n, r ∉ rs) (hH : Holds p T d₀ d₁ val d)
    (hP : Prog p T d₀ mode val) : Walked p T d₀ d₁ mode n val (T.renum p d₀ new n) d := by
  refine ⟨?_, .of hH hP fun r hent => hW.behind r hent (hdead r hent.1)⟩
  funext x
  exact renum_congr fun r hr _ _ => hW.past r hr (hdead r hr)

include hI hn

/-- The number of a live record in the buffer. -/
theorem recInum_walk (hP : Prog p T d₀ mode val) {rs : List ℕ} {new : ℕ → ℕ}
    (hW : WalkAt p T d₀ mode n rs val new) (hr : r ∈ T.live p d₀ n) (hmem : r ∈ rs) :
    recInum (T.renum p d₀ new n) r = val n r ∧ val n r ≠ 0 := by
  have hentry := hI.entry n hn r hr
  obtain ⟨hpos, hlt⟩ := meets_bounds (hP.meets n hn r hr) (origInum_pos hr) hentry.inum_lt
    hentry.newInum_lt
  rw [recInum_renum hI hn hr, hW.ahead r hr hmem, u32_of_lt hlt]
  exact ⟨rfl, by omega⟩

include hS

theorem walk_spec {recurseDir : Mem → ℕ → DevM Stop Unit}
    (hrec : Recurses p T d₀ d₁ mode (T.depth n) recurseDir) (rs : List ℕ) :
    ∀ fuel o prev val new d, rs.length < fuel →
      Tiles (T.buf p d₀ n) p.info.blockSize (T.size p n) o rs →
      WalkAt p T d₀ mode n rs val new → Holds p T d₀ d₁ val d → Prog p T d₀ mode val →
      Crash (Progress p T d₀ d₁ mode (T.depth n) val fun _ => True)
        (walk p mode recurseDir (T.size p n) fuel (T.renum p d₀ new n) o prev) d
        (Returns (Walked p T d₀ d₁ mode n val)) := by
  induction rs with
  | nil =>
      intro fuel o prev val new d hfuel htiles hW hH hP
      obtain ⟨fuel, rfl⟩ : ∃ f, fuel = f + 1 := ⟨fuel - 1, by omega⟩
      have ho : T.size p n ≤ o := Nat.le_of_eq (Eq.symm htiles)
      unfold walk
      rw [if_pos ho]
      exact Crash.pure (.of hH hP trivial) ⟨_, rfl, hW.finished (by simp) hH hP⟩
  | cons r rest ih =>
      rintro fuel o prev val new d hfuel ⟨rfl, hok, hrest⟩ hW hH hP
      obtain ⟨fuel, rfl⟩ : ∃ f, fuel = f + 1 := ⟨fuel - 1, by omega⟩
      have hrec_mem : r ∈ T.records n := hW.suffix.subset List.mem_cons_self
      have hmin := hok.minLength
      have hle := hrest.le
      have hrest_suffix : rest <:+ T.records n := (List.suffix_cons r rest).trans hW.suffix
      have hstart : Progress p T d₀ d₁ mode (T.depth n) val (fun _ => True) d := .of hH hP trivial
      rw [walk_record (show r + 12 ≤ T.size p n by omega)]
      by_cases hlive : r ∈ T.live p d₀ n
      · obtain ⟨hinum, hne⟩ := recInum_walk hI hn hP hW hlive List.mem_cons_self
        have hentry := hI.entry n hn r hlive
        have hname : entryName (T.renum p d₀ new n) (T.size p n) r =
            .ok (recName (T.buf p d₀ n) r) := by
          rw [entryName_eq (recordOk_renum hI hn hrec_mem) (by rwa [recLength_renum hI hn hrec_mem]),
            recName_renum hI hn hrec_mem]
        rw [show (DirEntry.inode.at_ r).get (T.renum p d₀ new n) = val n r from hinum,
          if_neg hne]
        refine Crash.query_bind (g := fun _ => entryName (T.renum p d₀ new n) (T.size p n) r) hname ?_
        rw [show (DirEntry.fileType.at_ r).get (T.renum p d₀ new n) = recFileType (T.buf p d₀ n) r
            from recFileType_renum hI hn hrec_mem,
          show (DirEntry.recLen.at_ r).get (T.renum p d₀ new n) = recLength (T.buf p d₀ n) r
            from recLength_renum hI hn hrec_mem,
          processInum_eq (hP.meets n hn r hlive) (origInum_pos hlive) hentry.inum_lt
            hentry.newInum_lt, set_renum hI hn hlive]
        apply (visitEntry_spec hI hS hn hrec hlive hH hP).bind_returns
        rintro _ d' ⟨val', hH', hP', hadv, hdone⟩
        have hsame : val' n = val n := hadv.frame n le_rfl
        have hnodup : r ∉ rest := by
          intro hmem
          have := (hrest.mem r hmem).1
          omega
        have hW' : WalkAt p T d₀ mode n rest val'
            (Function.update new r (mode.target p (origInum p T d₀ n r))) := by
          refine ⟨hrest_suffix, fun q hq hmem => ?_, fun q hq hmem => ?_, fun q hent hmem => ?_⟩
          · have hqr : q ≠ r := fun h => hnodup (h ▸ hmem)
            rw [Function.update_of_ne hqr, hsame]
            exact hW.ahead q hq (List.mem_cons_of_mem _ hmem)
          · by_cases hqr : q = r
            · rw [hqr, Function.update_self]
            · rw [Function.update_of_ne hqr]
              exact hW.past q hq (by simp [hqr, hmem])
          · by_cases hqr : q = r
            · subst hqr
              exact hdone hent
            · exact (hW.behind q hent (by simp [hqr, hmem])).advances hadv
        refine (ih fuel _ _ val' _ d' (by simpa using hfuel) hrest hW' hH' hP').mono ?_ ?_
        · intro d'' h
          exact h.after hadv le_rfl fun _ _ _ => trivial
        · rintro _ d'' ⟨buf, rfl, hbuf, h⟩
          exact ⟨buf, rfl, hbuf, h.after hadv le_rfl fun _ _ h => h⟩
      · -- the first record that is not in use ends the directory
        rw [show (DirEntry.inode.at_ r).get (T.renum p d₀ new n) = 0 from
          recInum_renum_of_dead hI hn hrec_mem hlive, if_pos rfl]
        refine Crash.pure hstart ⟨_, rfl, hW.finished (fun q hq hmem => ?_) hH hP⟩
        rcases List.mem_cons.mp hmem with rfl | hmem
        · exact hlive hq
        · have hpair := (List.Pairwise.sublist hW.suffix.sublist (hI.live_first n hn))
          have hzero : recInum (T.buf p d₀ n) r = 0 := by
            by_contra h
            exact hlive (mem_live.mpr ⟨hrec_mem, h⟩)
          exact recInum_ne_zero_of_live hq ((List.pairwise_cons.mp hpair).1 q hmem hzero)

end Walk

/-! ## Writing a directory back -/

section WriteBack

variable {p : Fixup} {T : DirTree} {d₀ d₁ d : Device} {mode : Mode} {n : ℕ} {val : ℕ → ℕ → ℕ}

theorem exists_getElem_of_drop_cons {xs rest : List ℕ} {k b : ℕ} (h : xs.drop k = b :: rest) :
    ∃ hk : k < xs.length, xs[k] = b ∧ xs.drop (k + 1) = rest := by
  have hk : k < xs.length := by
    by_contra hle
    rw [List.drop_eq_nil_of_le (not_lt.mp hle)] at h
    cases h
  rw [List.drop_eq_getElem_cons hk] at h
  exact ⟨hk, List.cons.inj h⟩

/-- A record that is in use lies in one of the blocks of its directory. -/
theorem DirImage.live_block_lt (hI : DirImage p T d) (hn : n ∈ T.dirs) {r : ℕ}
    (hr : r ∈ T.live p d n) : r / p.info.blockSize < (T.blocks n).length := by
  obtain ⟨-, hok, hle⟩ := (hI.tiles n hn).mem r (live_subset hr)
  have hmin := hok.minLength
  have hlt : r < T.size p n := by omega
  exact Nat.div_lt_of_lt_mul hlt

/-- A write can reach every block of a directory. -/
theorem DirImage.seek_block (hI : DirImage p T d) (hn : n ∈ T.dirs) {k : ℕ}
    (hk : k < (T.blocks n).length) :
    u64 ((T.blocks n)[k] * p.info.blockSize) = (T.blocks n)[k] * p.info.blockSize ∧
      seekable ((T.blocks n)[k] * p.info.blockSize) := by
  have hlt := hI.size_lt
  have hle := hI.blocks_le n hn _ (List.getElem_mem hk)
  exact ⟨u64_of_lt (by omega), show _ < _ by omega⟩

/-- The numbers after block `k` of directory `n` has been written. -/
def afterBlock (p : Fixup) (T : DirTree) (d₀ : Device) (mode : Mode) (n k : ℕ)
    (val : ℕ → ℕ → ℕ) : ℕ → ℕ → ℕ :=
  Function.update val n fun r =>
    if r / p.info.blockSize = k then mode.target p (origInum p T d₀ n r) else val n r

theorem afterBlock_self (k r : ℕ) : afterBlock p T d₀ mode n k val n r =
    if r / p.info.blockSize = k then mode.target p (origInum p T d₀ n r) else val n r := by
  unfold afterBlock
  rw [Function.update_self]

theorem afterBlock_of_ne {m : ℕ} (h : m ≠ n) (k : ℕ) :
    afterBlock p T d₀ mode n k val m = val m := Function.update_of_ne h _ _

theorem afterBlock_advances (k : ℕ) :
    Advances p T d₀ mode (T.depth n + 1) val (afterBlock p T d₀ mode n k val) := by
  refine ⟨fun m hm => ?_, fun m r hr => ?_⟩
  · refine afterBlock_of_ne ?_ k
    rintro rfl
    omega
  · by_cases hmn : m = n
    · subst hmn
      rw [afterBlock_self]
      split
      · rfl
      · exact hr
    · rw [afterBlock_of_ne hmn, hr]

/-- A directory may be written once its subdirectories are done. -/
theorem Prog.afterBlock (hP : Prog p T d₀ mode val)
    (hdone : ∀ r, T.Enters p d₀ n r → Done p T d₀ mode val (origInum p T d₀ n r)) (k : ℕ) :
    Prog p T d₀ mode (afterBlock p T d₀ mode n k val) := by
  refine ⟨fun m hm r hr => ?_, fun hmode m hm r hent htarget => ?_⟩
  · by_cases hmn : m = n
    · subst hmn
      rw [afterBlock_self]
      split
      · exact Or.inr rfl
      · exact hP.meets m hm r hr
    · rw [afterBlock_of_ne hmn]
      exact hP.meets m hm r hr
  · refine Done.advances ?_ (afterBlock_advances k)
    by_cases hmn : m = n
    · subst hmn
      exact hdone r hent
    · rw [afterBlock_of_ne hmn] at htarget
      exact hP.behind hmode m hm r hent htarget

/-- The directory is done when its subdirectories are and its records are. -/
theorem done_of_records (hdone : ∀ r, T.Enters p d₀ n r →
    Done p T d₀ mode val (origInum p T d₀ n r))
    (hrecords : ∀ r ∈ T.live p d₀ n, val n r = mode.target p (origInum p T d₀ n r)) :
    Done p T d₀ mode val n := by
  intro m hm
  rcases Relation.ReflTransGen.cases_head hm with rfl | ⟨c, ⟨r, hent, rfl⟩, hreach⟩
  · exact hrecords
  · exact hdone r hent m hreach

theorem mem_dirs_of_reach {m : ℕ} (hn : n ∈ T.dirs)
    (h : Relation.ReflTransGen (T.IsSub p d₀) n m) : m ∈ T.dirs := by
  rcases Relation.ReflTransGen.cases_tail h with rfl | ⟨c, -, r, hent, rfl⟩
  · exact hn
  · exact hent.2.1

theorem writeBlocks_noWrite {I : Device → Prop} {Q : Except Stop Unit → Device → Prop} (buf : Mem)
    (blocks : List ℕ) : ∀ off, I d → Q (.ok ()) d →
      Crash I (writeBlocks p true buf off blocks) d Q := by
  induction blocks with
  | nil => exact fun off hI hQ => Crash.pure hI hQ
  | cons b rest ih =>
      intro off hI hQ
      unfold writeBlocks writeBlock
      apply Crash.bind_returns (P := fun _ d' => d' = d) (Crash.pure hI ⟨(), rfl, rfl⟩)
      rintro _ d' rfl
      exact ih _ hI hQ

variable (hI : FixupImage p T d₀) (hS : SameNav p T d₀ d₁)

include hI hS

/-- The new contents of the directory go out block by block. -/
theorem writeBlocks_spec (hn : n ∈ T.dirs) (rest : List ℕ) :
    ∀ k val d, (T.blocks n).drop k = rest → Holds p T d₀ d₁ val d → Prog p T d₀ mode val →
      (∀ r, T.Enters p d₀ n r → Done p T d₀ mode val (origInum p T d₀ n r)) →
      Crash (Progress p T d₀ d₁ mode (T.depth n + 1) val fun _ => True)
        (writeBlocks p false (T.renum p d₀ (fun r => mode.target p (origInum p T d₀ n r)) n)
          (k * p.info.blockSize) rest) d
        (Returns fun _ => Progress p T d₀ d₁ mode (T.depth n + 1) val fun v =>
          ∀ r ∈ T.live p d₀ n, k ≤ r / p.info.blockSize →
            v n r = mode.target p (origInum p T d₀ n r)) := by
  induction rest with
  | nil =>
      intro k val d hdrop hH hP hdone
      refine Crash.pure (.of hH hP trivial) ⟨(), rfl, .of hH hP fun r hr hk => ?_⟩
      -- no record lies behind the last block
      have hlen : (T.blocks n).length ≤ k := List.drop_eq_nil_iff.mp hdrop
      have hblock := hI.dirImage.live_block_lt hn hr
      omega
  | cons b rest ih =>
      intro k val d hdrop hH hP hdone
      obtain ⟨hk, rfl, hrest⟩ := exists_getElem_of_drop_cons hdrop
      have hsize : d.size = d₀.size := hH.size.trans hS.size
      obtain ⟨hoff, hseek⟩ := hI.dirImage.seek_block hn hk
      have hH' := hH.write_block hI hS.size hn hk fun r => mode.target p (origInum p T d₀ n r)
      have hP' := hP.afterBlock hdone k
      have hadv : Advances p T d₀ mode (T.depth n + 1) val (afterBlock p T d₀ mode n k val) :=
        afterBlock_advances k
      unfold writeBlocks writeBlock
      simp only [if_neg (show ¬ (false = true) by simp), hoff, if_pos hseek]
      apply Crash.bind_returns (P := fun _ d' => Holds p T d₀ d₁ (afterBlock p T d₀ mode n k val) d')
      · exact Crash.write (.of hH hP trivial) ⟨_, hH', hP', hadv, trivial⟩ ⟨(), rfl, hH'⟩
      · rintro _ d' hd'
        have hnext : k * p.info.blockSize + p.info.blockSize = (k + 1) * p.info.blockSize := by ring
        rw [hnext]
        refine (ih (k + 1) _ d' hrest hd' hP' fun r hent => (hdone r hent).advances hadv).mono ?_ ?_
        · intro d'' h
          exact h.after hadv le_rfl fun _ _ _ => trivial
        · rintro _ d'' ⟨_, rfl, h⟩
          refine ⟨(), rfl, h.after hadv le_rfl fun v hv hlater r hr hkr => ?_⟩
          rcases Nat.eq_or_lt_of_le hkr with heq | hlt
          · apply hv.keeps
            rw [afterBlock_self, if_pos heq.symm]
          · exact hlater r hr hlt

/-- `recurse_dir` on a directory of the image. -/
theorem recurseDir_spec (fuel : ℕ) : Recurses p T d₀ d₁ mode fuel (recurseDir p mode fuel) := by
  induction fuel with
  | zero => exact fun n _ hdepth => absurd hdepth (Nat.not_lt_zero _)
  | succ fuel ih =>
      intro n hn hdepth inode inode₀ val d hread hsame hH hP
      obtain ⟨inode₁, hread₁, hdir⟩ := hI.inode n hn
      rw [hread] at hread₁
      cases hread₁
      have hpos := hI.blockSize_pos
      have hmod : T.size p n % p.info.blockSize = 0 := Nat.mul_mod_right _ _
      have hdiv : T.size p n / p.info.blockSize = (T.blocks n).length :=
        Nat.mul_div_cancel_left _ hpos
      have hrec : Recurses p T d₀ d₁ mode (T.depth n) (recurseDir p mode fuel) :=
        fun m hm hlt => ih m hm (by omega)
      have htiles := hI.tiles n hn
      have hlength := htiles.length_le
      unfold recurseDir
      rw [if_neg (not_not.mpr hmod), hdiv]
      apply Crash.query_bind (hH.blockList hI hS hn hread hdir hsame fuel)
      refine Crash.query_bind (g := fun d => readBlocks p d (T.blocks n)) (hH.readBlocks hI hS hn) ?_
      rw [if_neg (not_le.mpr hdir.size_lt : ¬ 2 ^ 31 ≤ T.size p n)]
      have hW : WalkAt p T d₀ mode n (T.records n) val (val n) :=
        ⟨List.suffix_rfl, fun _ _ _ => rfl, fun r hr hmem => absurd (live_subset hr) hmem,
          fun r hent hmem => absurd (live_subset hent.1) hmem⟩
      have hwalk := walk_spec hI hS hn hrec (T.records n) (T.size p n + 1) 0 none val (val n) d
        (by omega) htiles hW hH hP
      apply Crash.bind_returns (hwalk.mono (fun d' h => h.after Advances.refl (Nat.le_succ _)
        fun _ _ _ => trivial) fun _ _ h => h)
      rintro buf d' ⟨rfl, val', hH', hP', hadv, hdone⟩
      have hadv' := hadv.mono (Nat.le_succ (T.depth n))
      by_cases hmode : mode = .sanityCheckPass
      · -- the sanity check writes nothing, and there was nothing to change
        subst hmode
        have hend : Progress p T d₀ d₁ .sanityCheckPass (T.depth n + 1) val
            (fun v => Done p T d₀ .sanityCheckPass v n) d' := by
          refine ⟨val', hH', hP', hadv', fun m hm r hr => ?_⟩
          rcases hP'.meets m (mem_dirs_of_reach hn hm) r hr with h | h <;> exact h
        exact writeBlocks_noWrite _ _ _ ⟨val', hH', hP', hadv', trivial⟩ ⟨(), rfl, hend⟩
      · rw [decide_eq_false hmode]
        have hwrite := writeBlocks_spec hI hS hn (T.blocks n) 0 val' d' rfl hH' hP' hdone
        rw [Nat.zero_mul] at hwrite
        refine hwrite.mono ?_ ?_
        · intro d'' h
          exact h.after hadv' le_rfl fun _ _ _ => trivial
        · rintro _ d'' ⟨_, rfl, h⟩
          refine ⟨(), rfl, h.after hadv' le_rfl fun v hv hrecords => ?_⟩
          exact done_of_records (fun r hent => (hdone r hent).advances hv)
            fun r hr => hrecords r hr (Nat.zero_le _)

/-- A pass over the whole tree, which may find what an earlier run of it has left. -/
theorem pass_spec {fuel : ℕ} {root root₀ : Mem} (hfuel : T.depth EXT4_ROOT_INO < fuel)
    (hread : readInode p EXT4_ROOT_INO d₀ = .ok root₀)
    (hsame : root.SameOn root₀ 0 DirTree.inodeBytes) (hH : Holds p T d₀ d₁ val d)
    (hP : Prog p T d₀ mode val) :
    Crash (fun d' => ∃ val', Holds p T d₀ d₁ val' d' ∧ Prog p T d₀ mode val')
      (recurseDir p mode fuel root (dirSize root)) d
      (Returns fun _ => Holds p T d₀ d₁ fun n r => mode.target p (origInum p T d₀ n r)) := by
  rw [(hI.dirImage.dirSize_eq hI.root_mem hread hsame).1]
  refine (recurseDir_spec hI hS fuel _ hI.root_mem hfuel root root₀ val d hread hsame hH hP).mono
    ?_ ?_
  · rintro d' ⟨val', hH', hP', -⟩
    exact ⟨val', hH', hP'⟩
  · rintro _ d' ⟨_, rfl, val', hH', -, -, hdone⟩
    exact ⟨(), rfl, hH'.congr fun n hn r hr => hdone n (hI.reachable n hn) r hr⟩

end WriteBack

/-! ## The sanity check does not write -/

section ReadOnly

variable {p : Fixup}

theorem visitEntry_readOnly {mode : Mode} {recurseDir : Mem → ℕ → DevM Stop Unit}
    (hrec : ∀ inode size, ReadOnly (recurseDir inode size)) (fileType inum : ℕ)
    (name : List UInt8) : ReadOnly (visitEntry p mode recurseDir fileType name inum) := by
  unfold visitEntry
  refine (ReadOnly.query _).bind fun isDir => ReadOnly.ite ?_ (ReadOnly.pure _)
  refine (ReadOnly.query _).bind fun inode => ReadOnly.ite (ReadOnly.fail _) ?_
  exact ReadOnly.ite (ReadOnly.fail _) (hrec _ _)

theorem walk_readOnly {mode : Mode} {recurseDir : Mem → ℕ → DevM Stop Unit}
    (hrec : ∀ inode size, ReadOnly (recurseDir inode size)) (size fuel : ℕ) :
    ∀ buf o prev, ReadOnly (walk p mode recurseDir size fuel buf o prev) := by
  induction fuel with
  | zero => exact fun _ _ _ => ReadOnly.fail _
  | succ fuel ih =>
      intro buf o prev
      unfold walk
      refine ReadOnly.ite (ReadOnly.pure _) ?_
      split
      · exact ReadOnly.pure _
      · refine ReadOnly.ite (ReadOnly.fail _) (ReadOnly.ite (ReadOnly.pure _) ?_)
        refine ReadOnly.ite (ReadOnly.fail _) ((ReadOnly.query _).bind fun name => ?_)
        exact (visitEntry_readOnly hrec _ _ _).bind fun _ => ih _ _ _

theorem writeBlocks_readOnly (buf : Mem) (blocks : List ℕ) :
    ∀ off, ReadOnly (writeBlocks p true buf off blocks) := by
  induction blocks with
  | nil => exact fun _ => ReadOnly.pure _
  | cons b rest ih => exact fun off => (ReadOnly.pure _).bind fun _ => ih _

theorem recurseDir_readOnly (fuel : ℕ) :
    ∀ inode size, ReadOnly (recurseDir p .sanityCheckPass fuel inode size) := by
  induction fuel with
  | zero => exact fun _ _ => ReadOnly.fail _
  | succ fuel ih =>
      intro inode size
      unfold recurseDir
      refine ReadOnly.ite (ReadOnly.fail _) ((ReadOnly.query _).bind fun blocks => ?_)
      refine (ReadOnly.query _).bind fun buf => ReadOnly.ite (ReadOnly.fail _) ?_
      exact (walk_readOnly ih _ _ _ _ _).bind fun _ => writeBlocks_readOnly _ _ _

end ReadOnly

end SystemExtras.Ext4
