import SystemExtras.Ext4.FixupOverlay

/-!
# The passes in lockstep

A pass over the directories of a device does the same as the pass over the overlay, which
is an image: it enters the same directories, makes the same changes, and writes the same
blocks, under the overlay.

## Strategy

`Bare` says that every directory of the device fits its plan; it is kept by every write of
a pass, since a write replaces one block of one directory (`Bare.write_block`).

* On an entry the two runs take the same decisions (`visitEntry_lockstep`): an idle entry is
  not looked behind on either side, and any other reads the same on both, so that what is
  known of the runs on images says where it leads.
* In the loop over the records both are at the same place until the last record in use is
  behind them.  Then the run on the image finds the end of the directory or a record that
  is not in use, and the other one the end, a zero, or bytes that it adds to the last
  record (`walk_stop`); the overlay hides that (`walk_lockstep`).
* Where anything else is left behind the last record, a pass is only compared as far as it
  comes, and it does not come past there (`TailsFail`).  So it never writes such a directory
  (`Spared`).
* The induction over the depth of the recursion is `recurseDir_lockstep`.
-/

namespace SystemExtras.Ext4

open DevM

/-! ## Overlays on a device -/

/-- The overlay changes the directories of an image as planned, and nothing else. -/
structure Draws (f : Overlay) (plan : ℕ → DirPlan) (p : Fixup) (T : DirTree) (d₀ : Device) :
    Prop where
  rest : ∀ x ∉ T.bytes p, ∀ y, f x y = y
  ofImage : ∀ n ∈ T.dirs, (plan n).Of p T d₀ n
  byte : ∀ n ∈ T.dirs, ∀ j < T.size p n, ∀ y,
    f ((plan n).addr p.info.blockSize j) y = (plan n).byte p.info.blockSize j y

/-- The directories fit their plans. -/
def Bare (plan : ℕ → DirPlan) (p : Fixup) (T : DirTree) (N : ℕ → Prop) (d : Device) : Prop :=
  ∀ n ∈ T.dirs, (plan n).Fits p.info.blockSize N (T.buf p d n)

/-- Directories in which something is left behind the last record are as on `s`. -/
def Spared (plan : ℕ → DirPlan) (p : Fixup) (T : DirTree) (s d : Device) : Prop :=
  ∀ n ∈ T.dirs, (plan n).tail ≠ none → T.buf p d n = T.buf p s n

/-- The overlay is an image in a pass. -/
def PassAt (p : Fixup) (T : DirTree) (d₀ d₁ : Device) (mode : Mode) (d : Device) : Prop :=
  ∃ val, Holds p T d₀ d₁ val d ∧ Prog p T d₀ mode val

/-- Where something is left behind the last record, the pass fails. -/
def TailsFail (f : Overlay) (plan : ℕ → DirPlan) (p : Fixup) (T : DirTree) (d₀ d₁ : Device)
    (mode : Mode) (G : Prop) : Prop :=
  ∀ n ∈ T.dirs, ∀ m, (plan n).tail = some m → G ∧ ∀ d, PassAt p T d₀ d₁ mode (d.overlay f) →
    ∀ recurseDir fuel b prev, b.SameOn m (plan n).stop (T.size p n) →
      ∃ e, (walk p mode recurseDir (T.size p n) (fuel + 1) b (plan n).stop prev).result d = .error e

/-- An overlay that acts on a directory as planned. -/
theorem DirPlan.shows_of_byte {D : DirPlan} {f : Overlay} {p : Fixup} {T : DirTree} {d : Device}
    {n : ℕ} (hblocks : D.blocks = T.blocks n) (hbyte : ∀ j < T.size p n, ∀ y,
      f (D.addr p.info.blockSize j) y = D.byte p.info.blockSize j y) :
    D.Shows p.info.blockSize (T.buf p d n) (T.buf p (d.overlay f) n) := by
  intro j hj
  have hlt : j < p.info.blockSize * (T.blocks n).length := by
    unfold DirPlan.size at hj
    rwa [hblocks] at hj
  rw [← hbyte j hlt]
  unfold DirPlan.addr DirTree.buf dirBuf
  rw [if_pos hlt, if_pos hlt, Device.overlay_bytes, hblocks]

section Draws

variable {f : Overlay} {plan : ℕ → DirPlan} {p : Fixup} {T : DirTree} {d₀ d₁ d : Device}
  {N : ℕ → Prop} {n : ℕ}

variable (hf : Draws f plan p T d₀)

include hf

theorem Draws.bytes_eq {x : ℕ} (hx : x ∉ T.bytes p) : (d.overlay f).bytes x = d.bytes x :=
  hf.rest x hx _

theorem Draws.sameNav (h : SameNav p T d₀ (d.overlay f)) (hI : DirImage p T d₀) :
    SameNav p T d₀ d :=
  ⟨h.size, fun x hx => by
    rw [← h.nav x hx, hf.bytes_eq fun hmem => Set.disjoint_left.mp hI.dirs_nav hmem hx]⟩

theorem Draws.size_eq (hn : n ∈ T.dirs) : (plan n).size p.info.blockSize = T.size p n := by
  unfold DirPlan.size DirTree.size
  rw [(hf.ofImage n hn).blocks]

/-- A directory under the overlay. -/
theorem Draws.shows (hn : n ∈ T.dirs) : (plan n).Shows p.info.blockSize (T.buf p d n)
    (T.buf p (d.overlay f) n) :=
  DirPlan.shows_of_byte (hf.ofImage n hn).blocks (hf.byte n hn)

/-- Writing back one block of a directory. -/
theorem Draws.mirrors (hI : DirImage p T d₀) (hn : n ∈ T.dirs) {k : ℕ}
    (hk : k < (T.blocks n).length) {b b' : Mem} (hb : (plan n).Shows p.info.blockSize b b') :
    Write.Mirrors f
      ⟨(T.blocks n)[k] * p.info.blockSize, p.info.blockSize, fun i => b (k * p.info.blockSize + i)⟩
      ⟨(T.blocks n)[k] * p.info.blockSize, p.info.blockSize,
        fun i => b' (k * p.info.blockSize + i)⟩ := by
  have hpos := hI.blockSize_pos
  refine ⟨rfl, rfl, fun i hi => ?_⟩
  change i < p.info.blockSize at hi
  have hlt : k * p.info.blockSize + i < T.size p n := by
    calc k * p.info.blockSize + i < k * p.info.blockSize + p.info.blockSize :=
          Nat.add_lt_add_left hi _
      _ = p.info.blockSize * (k + 1) := by ring
      _ ≤ T.size p n := Nat.mul_le_mul_left _ hk
  have haddr : (plan n).addr p.info.blockSize (k * p.info.blockSize + i) =
      (T.blocks n)[k] * p.info.blockSize + i := by
    unfold DirPlan.addr
    rw [(hf.ofImage n hn).blocks, Nat.mul_comm k, Nat.mul_add_div hpos, Nat.div_eq_of_lt hi,
      Nat.add_zero, Nat.mul_add_mod, Nat.mod_eq_of_lt hi, List.getD_eq_getElem _ _ hk]
  dsimp only
  rw [hb _ (by rwa [hf.size_eq hn]), ← haddr, hf.byte n hn _ hlt]

omit hf in
/-- A write outside the directories. -/
theorem Bare.apply_rest (h : Bare plan p T N d) {w : Write} (hout : ∀ x ∈ T.bytes p, ¬ w.Covers x) :
    Bare plan p T N (d.apply w) := by
  intro n hn
  rw [buf_apply_rest hout hn]
  exact h n hn

omit hf in
/-- A write of one block of a directory. -/
theorem Bare.write_block (h : Bare plan p T N d) (hI : DirImage p T d₀)
    (hplan : ∀ n ∈ T.dirs, (plan n).Of p T d₀ n) (hn : n ∈ T.dirs) {k : ℕ}
    (hk : k < (T.blocks n).length) {b : Mem} (hb : (plan n).Fits p.info.blockSize N b) :
    Bare plan p T N (d.apply ⟨(T.blocks n)[k] * p.info.blockSize, p.info.blockSize,
      fun i => b (k * p.info.blockSize + i)⟩) := by
  intro m hm
  by_cases hmn : m = n
  · subst hmn
    refine DirPlan.Fits.splice (k := k) ((hplan m hm).lies hI hm) (h m hm) hb fun j => ?_
    rw [Holds.buf_apply hI hm hm hk]
    by_cases hj : j / p.info.blockSize = k
    · rw [if_pos ⟨rfl, hj⟩, if_pos hj, ← hj, Nat.mul_comm, Nat.div_add_mod]
    · rw [if_neg fun hc => hj hc.2, if_neg hj]
  · have hbuf : T.buf p (d.apply ⟨(T.blocks n)[k] * p.info.blockSize, p.info.blockSize,
        fun i => b (k * p.info.blockSize + i)⟩) m = T.buf p d m := by
      funext j
      rw [Holds.buf_apply hI hn hm hk, if_neg fun hc => hmn hc.1]
    rw [hbuf]
    exact h m hm

omit hf in
theorem Spared.apply_rest {s : Device} (h : Spared plan p T s d) {w : Write}
    (hout : ∀ x ∈ T.bytes p, ¬ w.Covers x) : Spared plan p T s (d.apply w) := by
  intro n hn hleft
  rw [buf_apply_rest hout hn]
  exact h n hn hleft

omit hf in
theorem Spared.write_block {s : Device} (h : Spared plan p T s d) (hI : DirImage p T d₀)
    (hn : n ∈ T.dirs) (htail : (plan n).tail = none) {k : ℕ} (hk : k < (T.blocks n).length)
    (b : Mem) : Spared plan p T s (d.apply ⟨(T.blocks n)[k] * p.info.blockSize, p.info.blockSize,
      fun i => b (k * p.info.blockSize + i)⟩) := by
  intro m hm hleft
  have hmn : m ≠ n := by
    rintro rfl
    exact hleft htail
  funext j
  rw [Holds.buf_apply hI hn hm hk, if_neg fun hc => hmn hc.1, h m hm hleft]

end Draws

/-! ## One entry -/

/-- What `recurse_dir` does on every directory, with any inode that says what that of the image
says. -/
def RecursesBoth (f : Overlay) (I B : Device → Prop) (G : Prop) (p : Fixup) (T : DirTree)
    (d₀ : Device) (recurseDir : Mem → ℕ → DevM Stop Unit) : Prop :=
  ∀ n ∈ T.dirs, ∀ inode inode' inode₀ d, readInode p n d₀ = .ok inode₀ →
    inode.SameOn inode₀ 0 DirTree.inodeBytes → inode'.SameOn inode₀ 0 DirTree.inodeBytes →
    Lockstep f I B G (recurseDir inode (T.size p n)) (recurseDir inode' (T.size p n))
      (fun _ _ => True) d

section Entry

variable {f : Overlay} {plan : ℕ → DirPlan} {p : Fixup} {T : DirTree} {d₀ d₁ d : Device}
  {N : ℕ → Prop} {B : Device → Prop} {G : Prop} {mode : Mode} {n r v x : ℕ} {b b' : Mem}

variable (hI : FixupImage p T d₀) (hS : SameNav p T d₀ d₁) (hf : Draws f plan p T d₀)
  (hn : n ∈ T.dirs)

include hI hS hf

/-- Both find the same in an inode. -/
theorem readInode_both (hpass : PassAt p T d₀ d₁ mode (d.overlay f)) (hv : T.Refers p d₀ v)
    {inode₀ : Mem} (hread : readInode p v d₀ = .ok inode₀) :
    (∃ inode, readInode p v d = .ok inode ∧ inode.SameOn inode₀ 0 DirTree.inodeBytes) ∧
      ∃ inode', readInode p v (d.overlay f) = .ok inode' ∧
        inode'.SameOn inode₀ 0 DirTree.inodeBytes := by
  obtain ⟨val, hH, -⟩ := hpass
  have hnav := hH.sameNav hI hS
  exact ⟨(hf.sameNav hnav hI).readInode hv hread, hnav.readInode hv hread⟩

include hn

/-- Both look behind the same entries. -/
theorem visitEntry_same {recurseDir : Mem → ℕ → DevM Stop Unit}
    (hrec : RecursesBoth f (PassAt p T d₀ d₁ mode) B G p T d₀ recurseDir) (hr : r ∈ T.live p d₀ n)
    (hx : x = mode.start (origInum p T d₀ n r) ∨ x = mode.target p (origInum p T d₀ n r))
    (fileType : ℕ) (name : List UInt8) : Lockstep f (PassAt p T d₀ d₁ mode) B G
      (visitEntry p mode recurseDir fileType name x)
      (visitEntry p mode recurseDir fileType name x) (fun _ _ => True) d := by
  obtain ⟨inode₀, hread₀, -, hsub⟩ := (hI.entry n hn r hr).inode
  have hentry := hI.entry n hn r hr
  have hrefers := refers_of_live (p := p) (T := T) hn hr
  have hlow : (mode = .updateInodeNums → Marked x) → x &&& 0x7fffffff = origInum p T d₀ n r := by
    intro hmark
    rcases meets_cases hx hentry.inum_lt hentry.newInum_lt with ⟨hmode, hnot, -⟩ | ⟨hlow, -⟩
    · exact absurd (hmark hmode) hnot
    · exact hlow
  unfold visitEntry
  refine Lockstep.query_bind fun _ hpass isDir' hisDir' => ⟨isDir', ?_, ?_⟩
  · -- the type says it, or the inode does
    rw [← hisDir']
    unfold isEntryDir
    by_cases hdir : fileType = EXT4_FT_DIR
    · rw [if_pos hdir, if_pos hdir]
    rw [if_neg hdir, if_neg hdir]
    by_cases hunknown : fileType = EXT4_FT_UNKNOWN
    · rw [if_pos hunknown, if_pos hunknown]
      by_cases hreplaced : mode = .updateInodeNums ∧ ¬ Marked x
      · rw [if_pos hreplaced, if_pos hreplaced]
      · rw [if_neg hreplaced, if_neg hreplaced,
          hlow fun hm => not_not.mp fun h => hreplaced ⟨hm, h⟩]
        obtain ⟨⟨inode, hread, hsame⟩, inode', hread', hsame'⟩ :=
          readInode_both hI hS hf hpass hrefers hread₀
        rw [show readInode p (origInum p T d₀ n r) d = .ok inode from hread, hread', bind_ok,
          bind_ok, isDirInode_congr hsame, isDirInode_congr hsame']
    · rw [if_neg hunknown, if_neg hunknown]
  · by_cases henter : isDir' = true ∧ name ≠ [46] ∧ name ≠ [46, 46] ∧
        (mode = .updateInodeNums → Marked x)
    · rw [if_pos henter, hlow henter.2.2.2]
      refine Lockstep.query_bind fun _ hpass inode' hread' => ?_
      obtain ⟨⟨inode, hread, hsame⟩, inode'', hread'', hsame'⟩ :=
        readInode_both hI hS hf hpass hrefers hread₀
      obtain rfl : inode'' = inode' := by
        rw [hread'] at hread''
        exact (Except.ok.inj hread'').symm
      refine ⟨inode, hread, ?_⟩
      rw [isDirInode_congr hsame, isDirInode_congr hsame']
      by_cases hdir : isDirInode inode₀ = true
      · obtain ⟨hsize, hlt⟩ := hI.dirImage.dirSize_eq (hsub hdir).1 hread₀ hsame
        obtain ⟨hsize', hlt'⟩ := hI.dirImage.dirSize_eq (hsub hdir).1 hread₀ hsame'
        rw [if_neg (by simp [hdir]), if_neg (not_le.mpr hlt), if_neg (by simp [hdir]),
          if_neg (not_le.mpr hlt'), hsize, hsize']
        exact hrec _ (hsub hdir).1 inode inode'' inode₀ _ hread₀ hsame hsame'
      · rw [if_pos (by simpa using hdir), if_pos (by simpa using hdir)]
        exact Lockstep.fail
    · rw [if_neg henter]
      exact Lockstep.pure trivial

end Entry

/-! ## The records of a directory -/

/-- The loop has the last record in use behind it. -/
def BehindLast (D : DirPlan) (b : Mem) (o : ℕ) (prev : Option ℕ) : Prop :=
  (∃ q, D.live.max? = some q ∧ prev = some q ∧ o = q + recLength b q) ∨
    D.live = [] ∧ prev = none ∧ o = 0

section Walk

variable {f : Overlay} {plan : ℕ → DirPlan} {p : Fixup} {T : DirTree} {d₀ d₁ d : Device}
  {N : ℕ → Prop} {B : Device → Prop} {G : Prop} {mode : Mode} {n r : ℕ} {b : Mem} {D : DirPlan}

/-- A directory of which less than nine bytes are left behind the last record ends with the block of
this record. -/
theorem DirPlan.Of.size_sub_lt (hI : FixupImage p T d₀) (hn : n ∈ T.dirs) (hD : D.Of p T d₀ n)
    {q : ℕ} (hq : D.live.max? = some q) (hle : D.size p.info.blockSize ≤ D.stop + 8) :
    D.size p.info.blockSize - q < 2 ^ 16 := by
  have hmem := (List.max?_eq_some_iff.mp hq).1
  have hL := hD.lies hI.dirImage hn
  obtain ⟨hok, -⟩ := hL.record hmem
  have hmin := hok.minLength
  have hin := hok.inBlock
  have hbs : p.info.blockSize ≤ 4096 := hI.blockSize_le
  have hstop := hD.stop_le
  rw [DirPlan.Lies.fill_of_max hq] at hstop
  have hdiv := Nat.div_add_mod q p.info.blockSize
  have hblocks : D.blocks.length ≤ q / p.info.blockSize + 1 := by
    by_contra hlt
    have := Nat.mul_le_mul_left p.info.blockSize (not_le.mp hlt)
    rw [Nat.mul_succ, Nat.mul_comm p.info.blockSize (_ + 1)] at this
    unfold DirPlan.size at hle
    omega
  have hsize : D.size p.info.blockSize ≤ p.info.blockSize * (q / p.info.blockSize + 1) :=
    Nat.mul_le_mul_left _ hblocks
  rw [Nat.mul_add, Nat.mul_one] at hsize
  omega

/-- Behind the last record in use the loop ends: at the end of the directory, at a zero, or by
adding what is left to this record. -/
theorem walk_stop (hI : FixupImage p T d₀) (hn : n ∈ T.dirs) (hD : D.Of p T d₀ n)
    (hfits : D.Fits p.info.blockSize N b) (htail : D.tail = none) {o : ℕ} {prev : Option ℕ}
    (ho : BehindLast D b o prev)
    (mode : Mode) (recurseDir : Mem → ℕ → DevM Stop Unit) (fuel : ℕ) (d : Device) :
    ∃ c, walk p mode recurseDir (D.size p.info.blockSize) (fuel + 1) b o prev d = (.ok c, []) ∧
      D.Fits p.info.blockSize N c ∧
      ∀ b', D.Shows p.info.blockSize b b' → D.Shows p.info.blockSize c b' := by
  by_cases hend : D.size p.info.blockSize ≤ o
  · refine ⟨b, ?_, hfits, fun _ h => h⟩
    unfold walk
    rw [if_pos hend]
    rfl
  -- the loop stands where the last record ended at first
  have hstop : o = D.stop := by
    rcases ho with ⟨q, hq, -, rfl⟩ | ⟨hnil, -, rfl⟩
    · rcases hfits.last q hq with h | ⟨-, h⟩
      · exact h
      · omega
    · have := hD.stop_le
      unfold DirPlan.fill at this
      rw [hnil] at this
      exact (Nat.le_zero.mp this).symm
  obtain ⟨hroom, hzero⟩ : o + 4 ≤ D.size p.info.blockSize ∧ recInum b o = 0 := by
    rcases hfits.stop htail with h | ⟨h₁, h₂⟩
    · omega
    · rw [hstop]
      refine ⟨h₁, ?_⟩
      have hload : recInum b D.stop = 0 % 256 ^ 4 := by
        apply Mem.load_eq_of_bytes
        intro i hi
        rw [Nat.zero_div]
        exact h₂ i hi
      rw [hload, Nat.zero_mod]
  by_cases hpad : prev ≠ none ∧ mode ≠ .markInodeNums ∧ D.size p.info.blockSize - o ≤ 8
  · obtain ⟨hprev, hshort⟩ := hpad
    rcases ho with ⟨q, hq, rfl, ho⟩ | ⟨-, h, -⟩
    · have hlen : recLength b q + (D.size p.info.blockSize - o) = D.size p.info.blockSize - q := by
        omega
      have hmem := (List.max?_eq_some_iff.mp hq).1
      have hL := hD.lies hI.dirImage hn
      have hfill := hL.le_fill hmem
      have hmin := (hL.record hmem).1.minLength
      refine ⟨_, ?_, hfits.set_recLen hL htail hq
        (hD.size_sub_lt hI hn hq (by omega)), fun b' hb => hb.set_recLen hq (by omega) _⟩
      rw [walk_pad (not_le.mp hend) hshort.1 hshort.2, hlen]
      rfl
    · exact absurd h hprev
  · refine ⟨b, ?_, hfits, fun _ h => h⟩
    rw [walk_zero hroom hzero hpad]
    rfl

/-- The same loop where something else is left there. -/
theorem walk_tail (hn : n ∈ T.dirs) (hsize : (plan n).size p.info.blockSize = T.size p n)
    (htails : TailsFail f plan p T d₀ d₁ mode G) {m : Mem} (htail : (plan n).tail = some m)
    (hD : (plan n).Of p T d₀ n) (hfits : (plan n).Fits p.info.blockSize N b) {o : ℕ}
    {prev : Option ℕ} (ho : BehindLast (plan n) b o prev) (recurseDir : Mem → ℕ → DevM Stop Unit)
    (fuel : ℕ) (hpass : PassAt p T d₀ d₁ mode (d.overlay f)) :
    ∃ e, (walk p mode recurseDir (T.size p n) (fuel + 1) b o prev).result d = .error e := by
  obtain ⟨-, hfail⟩ := htails n hn m htail
  have hstop : o = (plan n).stop := by
    rcases ho with ⟨q, hq, -, rfl⟩ | ⟨hnil, -, rfl⟩
    · rcases hfits.last q hq with h | ⟨hnone, -⟩
      · exact h
      · rw [htail] at hnone
        cases hnone
    · have := hD.stop_le
      unfold DirPlan.fill at this
      rw [hnil] at this
      exact (Nat.le_zero.mp this).symm
  rw [hstop]
  exact hfail d hpass recurseDir fuel b prev (hsize ▸ (hfits.tail m htail).2)

variable (hI : FixupImage p T d₀) (hS : SameNav p T d₀ d₁) (hf : Draws f plan p T d₀)
  (hroot : p.newInum EXT4_ROOT_INO = EXT4_ROOT_INO) (hn : n ∈ T.dirs)

include hI hn

/-- The records in use up to `r`, nothing in use being behind it. -/
theorem max_of_dead_rest {rest : List ℕ} (hlive : r ∈ T.live p d₀ n)
    (hsuffix : r :: rest <:+ T.records n) (hdead : ∀ q ∈ rest, q ∉ T.live p d₀ n) :
    (T.live p d₀ n).max? = some r := by
  refine List.max?_eq_some_iff.mpr ⟨hlive, fun q hq => ?_⟩
  obtain ⟨front, hfront⟩ := hsuffix
  have hpair := (hI.tiles n hn).pairwise
  rw [← hfront, List.pairwise_append] at hpair
  have hmem := live_subset hq
  rw [← hfront, List.mem_append, List.mem_cons] at hmem
  rcases hmem with hmem | rfl | hmem
  · exact (Nat.le_add_right _ _).trans (hpair.2.2 q hmem r List.mem_cons_self)
  · exact le_rfl
  · exact absurd hq (hdead q hmem)

/-- The records behind one that is not in use are not in use. -/
theorem dead_rest {rest : List ℕ} (hdead : r ∉ T.live p d₀ n)
    (hsuffix : r :: rest <:+ T.records n) :
    ∀ q ∈ r :: rest, q ∉ T.live p d₀ n := by
  intro q hmem hq
  rcases List.mem_cons.mp hmem with rfl | hmem
  · exact hdead hq
  have hpair := (hI.live_first n hn).sublist hsuffix.sublist
  have hzero : recInum (T.buf p d₀ n) r = 0 := by
    by_contra h
    exact hdead (mem_live.mpr ⟨hsuffix.subset List.mem_cons_self, h⟩)
  exact recInum_ne_zero_of_live hq ((List.pairwise_cons.mp hpair).1 q hmem hzero)

include hS hf hroot

omit hI hS hf hroot hn in
/-- What the overlay shows of a record is in use as well. -/
theorem shown_ne_zero (hfits : (plan n).Fits p.info.blockSize (NumOk p mode) b)
    (h : (plan n).shown r (recInum b r) ≠ 0) : recInum b r ≠ 0 := by
  unfold DirPlan.shown at h
  split at h
  · rename_i hidle
    intro hzero
    have := (hfits.num r hidle).1
    rw [hzero] at this
    exact this (Nat.zero_and _)
  · exact h

omit hI hS hf hroot hn in
/-- The name of a record in use lies inside the directory. -/
theorem entryName_fits {bs : ℕ} {b' m : Mem} (hL : D.Lies bs m) (hr : r ∈ D.live)
    (hfits : D.Fits bs N b) (hshows : D.Shows bs b b')
    (hroom : DirEntry.nameOffset + (DirEntry.nameLen.at_ r).get b' ≤ recLength m r) :
    entryName b (D.size bs) r = .ok (recName b r) := by
  apply entryName_of_fits
  by_cases hidle : r ∈ D.idle
  · have hin := (hfits.idle r hidle).inBlock
    have hend := hL.block_end_le hr
    have hdiv := Nat.div_add_mod r bs
    rw [Nat.add_mul, Nat.one_mul, Nat.mul_comm] at hend
    omega
  · have hle := (hL.record hr).2
    rw [← hshows.nameLen hL hr hidle]
    omega

omit hroot in
/-- Both do the same with a record. -/
theorem visitEntry_lockstep {recurseDir : Mem → ℕ → DevM Stop Unit}
    (hrec : RecursesBoth f (PassAt p T d₀ d₁ mode) B G p T d₀ recurseDir) (hr : r ∈ T.live p d₀ n)
    {b' : Mem} (hfits : (plan n).Fits p.info.blockSize (NumOk p mode) b)
    (hshows : (plan n).Shows p.info.blockSize b b')
    (hroom : DirEntry.nameOffset + (DirEntry.nameLen.at_ r).get b' ≤ recLength (T.buf p d₀ n) r)
    (hmeets : recInum b' r = mode.start (origInum p T d₀ n r) ∨
      recInum b' r = mode.target p (origInum p T d₀ n r)) :
    Lockstep f (PassAt p T d₀ d₁ mode) B G
      (visitEntry p mode recurseDir (recFileType b r) (recName b r) (recInum b r))
      (visitEntry p mode recurseDir (recFileType b' r) (recName b' r) (recInum b' r))
      (fun _ _ => True) d := by
  have hD := hf.ofImage n hn
  have hL := hD.lies hI.dirImage hn
  have hrD : r ∈ (plan n).live := hD.live ▸ hr
  by_cases hidle : r ∈ (plan n).idle
  · have hrec := hfits.idle r hidle
    obtain ⟨htype, -, hname⟩ := hshows.idle_entry hL hidle
    have hshown : IdleEntry (recFileType b' r) (recName b' r) :=
      ⟨by rw [htype]; decide, fun _ => Or.inl hname⟩
    exact Lockstep.of_no_writes (visitEntry_idle hrec.entry) (visitEntry_idle hshown) trivial
  · rw [hshows.recFileType hL hrD hidle, hshows.recName hL hrD hidle hroom,
      hshows.recInum hL hrD hidle]
    rw [hshows.recInum hL hrD hidle] at hmeets
    exact visitEntry_same hI hS hf hn hrec hr hmeets _ _

/-- The loop over the records `rs`, with the last of them in use still ahead or not. -/
theorem walk_lockstep (htails : TailsFail f plan p T d₀ d₁ mode G)
    {recurseDir : Mem → ℕ → DevM Stop Unit}
    (hrec : RecursesBoth f (PassAt p T d₀ d₁ mode) B G p T d₀ recurseDir) (rs : List ℕ) :
    ∀ fuel o o' prev prev' new b d, rs.length < fuel → rs <:+ T.records n →
      Tiles (T.buf p d₀ n) p.info.blockSize (T.size p n) o' rs →
      (∀ r ∈ T.live p d₀ n, r ∈ rs → new r = mode.start (origInum p T d₀ n r) ∨
        new r = mode.target p (origInum p T d₀ n r)) →
      (plan n).Fits p.info.blockSize (NumOk p mode) b →
      (plan n).Shows p.info.blockSize b (T.renum p d₀ new n) →
      ((∃ r ∈ rs, r ∈ T.live p d₀ n) → o = o') →
      ((∀ r ∈ rs, r ∉ T.live p d₀ n) → BehindLast (plan n) b o prev) →
      Lockstep f (PassAt p T d₀ d₁ mode) B G (walk p mode recurseDir (T.size p n) fuel b o prev)
        (walk p mode recurseDir (T.size p n) fuel (T.renum p d₀ new n) o' prev')
        (fun c c' => (plan n).tail = none ∧ (plan n).Fits p.info.blockSize (NumOk p mode) c ∧
          (plan n).Shows p.info.blockSize c c') d := by
  have hD := hf.ofImage n hn
  have hL := hD.lies hI.dirImage hn
  have hsize := hf.size_eq hn
  -- behind the last record in use
  have hlast : ∀ fuel b d o prev c', (plan n).Fits p.info.blockSize (NumOk p mode) b →
      (plan n).Shows p.info.blockSize b c' → BehindLast (plan n) b o prev →
      ∀ x', x' (d.overlay f) = (.ok c', []) → Lockstep f (PassAt p T d₀ d₁ mode) B G
        (walk p mode recurseDir (T.size p n) (fuel + 1) b o prev) x'
        (fun c c' => (plan n).tail = none ∧ (plan n).Fits p.info.blockSize (NumOk p mode) c ∧
          (plan n).Shows p.info.blockSize c c') d := by
    intro fuel b d o prev c' hfits hshows hbehind x' hx'
    cases htail : (plan n).tail with
    | none =>
        obtain ⟨c, hc, hfits', hshows'⟩ := walk_stop hI hn hD hfits htail hbehind mode recurseDir
          fuel d
        rw [hsize] at hc
        exact Lockstep.of_no_writes hc hx' ⟨rfl, hfits', hshows' _ hshows⟩
    | some m =>
        exact Lockstep.of_error (htails n hn m htail).1 fun hpass =>
          walk_tail hn hsize htails htail hD hfits hbehind recurseDir fuel hpass
  induction rs with
  | nil =>
      intro fuel o o' prev prev' new b d hfuel hsuffix htiles hmeets hfits hshows hahead hbehind
      obtain ⟨fuel, rfl⟩ : ∃ k, fuel = k + 1 := ⟨fuel - 1, by omega⟩
      refine hlast fuel b d o prev _ hfits hshows (hbehind (by simp)) _ ?_
      unfold walk
      rw [if_pos (Nat.le_of_eq (Eq.symm htiles))]
      rfl
  | cons r rest ih =>
      rintro fuel o o' prev prev' new b d hfuel hsuffix ⟨rfl, hok, hrest⟩ hmeets hfits hshows hahead
        hbehind
      obtain ⟨fuel, rfl⟩ : ∃ k, fuel = k + 1 := ⟨fuel - 1, by omega⟩
      have hmin := hok.minLength
      have hle := hrest.le
      have hmem : r ∈ T.records n := hsuffix.subset List.mem_cons_self
      by_cases hlive : r ∈ T.live p d₀ n
      · obtain rfl : o = r := hahead ⟨r, List.mem_cons_self, hlive⟩
        have hrD : o ∈ (plan n).live := hD.live ▸ hlive
        have hentry := hI.entry n hn o hlive
        have hmeet := hmeets o hlive List.mem_cons_self
        obtain ⟨hpos, hlt⟩ := meets_bounds hmeet (origInum_pos hlive) hentry.inum_lt
          hentry.newInum_lt
        have hnew : recInum (T.renum p d₀ new n) o = new o := by
          rw [recInum_renum hI hn hlive, u32_of_lt hlt]
        have hshown := hshows.recInum_shown hL hrD
        have hroom : DirEntry.nameOffset + (DirEntry.nameLen.at_ o).get (T.renum p d₀ new n) ≤
            recLength (T.buf p d₀ n) o := by
          rw [nameLen_renum hI hn hmem]
          exact hok.name
        have hne : (DirEntry.inode.at_ o).get b ≠ 0 := shown_ne_zero hfits (by
          rw [← hshown, hnew]
          omega)
        have hne' : (DirEntry.inode.at_ o).get (T.renum p d₀ new n) ≠ 0 := by
          change recInum _ o ≠ 0
          rw [hnew]
          omega
        rw [walk_record (by omega), walk_record (by omega), if_neg hne, if_neg hne']
        have hname := entryName_fits hL hrD hfits hshows hroom
        have hname' : entryName (T.renum p d₀ new n) (T.size p n) o =
            .ok (recName (T.renum p d₀ new n) o) := entryName_of_fits (by omega)
        rw [hsize] at hname
        refine Lockstep.query_bind fun _ _ name' h => ⟨recName b o, hname, ?_⟩
        rw [hname'] at h
        cases h
        refine (visitEntry_lockstep hI hS hf hn hrec hlive hfits hshows hroom
          (by rwa [hnew])).bind ?_
        rintro _ _ - - -
        -- on to the next record
        obtain ⟨hprocess, hnum⟩ := DirPlan.processInum_shown hroot (hfits.num o)
        have hlen : (DirEntry.recLen.at_ o).get (T.renum p d₀ new n) = recLength (T.buf p d₀ n) o :=
          recLength_renum hI hn hmem
        have hbehind_o : ∀ q ∈ rest, q ≠ o := by
          rintro q hq rfl
          have := (hrest.mem q hq).1
          omega
        have hset := hshows.set hL hrD (processInum p mode (recInum b o))
        rw [← hprocess, ← hshown, set_renum hI hn hlive] at hset
        change Lockstep _ _ _ _ (walk _ _ _ _ _
          ((DirEntry.inode.at_ o).set b (processInum p mode (recInum b o))) _ _) (walk _ _ _ _ _
          ((DirEntry.inode.at_ o).set (T.renum p d₀ new n)
            (processInum p mode (recInum (T.renum p d₀ new n) o))) _ _) _ _
        rw [set_renum hI hn hlive]
        refine ih fuel _ _ _ _ _ _ _ (by simpa using hfuel)
          ((List.suffix_cons o rest).trans hsuffix) (hlen ▸ hrest) (fun q hq hmem' => ?_)
          (hfits.set hL hrD hnum (processInum_lt (Field.get_lt _ _))) hset ?_ ?_
        · rw [Function.update_of_ne (hbehind_o q hmem')]
          exact hmeets q hq (List.mem_cons_of_mem _ hmem')
        · rintro ⟨q, hq, hqlive⟩
          have hnot : (plan n).live.max? ≠ some o := by
            intro hmax
            have hle := (List.max?_eq_some_iff.mp hmax).2 q (hD.live ▸ hqlive)
            have := (hrest.mem q hq).1
            omega
          have := hshows.recLength hL hrD hnot
          change o + recLength b o = o + recLength (T.renum p d₀ new n) o
          rw [this]
        · intro hdead
          refine Or.inl ⟨o, hD.live ▸ max_of_dead_rest hI hn hlive hsuffix hdead, rfl, ?_⟩
          change _ = o + (DirEntry.recLen.at_ o).get _
          rw [Field.get_set_of_disjoint]
          unfold Field.Disjoint
          simp only [DirEntry.recLen, DirEntry.inode, Field.at_]
          omega
      · refine hlast fuel b d o prev _ hfits hshows (hbehind (dead_rest hI hn hlive hsuffix)) _ ?_
        rw [walk_record (by omega), if_pos]
        · rfl
        · exact recInum_renum_of_dead hI hn hmem hlive

end Walk

/-! ## One directory and those below it -/

section Recursion

variable {f : Overlay} {plan : ℕ → DirPlan} {p : Fixup} {T : DirTree} {d₀ d₁ d : Device}
  {G : Prop} {mode : Mode} {n : ℕ} {b b' : Mem}

variable (hI : FixupImage p T d₀) (hS : SameNav p T d₀ d₁) (hf : Draws f plan p T d₀)

include hI hf

/-- The blocks of a directory go out one by one on both sides. -/
theorem writeBlocks_lockstep (d₁ s : Device) (hn : n ∈ T.dirs) (htail : (plan n).tail = none)
    (hfits : (plan n).Fits p.info.blockSize (NumOk p mode) b)
    (hshows : (plan n).Shows p.info.blockSize b b') (rest : List ℕ) :
    ∀ k d, (T.blocks n).drop k = rest →
      Lockstep f (PassAt p T d₀ d₁ mode)
        (fun d => Bare plan p T (NumOk p mode) d ∧ Spared plan p T s d) G
        (writeBlocks p false b (k * p.info.blockSize) rest)
        (writeBlocks p false b' (k * p.info.blockSize) rest) (fun _ _ => True) d := by
  induction rest with
  | nil => exact fun k d _ => Lockstep.pure trivial
  | cons c rest ih =>
      intro k d hdrop
      obtain ⟨hk, rfl, hrest⟩ := exists_getElem_of_drop_cons hdrop
      obtain ⟨hoff, hseek⟩ := hI.dirImage.seek_block hn hk
      unfold writeBlocks writeBlock
      simp only [if_neg (show ¬ (false = true) by simp), hoff, if_pos hseek]
      refine (Lockstep.write (hf.mirrors hI hn hk hshows) fun hB =>
        ⟨hB.1.write_block hI hf.ofImage hn hk hfits,
          hB.2.write_block hI.dirImage hn htail hk b⟩).bind ?_
      rintro _ _ - - -
      rw [show k * p.info.blockSize + p.info.blockSize = (k + 1) * p.info.blockSize by ring]
      exact ih (k + 1) _ hrest

include hS

/-- `recurse_dir` does the same on both sides. -/
theorem recurseDir_lockstep (hroot : p.newInum EXT4_ROOT_INO = EXT4_ROOT_INO)
    (htails : TailsFail f plan p T d₀ d₁ mode G) (s : Device) (fuel : ℕ) :
    RecursesBoth f (PassAt p T d₀ d₁ mode)
      (fun d => Bare plan p T (NumOk p mode) d ∧ Spared plan p T s d) G p T d₀
      (recurseDir p mode fuel) := by
  induction fuel with
  | zero => exact fun _ _ _ _ _ _ _ _ _ => Lockstep.fail
  | succ fuel ih =>
      intro n hn inode inode' inode₀ d hread hsame hsame'
      obtain ⟨inode₁, hread₁, hdir⟩ := hI.inode n hn
      rw [hread] at hread₁
      cases hread₁
      have hpos := hI.blockSize_pos
      have hmod : T.size p n % p.info.blockSize = 0 := Nat.mul_mod_right _ _
      have hdiv : T.size p n / p.info.blockSize = (T.blocks n).length :=
        Nat.mul_div_cancel_left _ hpos
      have htiles := hI.tiles n hn
      have hlength := htiles.length_le
      have hD := hf.ofImage n hn
      unfold recurseDir
      rw [if_neg (not_not.mpr hmod), if_neg (not_not.mpr hmod), hdiv]
      refine Lockstep.query_bind fun _ hpass blocks' hblocks' => ⟨T.blocks n, ?_, ?_⟩
      · obtain ⟨_, hH, -⟩ := hpass
        exact (hf.sameNav (hH.sameNav hI hS) hI).blockList hI hn hread hdir hsame fuel
      obtain ⟨val, hH, hP⟩ := hpass
      rw [hH.blockList hI hS hn hread hdir hsame' fuel] at hblocks'
      cases hblocks'
      refine Lockstep.query_bind fun hB _ buf' hbuf' => ⟨T.buf p d n, ?_, ?_⟩
      · have hsize : d.size = d₀.size := (hf.sameNav (hH.sameNav hI hS) hI).size
        exact readBlocks_eq hpos (hsize ▸ hI.size_lt) fun c hc => hsize ▸ hI.blocks_le n hn c hc
      rw [hH.readBlocks hI hS hn] at hbuf'
      cases hbuf'
      rw [if_neg (not_le.mpr hdir.size_lt : ¬ 2 ^ 31 ≤ T.size p n),
        if_neg (not_le.mpr hdir.size_lt : ¬ 2 ^ 31 ≤ T.size p n)]
      have hshows := hf.shows (d := d) hn
      rw [hH.buf n hn] at hshows
      refine (walk_lockstep hI hS hf hroot hn htails ih (T.records n) (T.size p n + 1) 0 0 none
        none (val n) (T.buf p d n) d (by omega) List.suffix_rfl htiles
        (fun r hr _ => hP.meets n hn r hr) (hB.1 n hn) hshows (fun _ => rfl) fun hdead => ?_).bind ?_
      · -- a directory without records in use
        refine Or.inr ⟨?_, rfl, rfl⟩
        rw [hD.live]
        exact List.eq_nil_iff_forall_not_mem.mpr fun r hr => hdead r (live_subset hr) hr
      · rintro c c' - - ⟨htail, hfits, hshows⟩
        by_cases hmode : mode = .sanityCheckPass
        · rw [decide_eq_true hmode]
          exact Lockstep.of_no_writes (writeBlocks_true _ _ _) (writeBlocks_true _ _ _) trivial
        · rw [decide_eq_false hmode]
          have hwrite := fun d => writeBlocks_lockstep (G := G) hI hf d₁ s hn htail hfits hshows
            (T.blocks n) 0 d
          rw [Nat.zero_mul] at hwrite
          exact hwrite _ rfl

end Recursion

end SystemExtras.Ext4
