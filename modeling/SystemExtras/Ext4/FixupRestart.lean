import SystemExtras.Ext4.FixupStages

/-!
# Interrupted runs up to the last pass

A run may be cut off after any of its writes, and the next run starts on what is
there.  As long as the state word has not become `MAGIC_STATE_UPDATING_SB`, such a
sequence of runs stays within the stages on directories (`Interrupted.spec`), and
when it becomes that, the directories are the same whatever the interruptions were
(`dirs_survive_interruptions`).
-/

namespace SystemExtras.Ext4

open DevM

/-! ## One run -/

section Run

variable {p : Fixup} {d : Device} {fuel : ℕ} {root : Mem}

/-- A run, once its parameters and the root are read. -/
theorem internal_eq (hp : readExt d = .ok p) (hroot : readInode p EXT4_ROOT_INO d = .ok root)
    (hdir : isDirInode root = true) :
    ext4fixupInternal fuel d =
      (do
        directoryStages p fuel root
        superblockStage p) d := by
  unfold ext4fixupInternal
  rw [bind_of_eq (x := DevM.query readExt) (Prod.ext hp rfl),
    bind_of_eq (x := DevM.query (readInode p EXT4_ROOT_INO)) (Prod.ext hroot rfl),
    if_neg (by simp [hdir])]

/-- A prefix of the writes of a run ends in the stages on directories or comes after them. -/
theorem prefix_cases (hp : readExt d = .ok p) (hroot : readInode p EXT4_ROOT_INO d = .ok root)
    (hdir : isDirInode root = true) (hret : (directoryStages p fuel root).result d = .ok ())
    {ws : List Write} (hws : ws <+: (ext4fixupInternal fuel).writes d) :
    ws <+: (directoryStages p fuel root).writes d ∨
      (directoryStages p fuel root).writes d <+: ws := by
  unfold DevM.writes at hws
  rw [internal_eq hp hroot hdir] at hws
  have hws : ws <+: (directoryStages p fuel root >>= fun _ => superblockStage p).writes d := hws
  rw [(bind_of_ok hret).2] at hws
  exact List.prefix_or_prefix_of_prefix hws (List.prefix_append _ _)

end Run

/-! ## Sequences of runs -/

/-- The state word is `MAGIC_STATE_UPDATING_SB`. -/
def InUpdatingSb (d : Device) : Prop := getFsFixupState d = .ok .updatingSb

/-- The devices that runs starting on `d₀` leave when each is cut off before the write of
`MAGIC_STATE_UPDATING_SB`. -/
inductive Interrupted (fuel : ℕ) (d₀ : Device) : Device → Prop
  | start : Interrupted fuel d₀ d₀
  | cut {d : Device} {ws : List Write} : Interrupted fuel d₀ d →
      ws <+: (ext4fixupInternal fuel).writes d →
      (∀ vs, vs <+: ws → ¬ InUpdatingSb (d.applyAll vs)) → Interrupted fuel d₀ (d.applyAll ws)

/-- On `d`, the writes `ws` are those of a run up to where the state word becomes
`MAGIC_STATE_UPDATING_SB`. -/
structure Becomes (fuel : ℕ) (d : Device) (ws : List Write) : Prop where
  run : ws <+: (ext4fixupInternal fuel).writes d
  now : InUpdatingSb (d.applyAll ws)
  before : ∀ vs, vs <+: ws → vs ≠ ws → ¬ InUpdatingSb (d.applyAll vs)

section Interrupted

variable {p : Fixup} {T : DirTree} {d₀ d : Device} {fuel : ℕ} {ws : List Write}

/-- What a run may find: the untouched image, or a pass that was cut off. -/
def Resumable (p : Fixup) (T : DirTree) (d₀ d : Device) : Prop :=
  d = d₀ ∨ TrialPasses p d₀ ∧ (InPass p T d₀ .markInodeNums False d ∨
    InPass p T d₀ .updateInodeNums False d)

variable (hI : FixupImage p T d₀) (hunset : getFsFixupState d₀ = .ok .unset)
  (hfuel : T.depth EXT4_ROOT_INO < fuel)

include hI hunset hfuel

/-- The stages of a run on a device that may be found. -/
theorem Resumable.stages (h : Resumable p T d₀ d) : ∃ root root₀, readExt d = .ok p ∧
    readInode p EXT4_ROOT_INO d = .ok root ∧ isDirInode root = true ∧
    readInode p EXT4_ROOT_INO d₀ = .ok root₀ ∧ root.SameOn root₀ 0 DirTree.inodeBytes ∧
    (Stops (fun _ => True) (directoryStages p fuel root) d ∧ ¬ TrialPasses p d₀ ∨
      TrialPasses p d₀ ∧ Crash (fun d' => d' = d₀ ∨ InDirs p T d₀ False d')
        (directoryStages p fuel root) d (Returns fun _ => DirsDone p T d₀ False)) := by
  obtain ⟨root₀, hread, hdir⟩ := hI.inode _ hI.root_mem
  rcases h with rfl | ⟨htrial, h⟩
  · refine ⟨root₀, root₀, hI.readExt, hread, hdir.isDir, hread, fun _ _ _ => rfl, ?_⟩
    by_cases htrial : TrialPasses p d
    · refine Or.inr ⟨htrial, (directoryStages_of_trial hI hfuel hread hunset htrial).mono ?_ ?_⟩
      · rintro d' (rfl | h | h)
        · exact Or.inl rfl
        · exact Or.inr (Or.inl (h.inPass hI False.elim))
        · refine Or.inr (h.imp ?_ (Or.imp ?_ ?_))
          · exact fun h => h.mono False.elim
          · exact fun h => h.mono False.elim
          · exact fun h => h.mono False.elim
      · rintro _ d' ⟨_, rfl, h⟩
        exact ⟨(), rfl, h.mono False.elim⟩
    · exact Or.inl ⟨directoryStages_stops_of_trial hI hfuel hread hunset htrial, htrial⟩
  · have hin : InDirs p T d₀ False d := h.elim Or.inl fun h => Or.inr (Or.inl h)
    obtain ⟨mode, d₁, val, hR, -, hH, -⟩ : ∃ mode, InPass p T d₀ mode False d :=
      h.elim (fun h => ⟨_, h⟩) fun h => ⟨_, h⟩
    have hS := hR.sameNav hI
    obtain ⟨root, hroot, hsame⟩ := hH.readInode hI hS (Or.inl hI.root_mem) hread
    refine ⟨root, root₀, hR.readExt hI hH, hroot, ?_, hread, hsame, Or.inr ⟨htrial, ?_⟩⟩
    · rw [isDirInode_congr hsame, hdir.isDir]
    · exact (directoryStages_of_inDirs hI hfuel hread hsame hin).mono (fun _ h => Or.inr h)
        fun _ _ h => h

/-- Interruptions leave something that can be taken up. -/
theorem Interrupted.resumable (h : Interrupted fuel d₀ d) : Resumable p T d₀ d := by
  induction h with
  | start => exact Or.inl rfl
  | @cut d ws _ hws hbefore ih =>
      obtain ⟨root, -, hp, hroot, hdir, -, -, ⟨hstops, -⟩ | ⟨htrial, hcrash⟩⟩ :=
        ih.stages hI hunset hfuel
      · have hnone : (ext4fixupInternal fuel).writes d = [] := by
          unfold DevM.writes
          rw [internal_eq hp hroot hdir]
          exact hstops.bind.writes
        rw [hnone, List.prefix_nil] at hws
        rw [hws]
        exact ih
      · obtain ⟨_, hret, hdone⟩ := hcrash.done
        have hin : d.applyAll ws = d₀ ∨ InDirs p T d₀ False (d.applyAll ws) := by
          rcases prefix_cases hp hroot hdir hret hws with hprefix | hprefix
          · exact hcrash.cut ws hprefix
          · exact absurd (hdone.state hI) (hbefore _ hprefix)
        rcases hin with heq | h | h | h
        · exact Or.inl heq
        · exact Or.inr ⟨htrial, Or.inl h⟩
        · exact Or.inr ⟨htrial, Or.inr h⟩
        · exact absurd (h.state hI) (hbefore ws List.prefix_rfl)

/-- When the state word becomes `MAGIC_STATE_UPDATING_SB`, the directories are done. -/
theorem Becomes.dirsDone (hd : Interrupted fuel d₀ d) (h : Becomes fuel d ws) :
    TrialPasses p d₀ ∧ DirsDone p T d₀ False (d.applyAll ws) := by
  obtain ⟨root, -, hp, hroot, hdir, -, -, ⟨hstops, -⟩ | ⟨htrial, hcrash⟩⟩ :=
    (hd.resumable hI hunset hfuel).stages hI hunset hfuel
  · -- nothing was written, and the state was not reached before
    have hnone : (ext4fixupInternal fuel).writes d = [] := by
      unfold DevM.writes
      rw [internal_eq hp hroot hdir]
      exact hstops.bind.writes
    have hws : ws = [] := List.prefix_nil.mp (hnone ▸ h.run)
    have hnow := h.now
    rw [hws, Device.applyAll_nil] at hnow
    exfalso
    rcases hd.resumable hI hunset hfuel with rfl | ⟨-, hpass | hpass⟩
    · cases hunset.symm.trans hnow
    · cases (hpass.state hI).symm.trans hnow
    · cases (hpass.state hI).symm.trans hnow
  · obtain ⟨_, hret, hdone⟩ := hcrash.done
    refine ⟨htrial, ?_⟩
    rcases prefix_cases hp hroot hdir hret h.run with hprefix | hprefix
    · rcases hcrash.cut ws hprefix with heq | hpass | hpass | hpass
      · cases hunset.symm.trans (heq ▸ h.now)
      · cases (hpass.state hI).symm.trans h.now
      · cases (hpass.state hI).symm.trans h.now
      · exact hpass
    · by_cases heq : (directoryStages p fuel root).writes d = ws
      · rw [← heq]
        exact hdone
      · exact absurd (hdone.state hI) (h.before _ hprefix heq)

/-- A run that is not interrupted gets there. -/
theorem Interrupted.becomes (htrial : TrialPasses p d₀) (hd : Interrupted fuel d₀ d) :
    ∃ ws, Becomes fuel d ws := by
  classical
  obtain ⟨root, -, hp, hroot, hdir, -, -, ⟨-, hfails⟩ | ⟨-, hcrash⟩⟩ :=
    (hd.resumable hI hunset hfuel).stages hI hunset hfuel
  · exact absurd htrial hfails
  · obtain ⟨_, hret, hdone⟩ := hcrash.done
    -- the shortest list of writes that gets there
    have hex :
        ∃ k, InUpdatingSb (d.applyAll (((directoryStages p fuel root).writes d).take k)) := by
      refine ⟨((directoryStages p fuel root).writes d).length, ?_⟩
      rw [List.take_length]
      exact hdone.state hI
    refine ⟨((directoryStages p fuel root).writes d).take (Nat.find hex), ?_, Nat.find_spec hex, ?_⟩
    · refine (List.take_prefix _ _).trans ?_
      have hrun : (ext4fixupInternal fuel).writes d =
          (directoryStages p fuel root >>= fun _ => superblockStage p).writes d := by
        unfold DevM.writes
        rw [internal_eq hp hroot hdir]
      rw [hrun, (bind_of_ok hret).2]
      exact List.prefix_append _ _
    · intro vs hvs hne
      have hlen : vs.length < Nat.find hex := by
        have hle := hvs.length_le
        rw [List.length_take] at hle
        refine lt_of_le_of_ne (hle.trans (min_le_left _ _)) fun heq => hne ?_
        rw [List.prefix_iff_eq_take.mp hvs, List.take_take, heq, min_self]
      have hvs' : vs = ((directoryStages p fuel root).writes d).take vs.length := by
        rw [List.prefix_iff_eq_take.mp (hvs.trans (List.take_prefix _ _)), List.length_take]
        congr 1
        have := (hvs.trans (List.take_prefix _ _)).length_le
        omega
      rw [hvs']
      exact Nat.find_min hex hlen

/-- **The directory passes survive interruptions.**  However often runs are cut off before the
state word becomes `MAGIC_STATE_UPDATING_SB`, the next run gets there if the first one would
have, and then the directory blocks are those of the run without interruptions: every number has
been replaced once, and none is left marked. -/
theorem dirs_survive_interruptions (hd : Interrupted fuel d₀ d) {ws₀ : List Write}
    (h₀ : Becomes fuel d₀ ws₀) :
    (∃ ws, Becomes fuel d ws) ∧ ∀ ws, Becomes fuel d ws →
      (∀ n ∈ T.dirs, ∀ b ∈ T.blocks n,
        (d.applyAll ws).slice (b * p.info.blockSize) p.info.blockSize =
          (d₀.applyAll ws₀).slice (b * p.info.blockSize) p.info.blockSize) ∧
      ∀ n ∈ T.dirs, ∀ r ∈ T.live p d₀ n,
        recInum (T.buf p (d.applyAll ws) n) r = p.newInum (recInum (T.buf p d₀ n) r) ∧
          ¬ Marked (recInum (T.buf p (d.applyAll ws) n) r) := by
  obtain ⟨htrial, d₁, -, -, hH₀⟩ := h₀.dirsDone hI hunset hfuel .start
  refine ⟨hd.becomes hI hunset hfuel htrial, fun ws hws => ?_⟩
  obtain ⟨-, d₁', -, -, hH⟩ := hws.dirsDone hI hunset hfuel hd
  refine ⟨fun n hn b hb => ?_, fun n hn r hr => ?_⟩
  · exact slice_eq_of_buf hI.blockSize_pos hb ((hH.buf n hn).trans (hH₀.buf n hn).symm)
  · have hlt : p.newInum (recInum (T.buf p d₀ n) r) < 2 ^ 31 := (hI.entry n hn r hr).newInum_lt
    have hinum : recInum (T.buf p (d.applyAll ws) n) r = p.newInum (recInum (T.buf p d₀ n) r) := by
      rw [hH.buf n hn, recInum_renum hI hn hr]
      exact u32_of_lt (hlt.trans (by decide))
    exact ⟨hinum, hinum ▸ not_marked_of_lt hlt⟩

end Interrupted

theorem dirs_survive_interruptions_twoGroups : ∃ ws₀, Becomes 2 twoGroups ws₀ ∧
    ∀ ws, Becomes 2 twoGroups ws → ∀ n ∈ twoGroupsTree.dirs, ∀ r ∈ [0, 12, 24],
      recInum (twoGroupsTree.buf twoGroupsFixup (twoGroups.applyAll ws) n) r =
        twoGroupsFixup.newInum (recInum (twoGroupsTree.buf twoGroupsFixup twoGroups n) r) := by
  have hunset : getFsFixupState twoGroups = .ok .unset := by decide
  have htrial : TrialPasses twoGroupsFixup twoGroups := by
    unfold TrialPasses
    decide +kernel
  have hfuel : twoGroupsTree.depth EXT4_ROOT_INO < 2 := by decide
  obtain ⟨ws₀, h₀⟩ := Interrupted.start.becomes twoGroups_image hunset hfuel htrial
  refine ⟨ws₀, h₀, fun ws hws n hn r hr => ?_⟩
  obtain ⟨-, hall⟩ :=
    dirs_survive_interruptions twoGroups_image hunset hfuel Interrupted.start h₀
  rw [← live_twoGroups n hn] at hr
  exact ((hall ws hws).2 n hn r hr).1

end SystemExtras.Ext4
