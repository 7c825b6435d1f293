import SystemExtras.Ext4.FixupAgain

/-!
# Sequences of runs, interrupted or not

A run of the tool that is cut off leaves the device somewhere between two of its
writes, and the next run starts there.  `Runs C fuel d₀ d` are the devices that such
sequences reach; `C` is what is asked of the device before each run.

Within one migration a device is the image itself, or `Midway`, or `Finished`
(`run_start`, `run_midway`).  A finished migration leaves an image again, on which the
next run starts another one that changes no number (`Follows`).

So a half migrated filesystem cannot be mounted, unless a run starts on a device with the
state word of the marking pass and the low bit of `s_desc_size` clear
(`guarded_of_halfMigrated`).
-/

namespace SystemExtras.Ext4

open DevM

/-! ## One migration -/

/-- A migration that was cut off; if `g` holds, the filesystem cannot be mounted. -/
def Midway (p : Fixup) (T : DirTree) (d₀ : Device) (g : Prop) (d : Device) : Prop :=
  InPass p T d₀ .markInodeNums g d ∨ InPass p T d₀ .updateInodeNums g d ∨ InSb p T d₀ g d

section OneMigration

variable {p : Fixup} {T : DirTree} {d₀ d : Device} {g : Prop} {fuel : ℕ}

/-- Going through a run, its parameters and root being known. -/
theorem Crash.internal {I : Device → Prop} {Q : Except Stop Unit → Device → Prop} {q : Fixup}
    {root : Mem} (hq : readExt d = .ok q) (hroot : readInode q EXT4_ROOT_INO d = .ok root)
    (hdir : isDirInode root = true)
    (h : Crash I
      (do
        directoryStages q fuel root
        superblockStage q) d Q) : Crash I (ext4fixupInternal fuel) d Q := by
  unfold ext4fixupInternal
  apply Crash.query_bind hq
  apply Crash.query_bind hroot
  rwa [if_neg (by simp [hdir])]

theorem Midway.mono {g' : Prop} (h : Midway p T d₀ g d) (hg : g' → g) : Midway p T d₀ g' d := by
  rcases h with h | h | ⟨d₁, hR, hguard, hH⟩
  · exact Or.inl (h.mono hg)
  · exact Or.inr (Or.inl (h.mono hg))
  · exact Or.inr (Or.inr ⟨d₁, hR, fun h => hguard (hg h), hH⟩)

variable (hI : FixupImage p T d₀)

include hI

theorem InDirs.midway (h : InDirs p T d₀ g d) : Midway p T d₀ g d := by
  rcases h with h | h | h
  · exact Or.inl h
  · exact Or.inr (Or.inl h)
  · exact Or.inr (Or.inr (h.inSb hI))

theorem Midway.guarded (h : Midway p T d₀ g d) (hg : g) : Guarded d := by
  rcases h with h | h | h
  · obtain ⟨d₁, val, -, hguard, hH, -⟩ := h
    exact (hH.guarded_iff hI).mpr (hguard hg)
  · obtain ⟨d₁, val, -, hguard, hH, -⟩ := h
    exact (hH.guarded_iff hI).mpr (hguard hg)
  · exact h.guarded hI hg

theorem DirsDone.primaryDesc_eq (h : DirsDone p T d₀ g d) : p.bgDesc = primaryDesc p d := by
  obtain ⟨d₁, hR, -, hH⟩ := h
  have h₁ : primaryDesc p d = primaryDesc p d₁ := Device.slice_congr (hH.desc_sameOn hI)
  have h₂ : primaryDesc p d₁ = primaryDesc p d₀ := by
    apply Device.slice_congr
    intro x h₁ h₂
    apply hR.outside
    · exact Set.disjoint_left.mp hI.copies.copies_state (hI.primaryDesc_mem h₁ h₂)
    · exact hI.primaryDesc_notMem h₁ h₂
  rw [h₁, h₂, primaryDesc_image hI]

/-- The root is found during the last stage as well. -/
theorem InSb.root (hs : Compatible p) (h : InSb p T d₀ g d) :
    ∃ q root, readExt d = .ok q ∧ Kin p q ∧
    q.bgDesc = primaryDesc p d ∧ readInode q EXT4_ROOT_INO d = .ok root ∧
    isDirInode root = true ∧ inodeOffset q EXT4_ROOT_INO = inodeOffset p EXT4_ROOT_INO := by
  obtain ⟨d₁, hR, -, hH⟩ := h
  obtain ⟨root₀, hread₀, hdir⟩ := hI.inode _ hI.root_mem
  have hS := hR.sameNav hI
  have hrefers : T.Refers p d₀ EXT4_ROOT_INO := Or.inl hI.root_mem
  obtain ⟨root, hroot, hsame⟩ := hH.readInode hI hS hrefers hread₀
  obtain ⟨q, hread, hkin, hq, -, hcase⟩ := hR.params hI hs hH
  have hdesc : primaryDesc p d = primaryDesc p d₁ := Device.slice_congr (hH.desc_sameOn hI)
  have hdir' : isDirInode root = true := by
    rw [isDirInode_congr hsame]
    exact hdir.isDir
  rcases hcase with rfl | hinfo
  · -- the root keeps its number
    have hnum :=
      (readInode_after hI hs.toLeads hrefers (migratedCount p (sbOf d₀)) hR.desc).mpr hroot
    have hoff := (inodeOffset_after hI hs.toLeads hrefers (migratedCount p (sbOf d₀)) hR.desc).1
    rw [hs.root] at hnum hoff
    exact ⟨_, root, hread, hkin, hq.trans hdesc.symm, hnum, hdir', hoff⟩
  · have hoff : inodeOffset q EXT4_ROOT_INO = inodeOffset p EXT4_ROOT_INO := by
      unfold inodeOffset
      dsimp only
      rw [hinfo, hkin.desc.get (Or.inl (by decide))]
    obtain ⟨hipg, hhas, hrest⟩ := readInode_eq_ok.mp hroot
    refine ⟨q, root, hread, hkin, hq.trans hdesc.symm, readInode_eq_ok.mpr ⟨?_, ?_, ?_⟩, hdir',
      hoff⟩
    · rwa [hinfo]
    · rw [hinfo]
      exact hkin.hasDesc.mpr hhas
    · rwa [hoff]

/-- The state of the last stage leaves the stages on directories out. -/
theorem directoryStages_of_inSb {q : Fixup} {root : Mem} (h : InSb p T d₀ g d) :
    Crash (fun d' => d' = d) (directoryStages q fuel root) d (Returns fun _ d' => d' = d) := by
  have hstate : getFsFixupState d = .ok .updatingSb := by
    obtain ⟨d₁, hR, -, hH⟩ := h
    rw [hH.state hI, hR.state]
  have hpure := directoryStages_eq_pure q fuel root hstate
  exact Crash.of_no_writes rfl (congrArg Prod.snd hpure) ⟨(), congrArg Prod.fst hpure, rfl⟩

variable (hs : Compatible p) (htrial : TrialOk p d₀) (hfuel : T.depth EXT4_ROOT_INO < fuel)

include hs htrial hfuel

/-- A run on a migration that was cut off finishes it. -/
theorem run_midway (h : Midway p T d₀ g d) :
    Crash (fun d' => Midway p T d₀ g d' ∨ Finished p T d₀ d') (ext4fixupInternal fuel) d
      (Returns fun _ => Finished p T d₀) := by
  obtain ⟨root₀, hread₀, hdir⟩ := hI.inode _ hI.root_mem
  -- the stages on directories
  have hdirs : ∀ mode, InPass p T d₀ mode g d → InDirs p T d₀ g d →
      Crash (fun d' => Midway p T d₀ g d' ∨ Finished p T d₀ d') (ext4fixupInternal fuel) d
        (Returns fun _ => Finished p T d₀) := by
    rintro mode ⟨d₁, val, hR, -, hH, -⟩ hin
    obtain ⟨root, hroot, hsame⟩ := hH.readInode hI (hR.sameNav hI) (Or.inl hI.root_mem) hread₀
    have hdir' : isDirInode root = true := by
      rw [isDirInode_congr hsame]
      exact hdir.isDir
    apply Crash.internal (hR.readExt hI hH) hroot hdir'
    apply Crash.bind_returns ((directoryStages_of_inDirs hI hfuel hread₀ hsame hin).mono
      (fun d' h => Or.inl (h.midway hI)) fun _ _ h => h)
    intro _ d' hdone
    refine (superblockStage_spec hI htrial (Kin.refl p) (hdone.primaryDesc_eq hI)
      (hdone.inSb hI)).mono ?_ ?_
    · exact fun d'' h => h.imp (fun h => Or.inr (Or.inr h)) id
    · rintro _ d'' ⟨_, rfl, hfin, -⟩
      exact ⟨(), rfl, hfin⟩
  rcases h with h | h | h
  · exact hdirs _ h (Or.inl h)
  · exact hdirs _ h (Or.inr (Or.inl h))
  · obtain ⟨q, root, hread, hkin, hdesc, hroot, hdir', -⟩ := h.root hI hs
    apply Crash.internal hread hroot hdir'
    apply Crash.bind_returns ((directoryStages_of_inSb hI h).mono ?_ fun _ _ h => h)
    · rintro _ d' rfl
      refine (superblockStage_spec hI htrial hkin hdesc h).mono ?_ ?_
      · exact fun d'' h => h.imp (fun h => Or.inr (Or.inr h)) id
      · rintro _ d'' ⟨_, rfl, hfin, -⟩
        exact ⟨(), rfl, hfin⟩
    · rintro d' rfl
      exact Or.inl (Or.inr (Or.inr h))

omit hs in
/-- A run on the image. -/
theorem run_start (hunset : getFsFixupState d₀ = .ok .unset) :
    Crash (fun d' => d' = d₀ ∨ Untouched p T d₀ .markingInums d' ∨ Midway p T d₀ True d' ∨
        Finished p T d₀ d') (ext4fixupInternal fuel) d₀
      (Returns fun _ d' => Finished p T d₀ d' ∧ ∃ e u, DirsDone p T d₀ True e ∧
        Updated p T d₀ p True e u ∧ d' = finish u) := by
  obtain ⟨root₀, hread₀, hdir⟩ := hI.inode _ hI.root_mem
  have htrial' : TrialPasses p d₀ := (trialPasses_iff hI.size_ge).mpr htrial
  apply Crash.internal hI.readExt hread₀ hdir.isDir
  apply Crash.bind_returns ((directoryStages_of_trial hI hfuel hread₀ hunset htrial').mono ?_
    fun _ _ h => h)
  · intro _ d' hdone
    refine (superblockStage_spec hI htrial (Kin.refl p) (hdone.primaryDesc_eq hI)
      (hdone.inSb hI)).mono ?_ ?_
    · rintro d'' (h | h)
      · exact Or.inr (Or.inr (Or.inl (Or.inr (Or.inr h))))
      · exact Or.inr (Or.inr (Or.inr h))
    · rintro _ d'' ⟨_, rfl, hfin, u, hu, rfl⟩
      exact ⟨(), rfl, hfin, d', u, hdone, hu, rfl⟩
  · rintro d' (h | h | h)
    · exact Or.inl h
    · exact Or.inr (Or.inl h)
    · exact Or.inr (Or.inr (Or.inl (h.midway hI)))

end OneMigration

/-! ## One migration after the other -/

/-- The image `e₀` has the directories of `d₀`, with their new numbers in them. -/
structure Renumbered (p : Fixup) (T : DirTree) (d₀ : Device) (q : Fixup) (T' : DirTree)
    (e₀ : Device) : Prop where
  aligned : ∀ v, 0 < v → q.newInum v = v
  dirs : ∀ n ∈ T.dirs, ∃ m ∈ T'.dirs, (∀ d, T'.buf q d m = T.buf p d n) ∧
    T'.live q e₀ m = T.live p d₀ n ∧
    ∀ r ∈ T.live p d₀ n, origInum q T' e₀ m r = p.newInum (origInum p T d₀ n r)

/-- The image `e₀` is `d₀` or what complete migrations have made of it. -/
structure Follows (p : Fixup) (T : DirTree) (d₀ : Device) (q : Fixup) (T' : DirTree)
    (e₀ : Device) : Prop where
  image : FixupImage q T' e₀
  unset : getFsFixupState e₀ = .ok .unset
  compatible : Compatible q
  depth : T'.depth EXT4_ROOT_INO = T.depth EXT4_ROOT_INO
  trial : TrialOk p d₀ → TrialOk q e₀
  nums : (q = p ∧ T' = T ∧ e₀ = d₀) ∨ Renumbered p T d₀ q T' e₀

section Migrations

variable {p q : Fixup} {T T' : DirTree} {d₀ e₀ d : Device} {n : ℕ}

/-- A finished migration puts the new numbers in. -/
theorem Finished.renumbered (hI : FixupImage p T d₀) (hs : Compatible p) (hF : Finished p T d₀ d)
    (hsucc : Successor p T d₀ q d) : Renumbered p T d₀ q (T.rename p) d := by
  obtain ⟨d₁, -, -, hH⟩ := hF
  have hbs := hsucc.kin.blockSize
  refine ⟨fun v hv => newInum_of_aligned hsucc.aligned hv, fun n hn => ?_⟩
  refine ⟨p.newInum n, List.mem_map_of_mem hn, fun d' => ?_,
    rename_live hI hs.toLeads hH hbs hn, ?_⟩
  · unfold DirTree.buf dirBuf
    rw [hI.rename_blocks hs.toLeads hn, hbs]
  · exact fun r hr => rename_recInum hI hs.toLeads hH hbs hn hr

/-- New numbers stay what they are. -/
theorem Renumbered.trans {q' : Fixup} {T'' : DirTree} {e₁ : Device}
    (h : Renumbered p T d₀ q T' e₀) (h' : Renumbered q T' e₀ q' T'' e₁) :
    Renumbered p T d₀ q' T'' e₁ := by
  refine ⟨h'.aligned, fun n hn => ?_⟩
  obtain ⟨m, hm, hbuf, hlive, hnum⟩ := h.dirs n hn
  obtain ⟨m', hm', hbuf', hlive', hnum'⟩ := h'.dirs m hm
  refine ⟨m', hm', fun d => (hbuf' d).trans (hbuf d), hlive'.trans hlive, fun r hr => ?_⟩
  rw [hnum' r (hlive ▸ hr), hnum r hr, h.aligned _ (newInum_pos p _)]

/-- What a migration makes of an image follows it. -/
theorem Follows.next (h : Follows p T d₀ q T' e₀) (hF : Finished q T' e₀ d) :
    ∃ q', Follows p T d₀ q' (T'.rename q) d ∧ Successor q T' e₀ q' d := by
  obtain ⟨q', hsucc⟩ := hF.image h.image h.compatible
  have hren := hF.renumbered h.image h.compatible hsucc
  refine ⟨q', ⟨hsucc.image, hsucc.unset, hsucc.compatible, ?_,
    fun ht => hsucc.trial (h.trial ht), ?_⟩, hsucc⟩
  · have hdepth := h.image.rename_depth h.compatible.toLeads h.image.root_mem
    rw [h.compatible.root] at hdepth
    exact hdepth.trans h.depth
  · right
    rcases h.nums with ⟨rfl, rfl, rfl⟩ | hnums
    · exact hren
    · exact hnums.trans hren

end Migrations

/-! ## Sequences of runs -/

/-- The devices that runs starting on `d₀` leave, each complete or cut off after any of its
writes; `C` holds of the device before each run. -/
inductive Runs (C : Device → Prop) (fuel : ℕ) (d₀ : Device) : Device → Prop
  | start : Runs C fuel d₀ d₀
  | run {d : Device} {ws : List Write} : Runs C fuel d₀ d → C d →
      ws <+: (ext4fixupInternal fuel).writes d → Runs C fuel d₀ (d.applyAll ws)

/-- If the first run fails before it has written anything, so do the others. -/
theorem Runs.eq_of_stops {C : Device → Prop} {P : Stop → Prop} {fuel : ℕ} {d₀ d : Device}
    (hstops : Stops P (ext4fixupInternal fuel) d₀) (h : Runs C fuel d₀ d) : d = d₀ := by
  induction h with
  | start => rfl
  | run _ _ hws ih =>
      rw [ih, hstops.writes, List.prefix_nil] at hws
      rw [hws, Device.applyAll_nil, ih]

/-- A run that fails in the stages on directories. -/
theorem internal_stops {P : Stop → Prop} {p : Fixup} {fuel : ℕ} {d : Device} {root : Mem}
    (hp : readExt d = .ok p) (hroot : readInode p EXT4_ROOT_INO d = .ok root)
    (hdir : isDirInode root = true) (h : Stops P (directoryStages p fuel root) d) :
    Stops P (ext4fixupInternal fuel) d := by
  unfold ext4fixupInternal
  apply Stops.of_bind (x := DevM.query readExt) hp (ReadOnly.query _)
  apply Stops.of_bind (x := DevM.query (readInode p EXT4_ROOT_INO)) hroot (ReadOnly.query _)
  rw [if_neg (not_not.mpr hdir)]
  exact h.bind

/-- What is found between two runs. -/
def Between (p : Fixup) (T : DirTree) (d₀ : Device) (g : Prop) (d : Device) : Prop :=
  ∃ q T' e₀, Follows p T d₀ q T' e₀ ∧ (d = e₀ ∨ Untouched q T' e₀ .markingInums d ∨
    Midway q T' e₀ g d)

section Runs

variable {p : Fixup} {T : DirTree} {d₀ d : Device} {g : Prop} {fuel : ℕ} {C : Device → Prop}

variable (hI : FixupImage p T d₀) (hs : Compatible p) (hunset : getFsFixupState d₀ = .ok .unset)
  (hfuel : T.depth EXT4_ROOT_INO < fuel)

include hI hs hunset

theorem Follows.start : Follows p T d₀ p T d₀ :=
  ⟨hI, hunset, hs, rfl, id, Or.inl ⟨rfl, rfl, rfl⟩⟩

omit hs

include hfuel

/-- A run whose trial fails changes nothing. -/
theorem run_stops (htrial : ¬ TrialOk p d₀) :
    Stops (fun _ => True) (ext4fixupInternal fuel) d₀ := by
  obtain ⟨root, hread, hdir⟩ := hI.inode _ hI.root_mem
  have htrial : ¬ TrialPasses p d₀ := fun h => htrial ((trialPasses_iff hI.size_ge).mp h)
  exact internal_stops hI.readExt hread hdir.isDir
    (directoryStages_stops_of_trial hI hfuel hread hunset htrial)

omit hI hunset

/-- A run between two runs, the trial having passed. -/
theorem Between.run (htrial : TrialOk p d₀) (h : Between p T d₀ g d)
    (hg : g → getFsFixupState d = .ok .markingInums → Guarded d) :
    Crash (Between p T d₀ g) (ext4fixupInternal fuel) d (Returns fun _ _ => True) := by
  obtain ⟨q, T', e₀, hF, h⟩ := h
  have hfuel : T'.depth EXT4_ROOT_INO < fuel := hF.depth ▸ hfuel
  have htrial := hF.trial htrial
  have hnext : ∀ d', Finished q T' e₀ d' → Between p T d₀ g d' := by
    intro d' hfin
    obtain ⟨q', hF', -⟩ := hF.next hfin
    exact ⟨q', _, d', hF', Or.inl rfl⟩
  -- a run on a migration that was cut off
  have hmidway : Midway q T' e₀ g d →
      Crash (Between p T d₀ g) (ext4fixupInternal fuel) d (Returns fun _ _ => True) := by
    intro h
    refine (run_midway hF.image hF.compatible htrial hfuel h).mono ?_ ?_
    · rintro d' (h | h)
      · exact ⟨q, T', e₀, hF, Or.inr (Or.inr h)⟩
      · exact hnext d' h
    · rintro _ d' ⟨_, rfl, -⟩
      exact ⟨(), rfl, trivial⟩
  rcases h with rfl | h | h
  · refine (run_start hF.image htrial hfuel hF.unset).mono ?_ ?_
    · rintro d' (rfl | h | h | h)
      · exact ⟨q, T', d', hF, Or.inl rfl⟩
      · exact ⟨q, T', d, hF, Or.inr (Or.inl h)⟩
      · exact ⟨q, T', d, hF, Or.inr (Or.inr (h.mono fun _ => trivial))⟩
      · exact hnext d' h
    · rintro _ d' ⟨_, rfl, -⟩
      exact ⟨(), rfl, trivial⟩
  · exact hmidway (Or.inl (h.inPass hF.image fun hguard => hg hguard (h.state hF.image)))
  · exact hmidway h

include hI hs hunset

/-- What is found after any sequence of runs. -/
theorem Runs.between (htrial : TrialOk p d₀)
    (hC : ∀ d, C d → g → getFsFixupState d = .ok .markingInums → Guarded d)
    (h : Runs C fuel d₀ d) : Between p T d₀ g d := by
  induction h with
  | start => exact ⟨p, T, d₀, Follows.start hI hs hunset, Or.inl rfl⟩
  | run _ hd hws ih => exact (ih.run hfuel htrial (hC _ hd)).cut _ hws

end Runs

/-- A migration whose trial passes leads to an image that suits the new number. -/
theorem FixupImage.compatible {p : Fixup} {T : DirTree} {d₀ : Device} (hI : FixupImage p T d₀)
    (hs : Steady p) (htrial : TrialOk p d₀) : Compatible p := by
  have hparams := readExt_eq_ok.mp hI.readExt
  obtain ⟨root, hroot, -⟩ := hI.inode _ hI.root_mem
  obtain ⟨-, hdesc, -⟩ := readInode_eq_ok.mp hroot
  exact htrial.compatible hs hparams hI.blockSize_le
    (hparams.numBlockGroups_pos hI.groups_pos hdesc)

theorem unset_twoGroups : getFsFixupState twoGroups = .ok .unset := by decide

theorem steady_twoGroups : Steady twoGroupsFixup :=
  ⟨by decide, by decide⟩

theorem fuel_twoGroups : twoGroupsTree.depth EXT4_ROOT_INO < 2 := by decide

/-! ## Half migrated filesystems -/

/-- Some entry has bit 31 of its number set, or some but not all entries have been renumbered. -/
def HalfMigrated (p : Fixup) (T : DirTree) (d₀ d : Device) : Prop :=
  (∃ n ∈ T.dirs, ∃ r ∈ T.live p d₀ n, Marked (recInum (T.buf p d n) r)) ∨
    (∃ n ∈ T.dirs, ∃ r ∈ T.live p d₀ n, recInum (T.buf p d n) r ≠ recInum (T.buf p d₀ n) r) ∧
    ∃ n ∈ T.dirs, ∃ r ∈ T.live p d₀ n,
      recInum (T.buf p d n) r ≠ p.newInum (recInum (T.buf p d₀ n) r)

section HalfMigrated

variable {p q : Fixup} {T T' : DirTree} {d₀ e₀ d₁ d : Device} {fuel : ℕ}

/-- While a migration has not changed a directory, nothing is half migrated. -/
theorem not_halfMigrated (hI : FixupImage p T d₀) (hI' : FixupImage q T' e₀)
    (hnums : (q = p ∧ T' = T ∧ e₀ = d₀) ∨ Renumbered p T d₀ q T' e₀)
    (hH : Holds q T' e₀ d₁ (origInum q T' e₀) d) : ¬ HalfMigrated p T d₀ d := by
  have hsame : ∀ m ∈ T'.dirs, ∀ r ∈ T'.live q e₀ m,
      recInum (T'.buf q d m) r = origInum q T' e₀ m r := by
    intro m hm r hr
    have hlt : origInum q T' e₀ m r < 2 ^ 31 := (hI'.entry m hm r hr).inum_lt
    rw [hH.buf m hm, recInum_renum hI' hm hr]
    exact u32_of_lt (hlt.trans (by decide))
  rcases hnums with ⟨rfl, rfl, rfl⟩ | hnums
  · rintro (⟨n, hn, r, hr, hmark⟩ | ⟨⟨n, hn, r, hr, hne⟩, -⟩)
    · rw [hsame n hn r hr] at hmark
      exact not_marked_of_lt (hI.entry n hn r hr).inum_lt hmark
    · exact hne (hsame n hn r hr)
  · have hnew : ∀ n ∈ T.dirs, ∀ r ∈ T.live p d₀ n,
        recInum (T.buf p d n) r = p.newInum (recInum (T.buf p d₀ n) r) := by
      intro n hn r hr
      obtain ⟨m, hm, hbuf, hlive, hnum⟩ := hnums.dirs n hn
      rw [← hbuf d, hsame m hm r (hlive ▸ hr), hnum r hr]
      rfl
    rintro (⟨n, hn, r, hr, hmark⟩ | ⟨-, n, hn, r, hr, hne⟩)
    · rw [hnew n hn r hr] at hmark
      exact not_marked_of_lt (hI.entry n hn r hr).newInum_lt hmark
    · exact hne (hnew n hn r hr)

/-- **A half migrated filesystem cannot be mounted**, if no run starts on a device with the state
word of the marking pass whose guard bit is clear. -/
theorem guarded_of_halfMigrated (hI : FixupImage p T d₀) (hs : Steady p)
    (hunset : getFsFixupState d₀ = .ok .unset) (hfuel : T.depth EXT4_ROOT_INO < fuel)
    (h : Runs (fun d => getFsFixupState d = .ok .markingInums → Guarded d) fuel d₀ d)
    (hhalf : HalfMigrated p T d₀ d) : Guarded d := by
  by_cases htrial : TrialOk p d₀
  · have hbetween : Between p T d₀ True d :=
      h.between hI (hI.compatible hs htrial) hunset hfuel htrial fun _ hC _ => hC
    obtain ⟨q, T', e₀, hF, rfl | ⟨d₁, -, hH⟩ | h⟩ := hbetween
    · exact absurd hhalf (not_halfMigrated hI hF.image hF.nums hF.image.holds)
    · exact absurd hhalf (not_halfMigrated hI hF.image hF.nums hH)
    · exact h.guarded hF.image trivial
  · rw [h.eq_of_stops (run_stops hI hunset hfuel htrial)] at hhalf
    exact absurd hhalf (not_halfMigrated hI hI (Or.inl ⟨rfl, rfl, rfl⟩) hI.holds)

end HalfMigrated

/-! ## Where the guard bit is missing -/

section Unguarded

variable {p : Fixup} {T : DirTree} {d₀ d : Device} {fuel n r : ℕ} {ws : List Write}

/-- The writes of the directory stages are the first of the run. -/
theorem prefix_internal {root : Mem} (hp : readExt d = .ok p)
    (hroot : readInode p EXT4_ROOT_INO d = .ok root) (hdir : isDirInode root = true)
    (hws : ws <+: (directoryStages p fuel root).writes d) :
    ws <+: (ext4fixupInternal fuel).writes d := by
  unfold DevM.writes
  rw [internal_eq hp hroot hdir]
  exact prefix_bind hws

/-- A run whose check and trial pass starts with setting the state. -/
theorem prefix_run_start {root : Mem} (hp : readExt d = .ok p)
    (hroot : readInode p EXT4_ROOT_INO d = .ok root) (hdir : isDirInode root = true)
    (hunset : getFsFixupState d = .ok .unset)
    (hsanity : (recurseDir p .sanityCheckPass fuel root (dirSize root)).result d = .ok ())
    (htrial : TrialPasses p d) (hws : ws <+: (setFsFixupState .markingInums).writes d) :
    ws <+: (ext4fixupInternal fuel).writes d := by
  apply prefix_internal hp hroot hdir
  unfold directoryStages
  apply prefix_bind
  unfold DevM.writes
  rw [inState_eq_stage hunset]
  change _ <+: DevM.writes _ _
  rwa [(recurseDir_readOnly _ _ _).writes_bind hsanity, (update_readOnly _).writes_bind htrial]

variable (hI : FixupImage p T d₀) (hunset : getFsFixupState d₀ = .ok .unset)
  (hfuel : T.depth EXT4_ROOT_INO < fuel)

include hI hfuel

omit hfuel in
/-- When the marking pass has returned, every entry is marked. -/
theorem Holds.marked {d₁ : Device} (h : Holds p T d₀ d₁ (fun n r =>
      Mode.markInodeNums.target p (origInum p T d₀ n r)) d) (hn : n ∈ T.dirs)
    (hr : r ∈ T.live p d₀ n) : Marked (recInum (T.buf p d n) r) := by
  have hlt : origInum p T d₀ n r < 2 ^ 31 := (hI.entry n hn r hr).inum_lt
  rw [h.buf n hn, recInum_renum hI hn hr]
  change Marked (u32 (origInum p T d₀ n r ||| 0x80000000))
  rw [or_bit31 hlt, u32_of_lt (by omega), ← or_bit31 hlt]
  exact marked_or_bit31 _

/-- A run that finds the state word of the marking pass marks the directories first and leaves
the guard bit as it is. -/
theorem Untouched.exists_marked (h : Untouched p T d₀ .markingInums d) (hn : n ∈ T.dirs)
    (hr : r ∈ T.live p d₀ n) : ∃ ws, ws <+: (ext4fixupInternal fuel).writes d ∧
      HalfMigrated p T d₀ (d.applyAll ws) ∧ (Guarded (d.applyAll ws) ↔ Guarded d) := by
  have hstate := h.state hI
  obtain ⟨d₁, hR, hH⟩ := h
  obtain ⟨root₀, hread₀, hdir⟩ := hI.inode _ hI.root_mem
  obtain ⟨root, hroot, hsame⟩ := hH.readInode hI (hR.sameNav hI) (Or.inl hI.root_mem) hread₀
  have hdir' : isDirInode root = true := by
    rw [isDirInode_congr hsame]
    exact hdir.isDir
  obtain ⟨_, -, hmarked⟩ := (pass_spec hI (hR.sameNav hI) hfuel hread₀ hsame hH
    (Prog.start hI .markInodeNums)).done
  refine ⟨(recurseDir p .markInodeNums fuel root (dirSize root)).writes d, ?_, Or.inl ?_, ?_⟩
  · apply prefix_internal (hR.readExt hI hH) hroot hdir'
    unfold directoryStages
    rw [writes_bind_of_eq (inState_eq_pure hstate (by decide))]
    apply prefix_bind
    unfold DevM.writes
    rw [inState_eq_stage hstate]
    exact prefix_bind List.prefix_rfl
  · exact ⟨n, hn, r, hr, hmarked.marked hI hn hr⟩
  · exact (hmarked.guarded_iff hI).trans (hH.guarded_iff hI).symm

include hunset

/-- A run that is cut off after its first two writes has set state word and guard bit, and one that
is cut off after the first of them has not set the guard bit. -/
theorem run_start_cut (htrial : TrialOk p d₀) (hguard : ¬ Guarded d₀) :
    (∃ ws, ws <+: (ext4fixupInternal fuel).writes d₀ ∧
      Untouched p T d₀ .markingInums (d₀.applyAll ws) ∧ ¬ Guarded (d₀.applyAll ws)) ∧
    ∃ ws, ws <+: (ext4fixupInternal fuel).writes d₀ ∧
      Untouched p T d₀ .markingInums (d₀.applyAll ws) ∧ Guarded (d₀.applyAll ws) := by
  have hmagic : FixupState.markingInums.magic ≠ 0 := by decide
  obtain ⟨root₀, hread₀, hdir⟩ := hI.inode _ hI.root_mem
  have hstart : ∀ ws, ws <+: (setFsFixupState .markingInums).writes d₀ →
      ws <+: (ext4fixupInternal fuel).writes d₀ := fun _ =>
    prefix_run_start hI.readExt hread₀ hdir.isDir hunset (sanity_returns hI hfuel hread₀ hunset)
      ((trialPasses_iff hI.size_ge).mpr htrial)
  constructor
  · refine ⟨[stateWrite .markingInums], ?_, ?_, ?_⟩
    · exact hstart _ (prefix_bind List.prefix_rfl)
    · refine ⟨_, (StageRest.refl hunset).stateWrite hI.size_ge _, hI.holds.apply_rest ?_⟩
      intro x hx hcov
      exact Set.disjoint_left.mp hI.dirs_state hx (hcov.2.trans_eq (Nat.zero_add 8))
    · change ¬ Guarded (d₀.apply (stateWrite .markingInums))
      unfold Guarded
      rwa [sbOf_stateWrite]
  · obtain ⟨_, -, d₁, hR, hg, hH⟩ :=
      (setFsFixupState_spec hI hmagic (StageRest.refl hunset) hI.holds).done
    exact ⟨(setFsFixupState .markingInums).writes d₀,
      hstart _ List.prefix_rfl, ⟨d₁, hR, hH⟩,
      (hH.guarded_iff hI).mpr hg⟩

end Unguarded

theorem trialOk_twoGroups : TrialOk twoGroupsFixup twoGroups := by
  apply (trialPasses_iff twoGroups_image.size_ge).mp
  unfold TrialPasses
  decide +kernel

theorem not_guarded_start_twoGroups : ¬ Guarded twoGroups := by
  unfold Guarded
  decide

theorem live_root_twoGroups :
    0 ∈ twoGroupsTree.live twoGroupsFixup twoGroups EXT4_ROOT_INO := by
  rw [live_twoGroups _ (by decide)]
  decide

/-- A run cut off after two writes and another one cut off behind the marking pass. -/
theorem guarded_of_halfMigrated_twoGroups : ∃ d,
    Runs (fun d => getFsFixupState d = .ok .markingInums → Guarded d) 2 twoGroups d ∧
      HalfMigrated twoGroupsFixup twoGroupsTree twoGroups d ∧ Guarded d := by
  obtain ⟨-, ws, hws, hun, hg⟩ := run_start_cut twoGroups_image unset_twoGroups fuel_twoGroups
    trialOk_twoGroups not_guarded_start_twoGroups
  obtain ⟨vs, hvs, hhalf, -⟩ := hun.exists_marked twoGroups_image fuel_twoGroups
    twoGroups_image.root_mem live_root_twoGroups
  have hstart : getFsFixupState twoGroups = .ok .markingInums → Guarded twoGroups := by
    intro h
    rw [unset_twoGroups] at h
    cases h
  have hruns : Runs (fun d => getFsFixupState d = .ok .markingInums → Guarded d) 2 twoGroups
      ((twoGroups.applyAll ws).applyAll vs) := (Runs.start.run hstart hws).run (fun _ => hg) hvs
  exact ⟨_, hruns, hhalf, guarded_of_halfMigrated twoGroups_image steady_twoGroups unset_twoGroups
    fuel_twoGroups hruns hhalf⟩

/-- A run cut off after one write and another one cut off behind the marking pass. -/
theorem not_guarded_twoGroups : ∃ d, Runs (fun _ => True) 2 twoGroups d ∧
    HalfMigrated twoGroupsFixup twoGroupsTree twoGroups d ∧ ¬ Guarded d := by
  obtain ⟨⟨ws, hws, hun, hg⟩, -⟩ := run_start_cut twoGroups_image unset_twoGroups fuel_twoGroups
    trialOk_twoGroups not_guarded_start_twoGroups
  obtain ⟨vs, hvs, hhalf, hiff⟩ := hun.exists_marked twoGroups_image fuel_twoGroups
    twoGroups_image.root_mem live_root_twoGroups
  exact ⟨_, (Runs.start.run trivial hws).run trivial hvs, hhalf, fun h => hg (hiff.mp h)⟩

end SystemExtras.Ext4
