import SystemExtras.Ext4.FixupLockstep

/-!
# Runs on a device that an overlay makes an image

Everything the tool does besides its passes over the directories has nothing to do with the
bytes of directories (`setFsFixupState_avoids`, `superblockStage_avoids`).  So a run on a
device whose directories fit their plans does what the run on the overlay does, which is a
run on an image; and whatever the run on the device leaves is such a device again.

## Strategy

`Shadow f p T d₀ d` is the invariant between two runs.  The overlay of `d` is where some
cut of a migration may leave an image, and the numbers in the idle entries of `d` are ones
that the passes still to come can replace (`NumsAt`).

* `pass_steps`: a pass and what comes behind it, up to the next state.
* `directoryStages_lockstep`: the three stages, each from its state word on.
* `Shadow.run`: a whole run.  The last stage leaves either the same migration or a finished
  one, after which the directories have new numbers and the plans move along
  (`Draws.rename`, `Bare.rename`).
* `Shadow.runs`: any number of runs, cut off or not.
-/

namespace SystemExtras.Ext4

open DevM

/-! ## What has nothing to do with directories -/

section Avoids

variable {p q : Fixup} {T : DirTree} {d₀ d d' : Device}

variable (hI : FixupImage p T d₀)

include hI

theorem getFsFixupState_off (h : d.SameOff (T.bytes p) d') :
    getFsFixupState d' = getFsFixupState d :=
  getFsFixupState_congr h.size fun x hx =>
    h.bytes x fun hmem => Set.disjoint_left.mp hI.dirs_state hmem hx

theorem sbOf_off (h : d.SameOff (T.bytes p) d') : sbOf d' = sbOf d :=
  Device.slice_congr fun x h₁ h₂ => h.bytes x fun hmem =>
    Set.disjoint_left.mp hI.dirs_copies hmem (hI.primarySb_subset ⟨h₁, h₂⟩)

theorem readSb_off (h : d.SameOff (T.bytes p) d') : readSb d' = readSb d := by
  have hread : d'.read 1024 Sb.size = d.read 1024 Sb.size := h.read fun x hx hin =>
    Set.disjoint_left.mp hI.dirs_copies hx (hI.primarySb_subset hin)
  unfold readSb
  rw [hread]

/-- `read_ext` reads the superblock and the descriptors. -/
theorem readExt_off (h : d.SameOff (T.bytes p) d') (hkin : Kin p q)
    (hread : readExt d = .ok q) : readExt d' = .ok q := by
  refine readExt_eq_ok.mpr ((readExt_eq_ok.mp hread).congr h.size ?_ fun x h₁ h₂ => ?_)
  · rw [sbOf_off hI h]
    exact SbLike.refl _
  · rw [hkin.blockSize, hkin.firstDataBlock] at h₁ h₂
    rw [hkin.descLen] at h₂
    exact h.bytes x fun hmem =>
      Set.disjoint_left.mp hI.dirs_copies hmem (hI.primaryDesc_mem h₁ h₂)

theorem readRoot_off (h : d.SameOff (T.bytes p) d')
    (hoff : inodeOffset q EXT4_ROOT_INO = inodeOffset p EXT4_ROOT_INO) {root : Mem}
    (hread : readInode q EXT4_ROOT_INO d = .ok root) :
    ∃ root', readInode q EXT4_ROOT_INO d' = .ok root' ∧
      root'.SameOn root 0 DirTree.inodeBytes := by
  refine readInode_congr h.size (fun x h₁ h₂ => h.bytes x fun hmem => ?_) hread
  rw [hoff] at h₁ h₂
  exact Set.disjoint_left.mp hI.dirs_nav hmem
    (Or.inl ⟨EXT4_ROOT_INO, Or.inl hI.root_mem, h₁, h₂⟩)

theorem setFsFixupState_avoids (s : FixupState) : Avoids (T.bytes p) (setFsFixupState s) := by
  have hstate : (stateWrite s).Avoids (T.bytes p) := fun x hx hcov =>
    Set.disjoint_left.mp hI.dirs_state hx (hcov.2.trans_eq (Nat.zero_add 8))
  have hsb : ∀ sb, (sbWrite sb).Avoids (T.bytes p) := fun sb x hx hcov =>
    Set.disjoint_left.mp hI.dirs_copies hx (hI.primarySb_subset (sbWrite_covers.mp hcov))
  unfold setFsFixupState
  refine (Avoids.write hstate).bind fun _ => (Avoids.query fun d d' h => ?_).bind fun sb => ?_
  · exact readSb_off hI h
  · exact Avoids.ite (Avoids.write (hsb _)) (Avoids.fail _)

theorem checkInodeBitmap_avoids (hkin : Kin p q) (noWrite : Bool) {i : ℕ}
    (hi : i < p.numBlockGroups) : Avoids (T.bytes p) (checkInodeBitmap q noWrite i) := by
  have hout : ∀ x ∈ T.bytes p,
      ¬ (bitmapOffset q i ≤ x ∧ x < bitmapOffset q i + q.info.blockSize) := by
    intro x hx hin
    rw [hkin.bitmapOffset, hkin.blockSize, bitmapOffset_eq] at hin
    exact Set.disjoint_left.mp hI.dirs_bitmaps hx ⟨i, hi, hin⟩
  unfold bitmapOffset at hout
  unfold checkInodeBitmap
  refine Avoids.ite (Avoids.fail _) ((Avoids.query fun d d' h => ?_).bind fun block => ?_)
  · unfold readBlockBounded readBlock
    simp only [h.read hout]
  · refine Avoids.ite (Avoids.pure _) (Avoids.ite (Avoids.fail _) (Avoids.ite ?_ (Avoids.pure _)))
    unfold writeBlock
    exact Avoids.ite (Avoids.pure _) (Avoids.ite (Avoids.write hout) (Avoids.fail _))

theorem checkInodeBitmaps_avoids (hkin : Kin p q) (noWrite : Bool) (groups : List ℕ)
    (h : ∀ i ∈ groups, i < p.numBlockGroups) :
    Avoids (T.bytes p) (checkInodeBitmaps q noWrite groups) := by
  induction groups with
  | nil => exact Avoids.pure _
  | cons i rest ih =>
      exact (checkInodeBitmap_avoids hI hkin noWrite (h i List.mem_cons_self)).bind fun _ =>
        ih fun j hj => h j (List.mem_cons_of_mem _ hj)

theorem writeCopies_avoids (hkin : Kin p q) (noWrite : Bool) (bgDesc : Mem) (groups : List ℕ)
    (h : ∀ i ∈ groups, i < p.aux.groups) :
    ∀ sb, Avoids (T.bytes p) (writeCopies q noWrite bgDesc sb groups) := by
  induction groups with
  | nil => exact fun _ => Avoids.pure _
  | cons i rest ih =>
      intro sb
      have hrest := ih fun j hj => h j (List.mem_cons_of_mem _ hj)
      rw [writeCopies]
      split
      · rename_i hhas
        have hcopy : HasCopy p i := ⟨h i List.mem_cons_self, hkin.featRoCompat ▸ hhas⟩
        have hsb : ∀ m, Write.Avoids (T.bytes p) ⟨sbOffset q i, Sb.size, m⟩ := by
          intro m x hx hcov
          refine Set.disjoint_left.mp hI.dirs_copies hx ⟨i, hcopy, Or.inl ?_⟩
          rw [← hkin.sbOffset]
          exact hcov
        have hdesc : Write.Avoids (T.bytes p)
            ⟨descOffset q i, q.info.blockSize * q.aux.bgDescBlocks, bgDesc⟩ := by
          intro x hx hcov
          refine Set.disjoint_left.mp hI.dirs_copies hx ⟨i, hcopy, Or.inr ?_⟩
          rw [← hkin.descOffset, ← hkin.descLen]
          exact hcov
        have hafter := hrest (copyOfSb sb i)
        have hwrite : Avoids (T.bytes p) (writeSb (sbOffset q i) (copyOfSb sb i)) :=
          Avoids.ite (Avoids.write (hsb _)) (Avoids.fail _)
        -- the two conditions on `noWrite`, each with what comes behind it in both branches
        have hdescs := Avoids.ite (c := noWrite = true) hafter
          ((Avoids.write (ε := Stop) hdesc).bind fun _ => hafter)
        have hbehind := Avoids.ite (c := ¬ seekable (descOffset q i))
          (Avoids.fail (.criticalError "failed to seek to block group descriptors")) hdescs
        exact Avoids.ite hbehind (hwrite.bind fun _ => hbehind)
      · exact hrest sb

theorem update_avoids (hkin : Kin p q) (state : FixupState) (noWrite : Bool) :
    Avoids (T.bytes p) (updateSuperblocksAndBgDesc q state noWrite) := by
  unfold updateSuperblocksAndBgDesc
  refine (Avoids.query fun d d' h => readSb_off hI h).bind fun sb => Avoids.bind ?_ fun _ => ?_
  · refine checkInodeBitmaps_avoids hI hkin noWrite _ fun i hi => ?_
    rw [← hkin.numBlockGroups]
    exact List.mem_range.mp hi
  · refine Avoids.ite (Avoids.fail _) (Avoids.ite (Avoids.fail _) ?_)
    refine writeCopies_avoids hI hkin noWrite _ _ (fun i hi => ?_) _
    rw [← hkin.groups]
    exact List.mem_range.mp hi

theorem superblockStage_avoids (hkin : Kin p q) : Avoids (T.bytes p) (superblockStage q) := by
  unfold superblockStage inState
  refine (Avoids.query fun d d' h => getFsFixupState_off hI h).bind fun s =>
    Avoids.ite ?_ (Avoids.pure _)
  exact (update_avoids hI hkin _ _).bind fun _ => setFsFixupState_avoids hI _

end Avoids

/-! ## The stages on directories -/

/-- The number of an idle entry is not 0, marked or not. -/
def LowBits (x : ℕ) : Prop := x &&& 0x7fffffff ≠ 0

/-- The numbers in idle entries are ones that the passes still to come can replace. -/
structure NumsAt (plan : ℕ → DirPlan) (p : Fixup) (T : DirTree) (d : Device) : Prop where
  bare : Bare plan p T LowBits d
  pass : ∀ mode : Mode, getFsFixupState d = .ok mode.state → Bare plan p T (NumOk p mode) d

/-- Nothing but zeros is left behind the last records. -/
def NoTails (plan : ℕ → DirPlan) (T : DirTree) : Prop := ∀ n ∈ T.dirs, (plan n).tail = none

/-- Where a run on the image can be cut off before the last stage. -/
def InStages (p : Fixup) (T : DirTree) (d₀ d : Device) : Prop := d = d₀ ∨ InDirs p T d₀ False d

section Stages

variable {f : Overlay} {plan : ℕ → DirPlan} {p : Fixup} {T : DirTree} {d₀ d : Device}
  {N N' : ℕ → Prop} {mode : Mode} {fuel : ℕ} {root root' root₀ : Mem}

theorem Bare.mono (h : Bare plan p T N d) (hN : ∀ x, N x → N' x) : Bare plan p T N' d :=
  fun n hn => (h n hn).mono hN

/-- What is asked before the numbers are replaced is enough for every pass. -/
theorem Bare.numsAt (hmode : mode ≠ .updateInodeNums) (h : Bare plan p T (NumOk p mode) d) :
    NumsAt plan p T d :=
  ⟨h.mono fun _ hx => hx.1, fun mode' _ => h.mono fun _ hx => hx.anyMode hmode mode'⟩

theorem NoTails.tailsFail (h : NoTails plan T) (d₁ : Device) (mode : Mode) (G : Prop) :
    TailsFail f plan p T d₀ d₁ mode G := by
  intro n hn m hm
  rw [h n hn] at hm
  cases hm

theorem NoTails.spared (h : NoTails plan T) (s : Device) : Spared plan p T s d :=
  fun n hn hleft => absurd (h n hn) hleft

theorem Mode.state_injective : Function.Injective Mode.state := by
  intro mode mode' h
  cases mode <;> cases mode' <;> first | rfl | cases h

variable (hI : FixupImage p T d₀)

include hI

theorem InStages.inPass (hunset : getFsFixupState d₀ = .ok .unset) (h : InStages p T d₀ d)
    (hstate : getFsFixupState d = .ok mode.state) : InPass p T d₀ mode False d := by
  have hmode : ∀ mode' : Mode, getFsFixupState d = .ok mode'.state → mode = mode' := by
    intro mode' h'
    rw [hstate] at h'
    exact Mode.state_injective (Except.ok.inj h')
  rcases h with rfl | h | h | h
  · obtain rfl := hmode .sanityCheckPass hunset
    exact ⟨d, _, .refl hunset, False.elim, hI.holds, Prog.start hI .sanityCheckPass⟩
  · obtain rfl := hmode .markInodeNums (h.state hI)
    exact h
  · obtain rfl := hmode .updateInodeNums (h.state hI)
    exact h
  · have hsb := h.state hI
    rw [hstate] at hsb
    cases mode <;> cases hsb

variable (hf : Draws f plan p T d₀)

include hf

omit hI in
theorem Draws.sameOff (d : Device) : d.SameOff (T.bytes p) (d.overlay f) := .overlay hf.rest d

theorem Draws.state (d : Device) : getFsFixupState (d.overlay f) = getFsFixupState d :=
  getFsFixupState_off hI (hf.sameOff d)

/-- A stage is gone through on both sides or on none. -/
theorem inState_lockstep {I B : Device → Prop} {s : FixupState} {stage stage' : DevM Stop Unit}
    (h : I (d.overlay f) → getFsFixupState (d.overlay f) = .ok s →
      Lockstep f I B False stage stage' (fun _ _ => True) d) :
    Lockstep f I B False (inState s stage) (inState s stage') (fun _ _ => True) d := by
  unfold inState
  refine Lockstep.query_bind fun _ hd now hnow => ⟨now, (hf.state hI d).symm.trans hnow, ?_⟩
  by_cases hs : now = s
  · subst hs
    rw [if_pos rfl, if_pos rfl]
    exact h hd hnow
  · rw [if_neg hs, if_neg hs]
    exact Lockstep.pure trivial

variable (htails : NoTails plan T) (hroot : p.newInum EXT4_ROOT_INO = EXT4_ROOT_INO)
  (hfuel : T.depth EXT4_ROOT_INO < fuel) (hread : readInode p EXT4_ROOT_INO d₀ = .ok root₀)
  (hsame : root.SameOn root₀ 0 DirTree.inodeBytes)
  (hsame' : root'.SameOn root₀ 0 DirTree.inodeBytes)

include htails hroot hfuel hread hsame hsame'

/-- A pass, and what comes behind it up to the next state. -/
theorem pass_steps {I : Device → Prop} {y : DevM Stop Unit} (hy : Avoids (T.bytes p) y)
    (hpass : InPass p T d₀ mode False (d.overlay f)) (hB : Bare plan p T (NumOk p mode) d)
    (hc : Crash I
      (do
        recurseDir p mode fuel root' (dirSize root')
        y) (d.overlay f) (Returns fun _ _ => True))
    (hnext : ∀ d', I (d'.overlay f) → Bare plan p T (NumOk p mode) d' → NumsAt plan p T d') :
    Steps f (NumsAt plan p T)
      (do
        recurseDir p mode fuel root (dirSize root)
        y)
      (do
        recurseDir p mode fuel root' (dirSize root')
        y) (fun _ _ => True) d := by
  obtain ⟨d₁, val, hR, -, hH, hP⟩ := hpass
  have hS := hR.sameNav hI
  have hspec := pass_spec hI hS hfuel hread hsame' hH hP
  obtain ⟨_, hres, -⟩ := hspec.done
  have hrec : Steps f (Bare plan p T (NumOk p mode)) (recurseDir p mode fuel root (dirSize root))
      (recurseDir p mode fuel root' (dirSize root')) (fun _ _ => True) d := by
    have hcrash : Crash (PassAt p T d₀ d₁ mode) (recurseDir p mode fuel root' (dirSize root'))
        (d.overlay f) (Returns fun _ _ => True) :=
      hspec.mono (fun _ h => h) fun _ _ ⟨a, ha, _⟩ => ⟨a, ha, trivial⟩
    rw [(hI.dirImage.dirSize_eq hI.root_mem hread hsame).1]
    rw [(hI.dirImage.dirSize_eq hI.root_mem hread hsame').1] at hcrash ⊢
    have hsteps := recurseDir_lockstep hI hS hf hroot (htails.tailsFail d₁ mode False) d fuel _
      hI.root_mem root root' root₀ d hread hsame hsame' ⟨hB, htails.spared d⟩ hcrash False.elim
    exact hsteps.mono hcrash (fun _ _ h => h.1) fun _ _ h => h
  refine Steps.mono (hrec.bind fun _ _ _ _ _ => ?_) hc hnext fun _ _ h => h
  have hrest := hc.of_bind_of_ok hres
  rw [← hrec.final] at hrest
  refine (Lockstep.of_avoids hy hf.rest (fun d' w hd' hw => hd'.apply_rest hw) hrec.keeps_final
    hrest False.elim).mono hrest (fun _ _ h => h) fun _ _ _ => trivial

/-- The three stages, from wherever a run starts. -/
theorem directoryStages_lockstep (hunset : getFsFixupState d₀ = .ok .unset) :
    Lockstep f (InStages p T d₀) (NumsAt plan p T) False (directoryStages p fuel root)
      (directoryStages p fuel root') (fun _ _ => True) d := by
  have hset := fun s => setFsFixupState_avoids hI s
  unfold directoryStages
  refine (inState_lockstep hI hf fun hd hs hB hc _ => ?sanity).bind fun _ _ _ _ _ =>
    (inState_lockstep hI hf fun hd hs hB hc _ => ?marking).bind fun _ _ _ _ _ =>
      inState_lockstep hI hf fun hd hs hB hc _ => ?updating
  case sanity =>
    have hbare := hB.pass .sanityCheckPass ((hf.state hI d).symm.trans hs)
    refine pass_steps hI hf htails hroot hfuel hread hsame hsame' ?_ (hd.inPass hI hunset hs)
      hbare hc fun d' _ h => h.numsAt (by decide)
    exact (update_avoids hI (Kin.refl p) _ _).bind fun _ => hset _
  case marking =>
    have hbare := hB.pass .markInodeNums ((hf.state hI _).symm.trans hs)
    exact pass_steps hI hf htails hroot hfuel hread hsame hsame' (hset _) (hd.inPass hI hunset hs)
      hbare hc fun d' _ h => h.numsAt (by decide)
  case updating =>
    have hbare := hB.pass .updateInodeNums ((hf.state hI _).symm.trans hs)
    have hpass : InPass p T d₀ .updateInodeNums False _ := hd.inPass hI hunset hs
    -- the state word tells this pass from the end of it
    have hmagic : FixupState.updatingSb.magic ≠ 0 := by decide
    refine pass_steps hI hf htails hroot hfuel hread hsame hsame' (hset _) hpass hbare
      ((pass_then_state hI hfuel hread hsame' hmagic hpass).mono (fun _ h => h)
        fun _ _ ⟨a, ha, _⟩ => ⟨a, ha, trivial⟩) fun d' h hN => ?_
    refine ⟨hN.mono fun _ hx => hx.1, fun mode hmode => ?_⟩
    rw [← hf.state hI] at hmode
    rcases h with h | ⟨d₁', hR, -, hH⟩
    · obtain rfl := Mode.state_injective (Except.ok.inj (hmode.symm.trans (h.state hI)))
      exact hN
    · rw [hH.state hI, hR.state] at hmode
      cases mode <;> cases hmode

end Stages

/-! ## One migration after the other -/

section Rename

variable {f : Overlay} {plan : ℕ → DirPlan} {p q : Fixup} {T : DirTree} {d₀ d e : Device}
  {N : ℕ → Prop}

variable (hI : FixupImage p T d₀) (hs : Compatible p)

include hI hs

/-- The plans move along with the directories. -/
theorem Draws.rename (hf : Draws f plan p T d₀) (hF : Finished p T d₀ e)
    (hbs : q.info.blockSize = p.info.blockSize) :
    Draws f (fun m => plan (p.oldInum m)) q (T.rename p) e := by
  obtain ⟨d₁, -, -, hH⟩ := hF
  refine ⟨fun x hx => ?_, fun m hm => ?_, fun m hm j hj => ?_⟩
  · rw [hI.rename_bytes hs.toLeads hbs] at hx
    exact hf.rest x hx
  · obtain ⟨n, hn, rfl⟩ := List.mem_map.mp hm
    have hD := hf.ofImage n hn
    rw [hI.oldInum_eq hs.toLeads hn]
    refine ⟨?_, ?_, hD.idle, hD.live_stop, hbs.symm ▸ hD.stop_le⟩
    · rw [hI.rename_blocks hs.toLeads hn, hD.blocks]
    · rw [rename_live hI hs.toLeads hH hbs hn, hD.live]
  · obtain ⟨n, hn, rfl⟩ := List.mem_map.mp hm
    rw [hI.oldInum_eq hs.toLeads hn, hbs]
    apply hf.byte n hn
    unfold DirTree.size at hj ⊢
    rwa [hI.rename_blocks hs.toLeads hn, hbs] at hj

theorem NoTails.rename (h : NoTails plan T) :
    NoTails (fun m => plan (p.oldInum m)) (T.rename p) := by
  intro m hm
  obtain ⟨n, hn, rfl⟩ := List.mem_map.mp hm
  change (plan (p.oldInum (p.newInum n))).tail = none
  rw [hI.oldInum_eq hs.toLeads hn]
  exact h n hn

theorem Bare.rename (h : Bare plan p T N d) (hbs : q.info.blockSize = p.info.blockSize) :
    Bare (fun m => plan (p.oldInum m)) q (T.rename p) N d := by
  intro m hm
  obtain ⟨n, hn, rfl⟩ := List.mem_map.mp hm
  have hbuf : (T.rename p).buf q d (p.newInum n) = T.buf p d n := by
    unfold DirTree.buf dirBuf
    rw [hI.rename_blocks hs.toLeads hn, hbs]
  change (plan (p.oldInum (p.newInum n))).Fits _ _ _
  rw [hI.oldInum_eq hs.toLeads hn, hbs, hbuf]
  exact h n hn

end Rename

/-- The overlay of the device is an image, or what runs that were cut off have left of one. -/
def Shadow (f : Overlay) (p : Fixup) (T : DirTree) (d₀ d : Device) : Prop :=
  ∃ q T' e₀ plan, Follows p T d₀ q T' e₀ ∧ Draws f plan q T' e₀ ∧ NoTails plan T' ∧
    (InStages q T' e₀ (d.overlay f) ∧ NumsAt plan q T' d ∨
      InSb q T' e₀ False (d.overlay f) ∧ Bare plan q T' LowBits d)

section Shadow

variable {f : Overlay} {plan : ℕ → DirPlan} {p q : Fixup} {T T' : DirTree} {d₀ d e₀ : Device}
  {fuel : ℕ}

/-- A finished migration leaves an image, whose numbers can all be replaced. -/
theorem Follows.shadow (h : Follows p T d₀ q T' e₀) (hf : Draws f plan q T' e₀)
    (htails : NoTails plan T') (hF : Finished q T' e₀ (d.overlay f))
    (hB : Bare plan q T' LowBits d) : Shadow f p T d₀ d := by
  obtain ⟨q', hnext, hsucc⟩ := h.next hF
  have hbs := hsucc.kin.blockSize
  refine ⟨q', _, _, _, hnext, hf.rename h.image h.compatible hF hbs,
    htails.rename h.image h.compatible, Or.inl ⟨Or.inl rfl, ?_⟩⟩
  refine Bare.numsAt (show Mode.markInodeNums ≠ .updateInodeNums by decide) ?_
  refine (hB.rename h.image h.compatible hbs).mono fun x hx => ⟨hx, fun _ => ?_⟩
  rw [newInum_of_aligned hsucc.aligned (Nat.pos_of_ne_zero hx), and_low31]
  exact Nat.mod_lt _ (by decide)

variable (hF : Follows p T d₀ q T' e₀) (hf : Draws f plan q T' e₀) (htails : NoTails plan T')

include hF hf htails

/-- Where a run is cut off in its first stages. -/
theorem Follows.shadow_of_stages (hd : InStages q T' e₀ (d.overlay f)) (hB : NumsAt plan q T' d) :
    Shadow f p T d₀ d := ⟨q, T', e₀, plan, hF, hf, htails, Or.inl ⟨hd, hB⟩⟩

/-- The last stage keeps step with itself. -/
theorem superblockStage_steps (htrial : TrialOk q e₀) {q' : Fixup} (hkin : Kin q q')
    (hdesc : q'.bgDesc = primaryDesc q (d.overlay f)) (hd : InSb q T' e₀ False (d.overlay f))
    (hB : Bare plan q T' LowBits d) :
    Steps f (Shadow f p T d₀) (superblockStage q') (superblockStage q') (fun _ _ => True) d := by
  have hspec := superblockStage_spec hF.image htrial hkin hdesc hd
  have hcrash : Crash (fun d' => InSb q T' e₀ False d' ∨ Finished q T' e₀ d') (superblockStage q')
      (d.overlay f) (Returns fun _ _ => True) :=
    hspec.mono (fun _ h => h) fun _ _ ⟨a, ha, _⟩ => ⟨a, ha, trivial⟩
  refine Steps.mono (Lockstep.of_avoids (superblockStage_avoids hF.image hkin) hf.rest
    (fun d' w hd' hw => hd'.apply_rest hw) hB hcrash False.elim) hcrash ?_ fun _ _ _ => trivial
  rintro d' (h | h) hB'
  · exact ⟨q, T', e₀, plan, hF, hf, htails, Or.inr ⟨h, hB'⟩⟩
  · exact hF.shadow hf htails h hB'

end Shadow

section Runs

variable {f : Overlay} {p : Fixup} {T : DirTree} {d₀ d : Device} {fuel : ℕ}
  {C : Device → Prop}

/-- A run keeps step with the run on the overlay. -/
theorem Shadow.run (hfuel : T.depth EXT4_ROOT_INO < fuel) (htrial : TrialOk p d₀)
    (h : Shadow f p T d₀ d) :
    Steps f (Shadow f p T d₀) (ext4fixupInternal fuel) (ext4fixupInternal fuel)
      (fun _ _ => True) d := by
  obtain ⟨q, T', e₀, plan, hF, hf, htails, h⟩ := h
  have hI := hF.image
  have hroot := hF.compatible.root
  have hfuel : T'.depth EXT4_ROOT_INO < fuel := hF.depth ▸ hfuel
  have htrial := hF.trial htrial
  have hpasses : TrialPasses q e₀ := (trialPasses_iff hI.size_ge).mpr htrial
  have hoff := (hf.sameOff d).symm
  -- the last stage
  have hlast : InSb q T' e₀ False (d.overlay f) → Bare plan q T' LowBits d →
      Steps f (Shadow f p T d₀) (ext4fixupInternal fuel) (ext4fixupInternal fuel)
        (fun _ _ => True) d := by
    intro hd hB
    obtain ⟨q', root', hp, hkin, hdesc, hroot', hdir, hplace⟩ := hd.root hI hF.compatible
    obtain ⟨root, hread, hsame⟩ := readRoot_off hI hoff hplace hroot'
    have hdir' : isDirInode root = true := (isDirInode_congr hsame).trans hdir
    have hstate' : getFsFixupState (d.overlay f) = .ok .updatingSb := by
      obtain ⟨d₁, hR, -, hH⟩ := hd
      rw [hH.state hI, hR.state]
    have hstate : getFsFixupState d = .ok .updatingSb := (hf.state hI d).symm.trans hstate'
    refine (superblockStage_steps hF hf htails htrial hkin hdesc hd hB).congr ?_ ?_
    · rw [internal_eq (readExt_off hI hoff hkin hp) hread hdir',
        bind_of_eq (directoryStages_eq_pure q' fuel root hstate)]
    · rw [internal_eq hp hroot' hdir, bind_of_eq (directoryStages_eq_pure q' fuel root' hstate')]
  -- the stages on directories, and the last stage behind them
  have hstages : Resumable q T' e₀ (d.overlay f) → NumsAt plan q T' d →
      Steps f (Shadow f p T d₀) (ext4fixupInternal fuel) (ext4fixupInternal fuel)
        (fun _ _ => True) d := by
    intro hd hB
    obtain ⟨root', root₀, hp, hroot', hdir, hread₀, hsame', ⟨-, hfails⟩ | ⟨-, hcrash⟩⟩ :=
      hd.stages hI hF.unset hfuel
    · exact absurd hpasses hfails
    obtain ⟨root, hread, hsame⟩ := readRoot_off hI hoff rfl hroot'
    have hdir' : isDirInode root = true := (isDirInode_congr hsame).trans hdir
    obtain ⟨_, hres, hdone⟩ := hcrash.done
    have hcrash' : Crash (InStages q T' e₀) (directoryStages q fuel root') (d.overlay f)
        (Returns fun _ _ => True) :=
      hcrash.mono (fun _ h => h) fun _ _ ⟨a, ha, _⟩ => ⟨a, ha, trivial⟩
    have hdirs := directoryStages_lockstep hI hf htails hroot hfuel hread₀ (hsame.trans hsame')
      hsame' hF.unset hB hcrash' False.elim
    have hbehind := hdirs.keeps_final.bare
    rw [← hdirs.final] at hdone
    refine Steps.congr ((hdirs.mono hcrash' (fun d' h hB => hF.shadow_of_stages hf htails h hB)
      fun _ _ h => h).bind fun _ _ _ _ _ => ?_) (internal_eq (readExt_off hI hoff (.refl q) hp)
        hread hdir') (internal_eq hp hroot' hdir)
    exact superblockStage_steps hF hf htails htrial (.refl q) (hdone.primaryDesc_eq hI)
      (hdone.inSb hI) hbehind
  rcases h with ⟨hd | hd | hd | hd, hB⟩ | ⟨hd, hB⟩
  · exact hstages (Or.inl hd) hB
  · exact hstages (Or.inr ⟨hpasses, Or.inl hd⟩) hB
  · exact hstages (Or.inr ⟨hpasses, Or.inr hd⟩) hB
  · exact hlast (hd.inSb hI) hB.bare
  · exact hlast hd hB

/-- What is found after any number of runs, cut off or not. -/
theorem Shadow.runs (hfuel : T.depth EXT4_ROOT_INO < fuel) (htrial : TrialOk p d₀) {e : Device}
    (h : Shadow f p T d₀ e) (hd : Runs C fuel e d) : Shadow f p T d₀ d := by
  induction hd with
  | start => exact h
  | run _ _ hws ih => exact (ih.run hfuel htrial).keeps _ hws

end Runs

end SystemExtras.Ext4
