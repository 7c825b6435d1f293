import SystemExtras.Ext4.FixupClean

/-!
# What is left behind the last record

The check of the directories passes over up to eight bytes behind the last record, and the
marking pass takes them for one more entry.  Where it can do nothing with them
(`DirTree.Stray`), it fails; by then the state word has been written.

## Strategy

The marking pass on the device is compared with the one on the overlay, which is an image,
but only as far as it returns.  It does not come past a stray entry (`Stray.walk_fails`), so
it never writes a directory that has one.  The pass on the image marks every entry.  Were
both to return, the entries of such a directory would be marked and not marked, so the pass
on the device fails (`Cleans.marking_fails`).
-/

namespace SystemExtras.Ext4

open DevM

section Walk

variable {p : Fixup} {T : DirTree} {d e : Device} {n fuel : ℕ} {b : Mem} {prev : Option ℕ}
  {recurseDir : Mem → ℕ → DevM Stop Unit}

/-- The marking pass does not treat a short rest in a special way. -/
theorem walk_marking {size o : ℕ} (hlt : o < size) :
    walk p .markInodeNums recurseDir size (fuel + 1) b o prev =
      if size < o + 4 then DevM.fail .undefined
      else if (DirEntry.inode.at_ o).get b = 0 then pure b
      else if size < o + DirEntry.nameOffset then DevM.fail .undefined
      else (do
        let name ← DevM.query fun _ => entryName b size o
        visitEntry p .markInodeNums recurseDir ((DirEntry.fileType.at_ o).get b) name
          ((DirEntry.inode.at_ o).get b)
        walk p .markInodeNums recurseDir size fuel
          ((DirEntry.inode.at_ o).set b
            (processInum p .markInodeNums ((DirEntry.inode.at_ o).get b)))
          (o + (DirEntry.recLen.at_ o).get b) (some o)) := by
  have hmode : decide (Mode.markInodeNums ≠ .markInodeNums ∧ size - o ≤ 8) = false :=
    decide_eq_false fun h => h.1 rfl
  conv_lhs => unfold walk
  rw [if_neg (not_le.mpr hlt), hmode]
  cases prev with
  | none => rfl
  | some q => rfl

/-- The marking pass fails at an entry that is a directory by its type and none by its inode. -/
theorem visitEntry_fails {name : List UInt8} {inum : ℕ} {inode : Mem} (hdot : name ≠ [46])
    (hdotdot : name ≠ [46, 46]) (hread : readInode p (inum &&& 0x7fffffff) e = .ok inode)
    (hfile : isDirInode inode = false) : (visitEntry p .markInodeNums recurseDir EXT4_FT_DIR name
      inum).result e = .error (.criticalError
        "inode %d for name %s does not point to a directory\n") := by
  have hisDir : isEntryDir p .markInodeNums EXT4_FT_DIR inum e = .ok true := if_pos rfl
  unfold visitEntry DevM.result
  rw [bind_of_eq (x := DevM.query (isEntryDir p .markInodeNums EXT4_FT_DIR inum))
      (Prod.ext hisDir rfl),
    if_pos ⟨rfl, hdot, hdotdot, fun h => by cases h⟩,
    bind_of_eq (x := DevM.query (readInode p (inum &&& 0x7fffffff))) (Prod.ext hread rfl),
    if_pos (by simp [hfile])]
  rfl

theorem DirTree.Stray.not_clear (h : T.Stray p d n) : ¬ T.Clear p d n := by
  rintro (heq | ⟨hle, hzero⟩)
  · exact absurd heq h.stop_lt.ne
  · exact h.used hle hzero

/-- The marking pass does not come past a stray entry. -/
theorem DirTree.Stray.walk_fails (h : T.Stray p d n)
    (hb : b.SameOn (T.buf p d n) (T.stop p d n) (T.size p n))
    (hread : recFileType (T.buf p d n) (T.stop p d n) = EXT4_FT_DIR → ∀ inode,
      readInode p (T.strayInum p d n) d = .ok inode → ∃ inode',
        readInode p (T.strayInum p d n) e = .ok inode' ∧
          inode'.SameOn inode 0 DirTree.inodeBytes) :
    ∃ err, (walk p .markInodeNums recurseDir (T.size p n) (fuel + 1) b (T.stop p d n)
      prev).result e = .error err := by
  obtain ⟨hlt, hle, hused, hharm⟩ := h
  unfold strayInum at hread hharm
  generalize T.stop p d n = o at hb hread hlt hle hused hharm ⊢
  have hoff : DirEntry.nameOffset = 8 := rfl
  rw [walk_marking hlt]
  by_cases hfour : T.size p n < o + 4
  · rw [if_pos hfour]
    exact ⟨_, rfl⟩
  have hinum : (DirEntry.inode.at_ o).get b = recInum (T.buf p d n) o :=
    Field.get_congr hb (Nat.le_refl _) (by
      simp only [DirEntry.inode, Field.at_]
      omega)
  rw [if_neg hfour, hinum, if_neg (hused (not_lt.mp hfour))]
  by_cases height : T.size p n < o + DirEntry.nameOffset
  · rw [if_pos height]
    exact ⟨_, rfl⟩
  rw [if_neg height]
  have hname : (DirEntry.nameLen.at_ o).get b = (DirEntry.nameLen.at_ o).get (T.buf p d n) := by
    refine Field.get_congr hb ?_ ?_ <;> simp only [DirEntry.nameLen, Field.at_] <;> omega
  have htype : (DirEntry.fileType.at_ o).get b = recFileType (T.buf p d n) o := by
    refine Field.get_congr hb ?_ ?_ <;> simp only [DirEntry.fileType, Field.at_] <;> omega
  have hinside : T.size p n - (o + DirEntry.nameOffset) = 0 := by omega
  by_cases hlen : (DirEntry.nameLen.at_ o).get (T.buf p d n) = 0
  · obtain ⟨hdir, inode, hinode, hfile⟩ :=
      (hharm.resolve_left (by omega)).resolve_left (not_not.mpr hlen)
    obtain ⟨inode', hinode', hsame⟩ := hread hdir inode hinode
    have hentry : entryName b (T.size p n) o = .ok [] := by
      unfold entryName
      rw [hname, hlen]
      rfl
    have hfile' : isDirInode inode' = false := (isDirInode_congr hsame).trans hfile
    have hvisit : (visitEntry p .markInodeNums recurseDir EXT4_FT_DIR []
        (recInum (T.buf p d n) o)).result e = _ :=
      visitEntry_fails (by simp) (by simp) hinode' hfile'
    rw [htype, hdir]
    have hrest := fun k : Unit → DevM Stop Mem => (bind_of_error (f := k) hvisit).1
    unfold DevM.result at hrest ⊢
    rw [bind_of_eq (x := DevM.query fun _ => entryName b (T.size p n) o) (Prod.ext hentry rfl)]
    exact ⟨_, hrest _⟩
  · have hentry : entryName b (T.size p n) o = .error .undefined := by
      unfold entryName
      simp only [hname, hinside, Nat.min_zero]
      exact if_pos ⟨Nat.pos_of_ne_zero hlen, List.not_mem_nil⟩
    exact ⟨_, (bind_of_error (x := DevM.query fun _ => entryName b (T.size p n) o) hentry).1⟩

end Walk

section Marking

variable {f : Overlay} {p : Fixup} {T : DirTree} {d d₁ e : Device} {n fuel : ℕ}

/-- The overlay of a directory depends on the directory only. -/
theorem buf_overlay_congr (h : T.buf p e n = T.buf p d n) :
    T.buf p (e.overlay f) n = T.buf p (d.overlay f) n := by
  funext j
  have hj := congrFun h j
  unfold DirTree.buf dirBuf at hj ⊢
  by_cases hlt : j < p.info.blockSize * (T.blocks n).length
  · rw [if_pos hlt, if_pos hlt] at hj ⊢
    rw [Device.overlay_bytes, Device.overlay_bytes, hj]
  · rw [if_neg hlt, if_neg hlt]

variable (hT : Searchable p T d) (hM : Migratable p T d) (hC : Cleans f p T d)

include hM hC

/-- The marking pass fails wherever something is left behind the last record. -/
theorem Cleans.tailsFail (hR : StageRest (d.overlay f) .markingInums d₁) :
    TailsFail f (T.plan p d) p (T.clean p d) (d.overlay f) d₁ .markInodeNums True := by
  intro n hn m hm
  have hn : n ∈ T.dirs := hn
  obtain ⟨hclear, rfl⟩ := tail_eq_some.mp hm
  have hstray := (hC.sound n hn).leftover.resolve_left hclear
  refine ⟨trivial, fun e ⟨val, hH, _⟩ recurseDir fuel b prev hb =>
    hstray.walk_fails hb fun htype inode hread => ?_⟩
  have hsize : e.size = d.size := hH.size.trans hR.size
  refine readInode_congr hsize (fun x h₁ h₂ => ?_) hread
  have hx : x ∈ T.searchBytes p d :=
    Or.inl ⟨_, Or.inr (Or.inr ⟨n, hn, hstray, htype, rfl⟩), h₁, h₂⟩
  have hdirs : x ∉ T.bytes p := fun h => Set.disjoint_left.mp hM.dirs_search h hx
  calc e.bytes x = (e.overlay f).bytes x := (hC.rest x hdirs _).symm
    _ = d₁.bytes x := hH.rest x hdirs
    _ = (d.overlay f).bytes x := hR.outside x (Set.disjoint_left.mp hM.search_state hx) fun h =>
        Set.disjoint_left.mp hM.search_copies hx ((hasCopy_zero hM.groups_pos).primarySb_subset h)
    _ = d.bytes x := hC.bytes_eq hdirs

include hT

/-- A run that finds the state word of the marking pass fails if there is a stray entry. -/
theorem Cleans.marking_fails (hunset : getFsFixupState d = .ok .unset)
    (hfuel : T.depth EXT4_ROOT_INO < fuel) (hn : n ∈ T.dirs) (hstray : T.Stray p d n) :
    (ext4fixupInternal fuel).result ((setFsFixupState .markingInums).final d) ≠ .ok () := by
  have hI := hC.image hT hM
  have hf := hC.draws hT hM
  have hroot := hM.steady.root
  have htail : (T.plan p d n).tail ≠ none := by
    rw [tail_eq_some.mpr ⟨hstray.not_clear, rfl⟩]
    exact Option.some_ne_none _
  have hmagic : FixupState.markingInums.magic ≠ 0 := by decide
  have hset := setFsFixupState_spec hI hmagic (.refl ((hf.state hI d).trans hunset)) hI.holds
  obtain ⟨_, hres, d₁, hR, -, hH⟩ := hset.done
  -- setting the state word leaves the directories alone
  have hsteps : Steps f (fun d' => Bare (T.plan p d) p (T.clean p d) (NumOk p .markInodeNums) d' ∧
      Spared (T.plan p d) p (T.clean p d) d d') (setFsFixupState .markingInums)
      (setFsFixupState .markingInums) (fun a a' => a = a') d :=
    Lockstep.of_avoids (G := False) (setFsFixupState_avoids hI _) hf.rest
      (fun d' w h hw => ⟨h.1.apply_rest hw, h.2.apply_rest hw⟩)
      ⟨hC.bare, fun _ _ _ => rfl⟩ (hset.mono (fun _ h => h) fun _ _ ⟨a, ha, _⟩ => ⟨a, ha, trivial⟩)
      False.elim
  have hover := hsteps.final
  have hkeep := hsteps.keeps_final
  rw [← hover] at hH
  generalize (setFsFixupState .markingInums).final d = e at hH hkeep ⊢
  intro hret
  -- the run starts with the marking pass
  have hS := hR.sameNav hI
  have hoff := (hf.sameOff e).symm
  obtain ⟨root₀, hread₀, hdir⟩ := hI.inode _ hI.root_mem
  obtain ⟨root', hroot', hsame'⟩ := hH.readInode hI hS (Or.inl hI.root_mem) hread₀
  obtain ⟨root, hread, hsame⟩ := readRoot_off hI hoff rfl hroot'
  have hp := readExt_off hI hoff (.refl p) (hR.readExt hI hH)
  have hisdir : isDirInode root = true := by
    rw [isDirInode_congr hsame, isDirInode_congr hsame', hdir.isDir]
  have hstate : getFsFixupState e = .ok .markingInums := by
    rw [← hf.state hI e, hH.state hI, hR.state]
  obtain ⟨_, hpass⟩ : ∃ a,
      (recurseDir p .markInodeNums fuel root (dirSize root)).result e = .ok a := by
    unfold DevM.result at hret
    rw [internal_eq hp hread hisdir] at hret
    obtain ⟨_, hdirs, -⟩ := result_bind_eq_ok.mp hret
    unfold directoryStages DevM.result at hdirs
    rw [bind_of_eq (inState_eq_pure hstate (by decide))] at hdirs
    obtain ⟨_, hstage, -⟩ := result_bind_eq_ok.mp hdirs
    unfold DevM.result at hstage
    rw [inState_eq_stage hstate] at hstage
    obtain ⟨a, ha, -⟩ := result_bind_eq_ok.mp hstage
    exact ⟨a, ha⟩
  have hspec := pass_spec hI hS hfuel hread₀ hsame' hH (Prog.start hI .markInodeNums)
  obtain ⟨_, -, hmarked⟩ := hspec.done
  have hcrash : Crash (PassAt p (T.clean p d) (d.overlay f) d₁ .markInodeNums)
      (recurseDir p .markInodeNums fuel root' (dirSize root')) (e.overlay f)
      (Returns fun _ _ => True) :=
    hspec.mono (fun _ h => h) fun _ _ ⟨a, ha, _⟩ => ⟨a, ha, trivial⟩
  rw [(hI.dirImage.dirSize_eq hI.root_mem hread₀ (hsame.trans hsame')).1] at hpass
  rw [(hI.dirImage.dirSize_eq hI.root_mem hread₀ hsame').1] at hcrash hmarked
  have hpasses := recurseDir_lockstep hI hS hf hroot (hC.tailsFail hM hR) d fuel _ hI.root_mem root
    root' root₀ e hread₀ (hsame.trans hsame') hsame' hkeep hcrash fun _ => ⟨_, hpass⟩
  -- an entry of the directory is marked and not marked
  obtain ⟨r, hr⟩ := List.exists_mem_of_ne_nil _ (hstray.records_ne_nil hT)
  have hlive : r ∈ (T.clean p d).live p (d.overlay f) n := (hC.live_clean hT hM hn).symm ▸ hr
  have hsame := buf_overlay_congr (f := f) (hpasses.keeps_final.2 n hn htail)
  rw [hpasses.final] at hsame
  have hbit := hmarked.marked hI hn hlive
  rw [hsame] at hbit
  exact not_marked_of_lt (hI.entry n hn r hlive).inum_lt hbit

end Marking

end SystemExtras.Ext4
