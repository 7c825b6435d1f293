import SystemExtras.Ext4.FixupImage

/-!
# Directories with other inode numbers

The passes of the fixup change nothing but the inode numbers in the live records
of directories.  `T.renum p d₀ val n` is the directory `n` of the image `d₀` with
the numbers `val` in its live records, and `Holds p T d₀ d₁ val d` says that every
directory on the device `d` looks like that and that the rest of `d` is as on
`d₁`.

As long as `d₁` agrees with the image on what the tool needs to find its way
(`SameNav`), a device that `Holds` something answers every read as the image did
(`Holds.readInode`, `Holds.blockList`, `Holds.readBlocks`), and writing back one
block of a directory changes the numbers in that block and no others
(`Holds.write_block`).
-/

namespace SystemExtras.Ext4

/-! ## Records that tile a directory -/

namespace Tiles

variable {buf : Mem} {blockSize size : ℕ}

theorem le {rs : List ℕ} : ∀ {o : ℕ}, Tiles buf blockSize size o rs → o ≤ size := by
  induction rs with
  | nil => exact fun h => Nat.le_of_eq h
  | cons r rest ih =>
      rintro o ⟨rfl, -, hrest⟩
      exact (Nat.le_add_right _ _).trans (ih hrest)

theorem mem {rs : List ℕ} : ∀ {o : ℕ}, Tiles buf blockSize size o rs → ∀ r ∈ rs,
    o ≤ r ∧ RecordOk buf blockSize r ∧ r + recLength buf r ≤ size := by
  induction rs with
  | nil => exact fun _ r hr => absurd hr (List.not_mem_nil)
  | cons r rest ih =>
      rintro o ⟨rfl, hok, hrest⟩ r' hr'
      rcases List.mem_cons.mp hr' with rfl | hr'
      · exact ⟨le_rfl, hok, hrest.le⟩
      · obtain ⟨h₁, h₂⟩ := ih hrest r' hr'
        exact ⟨(Nat.le_add_right _ _).trans h₁, h₂⟩

/-- Records follow each other without sharing a byte. -/
theorem pairwise {rs : List ℕ} : ∀ {o : ℕ}, Tiles buf blockSize size o rs →
    rs.Pairwise fun r r' => r + recLength buf r ≤ r' := by
  induction rs with
  | nil => exact fun _ => List.Pairwise.nil
  | cons r rest ih =>
      rintro o ⟨rfl, -, hrest⟩
      exact List.pairwise_cons.mpr ⟨fun r' hr' => (hrest.mem r' hr').1, ih hrest⟩

theorem apart {rs : List ℕ} {o r r' : ℕ} (h : Tiles buf blockSize size o rs) (hr : r ∈ rs)
    (hr' : r' ∈ rs) (hne : r ≠ r') : r + recLength buf r ≤ r' ∨ r' + recLength buf r' ≤ r := by
  have hpair : rs.Pairwise fun a b => a + recLength buf a ≤ b ∨ b + recLength buf b ≤ a :=
    h.pairwise.imp Or.inl
  have : Std.Symm fun a b => a + recLength buf a ≤ b ∨ b + recLength buf b ≤ a :=
    ⟨fun _ _ h => h.symm⟩
  exact hpair.forall hr hr' hne

/-- Only the records themselves matter. -/
theorem congr {buf' : Mem} {rs : List ℕ} :
    ∀ {o : ℕ}, Tiles buf blockSize size o rs →
      (∀ r ∈ rs, RecordOk buf' blockSize r ∧ recLength buf' r = recLength buf r) →
      Tiles buf' blockSize size o rs := by
  induction rs with
  | nil => exact fun h _ => h
  | cons r rest ih =>
      rintro o ⟨rfl, -, hrest⟩ h
      obtain ⟨hok, hlen⟩ := h r List.mem_cons_self
      exact ⟨rfl, hok, hlen.symm ▸ ih hrest fun r' hr' => h r' (List.mem_cons_of_mem _ hr')⟩

end Tiles

/-! ## Renumbered directories -/

namespace DirTree

/-- The directory `n` of the image with the numbers `val` in its live records. -/
def renum (T : DirTree) (p : Fixup) (d₀ : Device) (val : ℕ → ℕ) (n : ℕ) : Mem := fun x =>
  match (T.live p d₀ n).find? fun r => decide (r ≤ x ∧ x < r + 4) with
  | some r => UInt8.ofNat (val r / 256 ^ (x - r))
  | none => T.buf p d₀ n x

end DirTree

section Renum

variable {p : Fixup} {T : DirTree} {d₀ : Device} {n : ℕ} {val val' : ℕ → ℕ}

theorem live_subset {r : ℕ} (hr : r ∈ T.live p d₀ n) : r ∈ T.records n :=
  (List.mem_filter.mp hr).1

theorem recInum_ne_zero_of_live {r : ℕ} (hr : r ∈ T.live p d₀ n) :
    recInum (T.buf p d₀ n) r ≠ 0 := by
  simpa [DirTree.live, hr] using (List.mem_filter.mp hr).2

theorem mem_live {r : ℕ} : r ∈ T.live p d₀ n ↔
    r ∈ T.records n ∧ recInum (T.buf p d₀ n) r ≠ 0 := by
  simp [DirTree.live]

theorem renum_of_not_mem {x : ℕ} (h : ∀ r ∈ T.live p d₀ n, x < r ∨ r + 4 ≤ x) :
    T.renum p d₀ val n x = T.buf p d₀ n x := by
  have hnone : (T.live p d₀ n).find? (fun r => decide (r ≤ x ∧ x < r + 4)) = none := by
    rw [List.find?_eq_none]
    intro r hr
    have := h r hr
    simp only [decide_eq_true_eq]
    omega
  unfold DirTree.renum
  rw [hnone]

variable (hI : DirImage p T d₀) (hn : n ∈ T.dirs)

include hI hn

theorem DirImage.live_apart {r r' : ℕ} (hr : r ∈ T.live p d₀ n) (hr' : r' ∈ T.records n)
    (hne : r ≠ r') : r + 12 ≤ r' ∨ r' + recLength (T.buf p d₀ n) r' ≤ r := by
  have h₁ := ((hI.tiles n hn).mem r (live_subset hr)).2.1.minLength
  rcases (hI.tiles n hn).apart (live_subset hr) hr' hne with h | h
  · exact Or.inl (by omega)
  · exact Or.inr h

theorem renum_of_mem {r x : ℕ} (hr : r ∈ T.live p d₀ n) (h₁ : r ≤ x) (h₂ : x < r + 4) :
    T.renum p d₀ val n x = UInt8.ofNat (val r / 256 ^ (x - r)) := by
  have hsome : (T.live p d₀ n).find? (fun r => decide (r ≤ x ∧ x < r + 4)) = some r := by
    cases hf : (T.live p d₀ n).find? (fun r => decide (r ≤ x ∧ x < r + 4)) with
    | none =>
        rw [List.find?_eq_none] at hf
        exact absurd (decide_eq_true (And.intro h₁ h₂)) (hf r hr)
    | some r' =>
        have hr' := List.mem_of_find?_eq_some hf
        have hx : r' ≤ x ∧ x < r' + 4 := by simpa using List.find?_some hf
        by_contra hne
        have hne : r ≠ r' := fun h => hne (congrArg some h.symm)
        have hmin := ((hI.tiles n hn).mem r' (live_subset hr')).2.1.minLength
        rcases hI.live_apart hn hr (live_subset hr') hne with h | h <;> omega
  unfold DirTree.renum
  rw [hsome]

/-- A live record holds the number it was given. -/
theorem recInum_renum {r : ℕ} (hr : r ∈ T.live p d₀ n) :
    recInum (T.renum p d₀ val n) r = u32 (val r) := by
  have : recInum (T.renum p d₀ val n) r = val r % 256 ^ 4 := by
    apply Mem.load_eq_of_bytes
    intro i hi
    change i < 4 at hi
    have hoff : (DirEntry.inode.at_ r).offset = r := rfl
    rw [hoff, renum_of_mem hI hn hr (by omega) (by omega), Nat.add_sub_cancel_left]
  rw [this, u32]
  norm_num

/-- Behind its inode number a record is what it was. -/
theorem renum_sameOn {r : ℕ} (hr : r ∈ T.records n) :
    (T.renum p d₀ val n).SameOn (T.buf p d₀ n) (r + 4) (r + recLength (T.buf p d₀ n) r) := by
  intro x h₁ h₂
  apply renum_of_not_mem
  intro r' hr'
  by_cases hne : r' = r
  · subst hne
    exact Or.inr h₁
  · rcases hI.live_apart hn hr' hr hne with h | h <;> omega

/-- A record that is not in use keeps its zero. -/
theorem recInum_renum_of_dead {r : ℕ} (hr : r ∈ T.records n) (hdead : r ∉ T.live p d₀ n) :
    recInum (T.renum p d₀ val n) r = 0 := by
  have hzero : recInum (T.buf p d₀ n) r = 0 := by
    by_contra h
    exact hdead (mem_live.mpr ⟨hr, h⟩)
  rw [← hzero]
  apply Mem.load_congr
  intro i hi
  change i < 4 at hi
  have hoff : (DirEntry.inode.at_ r).offset = r := rfl
  rw [hoff]
  apply renum_of_not_mem
  intro r' hr'
  have hne : r' ≠ r := fun h => hdead (h ▸ hr')
  have hmin := ((hI.tiles n hn).mem r hr).2.1.minLength
  rcases hI.live_apart hn hr' hr hne with h | h <;> omega

theorem recLength_renum {r : ℕ} (hr : r ∈ T.records n) :
    recLength (T.renum p d₀ val n) r = recLength (T.buf p d₀ n) r := by
  have hmin := ((hI.tiles n hn).mem r hr).2.1.minLength
  refine Field.get_congr (renum_sameOn hI hn hr) ?_ ?_ <;>
    simp only [DirEntry.recLen, Field.at_] <;> omega

theorem recFileType_renum {r : ℕ} (hr : r ∈ T.records n) :
    recFileType (T.renum p d₀ val n) r = recFileType (T.buf p d₀ n) r := by
  have hmin := ((hI.tiles n hn).mem r hr).2.1.minLength
  refine Field.get_congr (renum_sameOn hI hn hr) ?_ ?_ <;>
    simp only [DirEntry.fileType, Field.at_] <;> omega

theorem nameLen_renum {r : ℕ} (hr : r ∈ T.records n) :
    (DirEntry.nameLen.at_ r).get (T.renum p d₀ val n) =
      (DirEntry.nameLen.at_ r).get (T.buf p d₀ n) := by
  have hmin := ((hI.tiles n hn).mem r hr).2.1.minLength
  refine Field.get_congr (renum_sameOn hI hn hr) ?_ ?_ <;>
    simp only [DirEntry.nameLen, Field.at_] <;> omega

theorem recName_renum {r : ℕ} (hr : r ∈ T.records n) :
    recName (T.renum p d₀ val n) r = recName (T.buf p d₀ n) r := by
  have hname := ((hI.tiles n hn).mem r hr).2.1.name
  unfold recName
  rw [nameLen_renum hI hn hr]
  congr 1
  apply List.map_congr_left
  intro i hi
  rw [List.mem_range] at hi
  unfold DirEntry.nameOffset at hname ⊢
  exact renum_sameOn hI hn hr _ (by omega) (by omega)

theorem recordOk_renum {r : ℕ} (hr : r ∈ T.records n) :
    RecordOk (T.renum p d₀ val n) p.info.blockSize r := by
  have hok := ((hI.tiles n hn).mem r hr).2.1
  refine ⟨?_, ?_, ?_⟩
  · rw [recLength_renum hI hn hr]
    exact hok.minLength
  · rw [recLength_renum hI hn hr, nameLen_renum hI hn hr]
    exact hok.name
  · rw [recLength_renum hI hn hr]
    exact hok.inBlock

theorem tiles_renum :
    Tiles (T.renum p d₀ val n) p.info.blockSize (T.size p n) 0 (T.records n) :=
  (hI.tiles n hn).congr fun _ hr => ⟨recordOk_renum hI hn hr, recLength_renum hI hn hr⟩

/-- Assigning to the number of a live record. -/
theorem set_renum {r : ℕ} (hr : r ∈ T.live p d₀ n) (v : ℕ) :
    (DirEntry.inode.at_ r).set (T.renum p d₀ val n) v =
      T.renum p d₀ (Function.update val r v) n := by
  funext x
  by_cases hx : r ≤ x ∧ x < r + 4
  · rw [renum_of_mem hI hn hr hx.1 hx.2, Function.update_self]
    exact Mem.store_apply_of_mem hx.1 hx.2
  · have hset : (DirEntry.inode.at_ r).set (T.renum p d₀ val n) v x = T.renum p d₀ val n x :=
      Mem.store_apply_of_not_mem (by
        simp only [DirEntry.inode, Field.at_]
        omega)
    rw [hset]
    by_cases hother : ∃ r' ∈ T.live p d₀ n, r' ≤ x ∧ x < r' + 4
    · obtain ⟨r', hr', h₁, h₂⟩ := hother
      have hne : r' ≠ r := by
        rintro rfl
        exact hx ⟨h₁, h₂⟩
      rw [renum_of_mem hI hn hr' h₁ h₂, renum_of_mem hI hn hr' h₁ h₂, Function.update_of_ne hne]
    · have hout : ∀ r' ∈ T.live p d₀ n, x < r' ∨ r' + 4 ≤ x := by
        intro r' hr'
        by_contra h
        exact hother ⟨r', hr', by omega, by omega⟩
      rw [renum_of_not_mem hout, renum_of_not_mem hout]

omit hI hn in
/-- Only the numbers of live records that reach a byte matter for it. -/
theorem renum_congr {x : ℕ} (h : ∀ r ∈ T.live p d₀ n, r ≤ x → x < r + 4 → val r = val' r) :
    T.renum p d₀ val n x = T.renum p d₀ val' n x := by
  unfold DirTree.renum
  cases hf : (T.live p d₀ n).find? (fun r => decide (r ≤ x ∧ x < r + 4)) with
  | none => rfl
  | some r =>
      have hx : r ≤ x ∧ x < r + 4 := by simpa using List.find?_some hf
      simp only
      rw [h r (List.mem_of_find?_eq_some hf) hx.1 hx.2]

/-- An image holds its own numbers. -/
theorem renum_self : T.renum p d₀ (recInum (T.buf p d₀ n)) n = T.buf p d₀ n := by
  funext x
  by_cases hx : ∃ r ∈ T.live p d₀ n, r ≤ x ∧ x < r + 4
  · obtain ⟨r, hr, h₁, h₂⟩ := hx
    have hbyte := Mem.byte_of_load (T.buf p d₀ n) r 4 (i := x - r) (by omega)
    rw [show r + (x - r) = x by omega] at hbyte
    rw [renum_of_mem hI hn hr h₁ h₂, hbyte]
    rfl
  · apply renum_of_not_mem
    intro r hr
    by_contra h
    exact hx ⟨r, hr, by omega, by omega⟩

end Renum

/-! ## Devices with renumbered directories -/

/-- The device `d₁` is as large as the image `d₀` and agrees with it on what the tool
reads to find its way. -/
structure SameNav (p : Fixup) (T : DirTree) (d₀ d₁ : Device) : Prop where
  size : d₁.size = d₀.size
  nav : ∀ x ∈ T.navBytes p d₀, d₁.bytes x = d₀.bytes x

/-- The directories on `d` are those of `d₀` with the numbers `val`, the rest is that
of `d₁`. -/
structure Holds (p : Fixup) (T : DirTree) (d₀ d₁ : Device) (val : ℕ → ℕ → ℕ) (d : Device) :
    Prop where
  size : d.size = d₁.size
  buf : ∀ n ∈ T.dirs, T.buf p d n = T.renum p d₀ (val n) n
  rest : ∀ x ∉ T.bytes p, d.bytes x = d₁.bytes x

/-- The inode number that the image has in a record. -/
def origInum (p : Fixup) (T : DirTree) (d₀ : Device) (n r : ℕ) : ℕ := recInum (T.buf p d₀ n) r

section Fields

variable {p : Fixup} {inode inode' : Mem} (h : inode'.SameOn inode 0 DirTree.inodeBytes)

include h

theorem isDirInode_congr : isDirInode inode' = isDirInode inode := by
  unfold isDirInode
  rw [Field.get_congr h (Nat.zero_le _) (by decide)]

theorem dirSize_congr : dirSize inode' = dirSize inode := by
  unfold dirSize
  rw [Field.get_congr h (Nat.zero_le _) (by decide)]

end Fields

section HoldsSection

variable {p : Fixup} {T : DirTree} {d₀ d₁ d : Device} {val : ℕ → ℕ → ℕ} {n : ℕ}

theorem DirImage.blockSize_pos (hI : DirImage p T d₀) : 0 < p.info.blockSize := by
  have h := (readExt_eq_ok.mp hI.readExt).perBlock_pos
  rcases Nat.eq_zero_or_pos p.info.blockSize with hz | hpos
  · rw [hz, Nat.zero_div] at h
    omega
  · exact hpos

theorem FixupImage.blockSize_pos (hI : FixupImage p T d₀) : 0 < p.info.blockSize :=
  hI.dirImage.blockSize_pos

/-- The contents of a directory determine its blocks. -/
theorem slice_eq_of_buf {d' : Device} {b : ℕ} (hpos : 0 < p.info.blockSize) (hb : b ∈ T.blocks n)
    (h : T.buf p d n = T.buf p d' n) :
    d.slice (b * p.info.blockSize) p.info.blockSize =
      d'.slice (b * p.info.blockSize) p.info.blockSize := by
  obtain ⟨k, hk, rfl⟩ := List.mem_iff_getElem.mp hb
  apply Device.slice_congr
  intro x h₁ h₂
  obtain ⟨i, rfl⟩ : ∃ i, x = (T.blocks n)[k] * p.info.blockSize + i :=
    ⟨_, (Nat.add_sub_of_le h₁).symm⟩
  have hi : i < p.info.blockSize := by omega
  have hbyte := congrFun h (p.info.blockSize * k + i)
  have hlt : p.info.blockSize * k + i < p.info.blockSize * (T.blocks n).length := by
    calc p.info.blockSize * k + i < p.info.blockSize * k + p.info.blockSize :=
          Nat.add_lt_add_left hi _
      _ = p.info.blockSize * (k + 1) := by ring
      _ ≤ p.info.blockSize * (T.blocks n).length := Nat.mul_le_mul_left _ hk
  unfold DirTree.buf dirBuf at hbyte
  rw [if_pos hlt, if_pos hlt, Nat.mul_add_div hpos, Nat.div_eq_of_lt hi, Nat.add_zero,
    Nat.mul_add_mod, Nat.mod_eq_of_lt hi, List.getD_eq_getElem _ _ hk] at hbyte
  exact hbyte

/-- The blocks of all directories are different. -/
theorem DirTree.block_inj (hnodup : (T.dirs.flatMap T.blocks).Nodup) {m k j : ℕ} (hn : n ∈ T.dirs)
    (hm : m ∈ T.dirs) (hk : k < (T.blocks n).length) (hj : j < (T.blocks m).length)
    (heq : (T.blocks n)[k] = (T.blocks m)[j]) : n = m ∧ k = j := by
  obtain ⟨hnodup, hpair⟩ := List.nodup_flatMap.mp hnodup
  have hsame : n = m := by
    by_contra hne
    have hsymm : Std.Symm (Function.onFun List.Disjoint T.blocks) := ⟨fun _ _ h => h.symm⟩
    have hdis : List.Disjoint (T.blocks n) (T.blocks m) := hpair.forall hn hm hne
    exact hdis (List.getElem_mem hk) (heq ▸ List.getElem_mem hj)
  subst hsame
  exact ⟨rfl, (hnodup n hn).getElem_inj_iff.mp heq⟩

/-- The image holds its own numbers. -/
theorem DirImage.holds (hI : DirImage p T d₀) : Holds p T d₀ d₀ (origInum p T d₀) d₀ :=
  ⟨rfl, fun _ hn => (renum_self hI hn).symm, fun _ _ => rfl⟩

theorem FixupImage.holds (hI : FixupImage p T d₀) : Holds p T d₀ d₀ (origInum p T d₀) d₀ :=
  hI.dirImage.holds

/-- A write outside the directories leaves them alone. -/
theorem buf_apply_rest {w : Write} (hout : ∀ x ∈ T.bytes p, ¬ w.Covers x) (hn : n ∈ T.dirs) :
    T.buf p (d.apply w) n = T.buf p d n := by
  funext i
  unfold DirTree.buf dirBuf
  split
  · rename_i hi
    have hlt : i / p.info.blockSize < (T.blocks n).length := Nat.div_lt_of_lt_mul hi
    apply Device.apply_bytes_of_not_covers
    apply hout
    refine ⟨n, hn, _, List.getElem_mem hlt, ?_⟩
    have hpos : 0 < p.info.blockSize := by
      rcases Nat.eq_zero_or_pos p.info.blockSize with hz | hpos
      · simp [hz] at hi
      · exact hpos
    have hmod := Nat.mod_lt i hpos
    rw [List.getD_eq_getElem _ _ hlt]
    exact ⟨Nat.le_add_right _ _, by omega⟩
  · rfl

/-- What is read of an inode. -/
theorem readInode_congr {d' : Device} {v : ℕ} {inode : Mem} (hsize : d'.size = d.size)
    (h : d'.bytes.SameOn d.bytes (inodeOffset p v) (inodeOffset p v + DirTree.inodeBytes))
    (hread : readInode p v d = .ok inode) :
    ∃ inode', readInode p v d' = .ok inode' ∧ inode'.SameOn inode 0 DirTree.inodeBytes := by
  obtain ⟨hipg, hdesc, hseek, hle, rfl⟩ := readInode_eq_ok.mp hread
  refine ⟨_, readInode_eq_ok.mpr ⟨hipg, hdesc, hseek, hsize ▸ hle, rfl⟩, fun x _ hx => ?_⟩
  have hx' : x < sizeofInode := hx.trans (by decide)
  unfold Device.slice
  rw [if_pos hx', if_pos hx']
  exact h _ (Nat.le_add_right _ _) (by omega)

/-- The block list is a matter of the inode and of the blocks that map the directory. -/
theorem DirInode.blockList_congr {d' : Device} {blocks : List ℕ} {inode inode' : Mem}
    (hdir : DirInode p blocks inode d) (hsame : inode'.SameOn inode 0 DirTree.inodeBytes)
    (hd : d'.size = d.size) (hsize : d.size < 2 ^ 63)
    (hmap : ∀ b ∈ mapBlocks p inode, d'.bytes.SameOn d.bytes (b * p.info.blockSize)
      (b * p.info.blockSize + p.info.blockSize)) (fuel : ℕ) :
    Ext4.blockList p (fuel + 1) inode' blocks.length d' = .ok blocks := by
  rw [← hdir.blockList]
  unfold Ext4.blockList
  rw [blockAssignments_congr hsame hdir.shallow fun b hb => ⟨?_, readBlock_eq hsize
    (hdir.mapBlocks_le b hb)⟩]
  exact readBlock_congr hd (hd ▸ hsize) (hd ▸ hdir.mapBlocks_le b hb) (hmap b hb)

namespace SameNav

variable (h : SameNav p T d₀ d)

include h

theorem readInode {v : ℕ} {inode : Mem} (hv : T.Refers p d₀ v)
    (hread : Ext4.readInode p v d₀ = .ok inode) :
    ∃ inode', Ext4.readInode p v d = .ok inode' ∧ inode'.SameOn inode 0 DirTree.inodeBytes :=
  readInode_congr h.size (fun x h₁ h₂ => h.nav x (Or.inl ⟨v, hv, h₁, h₂⟩)) hread

theorem blockList (hI : DirImage p T d₀) {inode inode' : Mem} (hn : n ∈ T.dirs)
    (hread : Ext4.readInode p n d₀ = .ok inode) (hdir : DirInode p (T.blocks n) inode d₀)
    (hsame : inode'.SameOn inode 0 DirTree.inodeBytes) (fuel : ℕ) :
    Ext4.blockList p (fuel + 1) inode' (T.blocks n).length d = .ok (T.blocks n) :=
  hdir.blockList_congr hsame h.size hI.size_lt
    (fun b hb x h₁ h₂ => h.nav x (Or.inr ⟨n, hn, inode, hread, b, hb, h₁, h₂⟩)) fuel

end SameNav

namespace Holds

/-- Only the numbers of live records matter. -/
theorem congr {val' : ℕ → ℕ → ℕ} (h : Holds p T d₀ d₁ val d)
    (hval : ∀ n ∈ T.dirs, ∀ r ∈ T.live p d₀ n, val n r = val' n r) : Holds p T d₀ d₁ val' d := by
  refine ⟨h.size, fun n hn => ?_, h.rest⟩
  rw [h.buf n hn]
  funext x
  exact renum_congr fun r hr _ _ => hval n hn r hr

/-- A write outside the directories. -/
theorem apply_rest (h : Holds p T d₀ d₁ val d) {w : Write}
    (hout : ∀ x ∈ T.bytes p, ¬ w.Covers x) : Holds p T d₀ (d₁.apply w) val (d.apply w) := by
  refine ⟨?_, fun n hn => ?_, fun x hx => ?_⟩
  · unfold Device.apply
    simp only [h.size]
  · rw [buf_apply_rest hout hn, h.buf n hn]
  · by_cases hcov : w.Covers x
    · rw [Device.apply_bytes_of_covers hcov, Device.apply_bytes_of_covers hcov]
    · rw [Device.apply_bytes_of_not_covers hcov, Device.apply_bytes_of_not_covers hcov, h.rest x hx]

section Reads

variable (hI : DirImage p T d₀) (hS : SameNav p T d₀ d₁) (h : Holds p T d₀ d₁ val d)

include hI hS h

theorem sameNav : SameNav p T d₀ d :=
  ⟨h.size.trans hS.size, fun x hx => by
    rw [h.rest x fun hmem => Set.disjoint_left.mp hI.dirs_nav hmem hx, hS.nav x hx]⟩

theorem readInode {v : ℕ} {inode : Mem} (hv : T.Refers p d₀ v)
    (hread : Ext4.readInode p v d₀ = .ok inode) :
    ∃ inode', Ext4.readInode p v d = .ok inode' ∧ inode'.SameOn inode 0 DirTree.inodeBytes :=
  (h.sameNav hI hS).readInode hv hread

theorem blockList {inode inode' : Mem} (hn : n ∈ T.dirs)
    (hread : Ext4.readInode p n d₀ = .ok inode) (hdir : DirInode p (T.blocks n) inode d₀)
    (hsame : inode'.SameOn inode 0 DirTree.inodeBytes) (fuel : ℕ) :
    Ext4.blockList p (fuel + 1) inode' (T.blocks n).length d = .ok (T.blocks n) :=
  (h.sameNav hI hS).blockList hI hn hread hdir hsame fuel

theorem readBlocks (hn : n ∈ T.dirs) :
    Ext4.readBlocks p d (T.blocks n) = .ok (T.renum p d₀ (val n) n) := by
  have hsize : d.size = d₀.size := h.size.trans hS.size
  rw [readBlocks_eq hI.blockSize_pos (hsize ▸ hI.size_lt) fun b hb =>
    hsize ▸ hI.blocks_le n hn b hb, ← h.buf n hn]
  rfl

end Reads

/-- The bytes of directory `m` after a write to block `k` of directory `n`. -/
theorem buf_apply (hI : DirImage p T d₀) {k m : ℕ} (hn : n ∈ T.dirs) (hm : m ∈ T.dirs)
    (hk : k < (T.blocks n).length) (data : Mem) (i : ℕ) :
    T.buf p (d.apply ⟨(T.blocks n)[k] * p.info.blockSize, p.info.blockSize, data⟩) m i =
      if m = n ∧ i / p.info.blockSize = k then data (i % p.info.blockSize)
      else T.buf p d m i := by
  have hpos := hI.blockSize_pos
  have hmod := Nat.mod_lt i hpos
  unfold DirTree.buf dirBuf
  by_cases hi : i < p.info.blockSize * (T.blocks m).length
  · have hlt : i / p.info.blockSize < (T.blocks m).length := Nat.div_lt_of_lt_mul hi
    rw [if_pos hi, if_pos hi, List.getD_eq_getElem _ _ hlt]
    by_cases hcase : m = n ∧ i / p.info.blockSize = k
    · obtain ⟨rfl, rfl⟩ := hcase
      rw [if_pos ⟨rfl, rfl⟩, Device.apply_bytes_of_covers ⟨Nat.le_add_right _ _, by
        dsimp only
        omega⟩, Nat.add_sub_cancel_left]
    · rw [if_neg hcase]
      apply Device.apply_bytes_of_not_covers
      rintro ⟨h₁, h₂⟩
      dsimp only at h₁ h₂
      apply hcase
      -- a shared byte is a shared block
      have hblock : (T.blocks m)[i / p.info.blockSize] = (T.blocks n)[k] := by
        have hdiv : ∀ b, (b * p.info.blockSize + i % p.info.blockSize) / p.info.blockSize = b := by
          intro b
          rw [Nat.mul_comm, Nat.mul_add_div hpos, Nat.div_eq_of_lt hmod, Nat.add_zero]
        rw [← hdiv ((T.blocks m)[i / p.info.blockSize])]
        exact Nat.div_eq_of_lt_le h₁ (by rwa [Nat.add_mul, Nat.one_mul])
      exact DirTree.block_inj hI.blocks_nodup hm hn hlt hk hblock
  · rw [if_neg hi, if_neg hi, if_neg]
    rintro ⟨rfl, rfl⟩
    exact hi ((Nat.div_lt_iff_lt_mul hpos).mp hk |>.trans_eq (Nat.mul_comm _ _))

/-- Writing back a block of a directory puts the new numbers into the records of the block. -/
theorem write_block (hI : DirImage p T d₀) (hsize : d₁.size = d₀.size)
    (h : Holds p T d₀ d₁ val d) {k : ℕ} (hn : n ∈ T.dirs) (hk : k < (T.blocks n).length)
    (new : ℕ → ℕ) :
    Holds p T d₀ d₁
      (Function.update val n fun r => if r / p.info.blockSize = k then new r else val n r)
      (d.apply ⟨(T.blocks n)[k] * p.info.blockSize, p.info.blockSize,
        fun i => T.renum p d₀ new n (k * p.info.blockSize + i)⟩) := by
  have hpos := hI.blockSize_pos
  have hle : (T.blocks n)[k] * p.info.blockSize + p.info.blockSize ≤ d.size := by
    rw [h.size, hsize]
    exact hI.blocks_le n hn _ (List.getElem_mem hk)
  refine ⟨(Device.apply_size hle).trans h.size, fun m hm => ?_, fun x hx => ?_⟩
  · funext i
    rw [buf_apply hI hn hm hk, h.buf m hm]
    by_cases hmn : m = n
    · subst hmn
      rw [Function.update_self]
      -- the four bytes of a number lie in one block
      have hblock : ∀ r ∈ T.live p d₀ m, r ≤ i → i < r + 4 →
          r / p.info.blockSize = i / p.info.blockSize := by
        intro r hr h₁ h₂
        have hok := ((hI.tiles m hm).mem r (live_subset hr)).2.1
        have hmin := hok.minLength
        have hin := hok.inBlock
        have hr := Nat.div_add_mod r p.info.blockSize
        symm
        apply Nat.div_eq_of_lt_le
        · rw [Nat.mul_comm]
          omega
        · rw [Nat.add_mul, Nat.one_mul, Nat.mul_comm]
          omega
      by_cases hik : i / p.info.blockSize = k
      · rw [if_pos ⟨rfl, hik⟩]
        have hi : k * p.info.blockSize + i % p.info.blockSize = i := by
          rw [← hik, Nat.mul_comm]
          exact Nat.div_add_mod i _
        simp only [hi]
        apply renum_congr
        intro r hr h₁ h₂
        rw [if_pos ((hblock r hr h₁ h₂).trans hik)]
      · rw [if_neg fun hc => hik hc.2]
        apply renum_congr
        intro r hr h₁ h₂
        rw [if_neg (by rwa [hblock r hr h₁ h₂])]
    · rw [if_neg fun hc => hmn hc.1, Function.update_of_ne hmn]
  · rw [Device.apply_bytes_of_not_covers, h.rest x hx]
    intro hcov
    exact hx ⟨n, hn, _, List.getElem_mem hk, hcov⟩

end Holds

end HoldsSection

end SystemExtras.Ext4
