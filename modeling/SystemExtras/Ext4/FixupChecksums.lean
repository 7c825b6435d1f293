import SystemExtras.Lib.Crc
import SystemExtras.Ext4.FixupComplete

/-!
# Checksums of descriptors

A descriptor ends in a checksum of the filesystem's uuid, the number of its group and the
descriptor itself, up to the checksum.  The writer of a filesystem fills it in.  The
migration raises the count of free inodes in every descriptor and leaves the checksum as it
is.  No check of 16 bits misses a change of two neighbouring bytes (`crc_eq_iff_of_pair`),
so the checksums stay valid only where nothing is raised (`checksums_valid_iff`).
-/

namespace SystemExtras.Ext4

/-! ## The checksum -/

def crc16Tab : List UInt16 :=
  [0x0000, 0xC0C1, 0xC181, 0x0140, 0xC301, 0x03C0, 0x0280, 0xC241,
   0xC601, 0x06C0, 0x0780, 0xC741, 0x0500, 0xC5C1, 0xC481, 0x0440,
   0xCC01, 0x0CC0, 0x0D80, 0xCD41, 0x0F00, 0xCFC1, 0xCE81, 0x0E40,
   0x0A00, 0xCAC1, 0xCB81, 0x0B40, 0xC901, 0x09C0, 0x0880, 0xC841,
   0xD801, 0x18C0, 0x1980, 0xD941, 0x1B00, 0xDBC1, 0xDA81, 0x1A40,
   0x1E00, 0xDEC1, 0xDF81, 0x1F40, 0xDD01, 0x1DC0, 0x1C80, 0xDC41,
   0x1400, 0xD4C1, 0xD581, 0x1540, 0xD701, 0x17C0, 0x1680, 0xD641,
   0xD201, 0x12C0, 0x1380, 0xD341, 0x1100, 0xD1C1, 0xD081, 0x1040,
   0xF001, 0x30C0, 0x3180, 0xF141, 0x3300, 0xF3C1, 0xF281, 0x3240,
   0x3600, 0xF6C1, 0xF781, 0x3740, 0xF501, 0x35C0, 0x3480, 0xF441,
   0x3C00, 0xFCC1, 0xFD81, 0x3D40, 0xFF01, 0x3FC0, 0x3E80, 0xFE41,
   0xFA01, 0x3AC0, 0x3B80, 0xFB41, 0x3900, 0xF9C1, 0xF881, 0x3840,
   0x2800, 0xE8C1, 0xE981, 0x2940, 0xEB01, 0x2BC0, 0x2A80, 0xEA41,
   0xEE01, 0x2EC0, 0x2F80, 0xEF41, 0x2D00, 0xEDC1, 0xEC81, 0x2C40,
   0xE401, 0x24C0, 0x2580, 0xE541, 0x2700, 0xE7C1, 0xE681, 0x2640,
   0x2200, 0xE2C1, 0xE381, 0x2340, 0xE101, 0x21C0, 0x2080, 0xE041,
   0xA001, 0x60C0, 0x6180, 0xA141, 0x6300, 0xA3C1, 0xA281, 0x6240,
   0x6600, 0xA6C1, 0xA781, 0x6740, 0xA501, 0x65C0, 0x6480, 0xA441,
   0x6C00, 0xACC1, 0xAD81, 0x6D40, 0xAF01, 0x6FC0, 0x6E80, 0xAE41,
   0xAA01, 0x6AC0, 0x6B80, 0xAB41, 0x6900, 0xA9C1, 0xA881, 0x6840,
   0x7800, 0xB8C1, 0xB981, 0x7940, 0xBB01, 0x7BC0, 0x7A80, 0xBA41,
   0xBE01, 0x7EC0, 0x7F80, 0xBF41, 0x7D00, 0xBDC1, 0xBC81, 0x7C40,
   0xB401, 0x74C0, 0x7580, 0xB541, 0x7700, 0xB7C1, 0xB681, 0x7640,
   0x7200, 0xB2C1, 0xB381, 0x7340, 0xB101, 0x71C0, 0x7080, 0xB041,
   0x5000, 0x90C1, 0x9181, 0x5140, 0x9301, 0x53C0, 0x5280, 0x9241,
   0x9601, 0x56C0, 0x5780, 0x9741, 0x5500, 0x95C1, 0x9481, 0x5440,
   0x9C01, 0x5CC0, 0x5D80, 0x9D41, 0x5F00, 0x9FC1, 0x9E81, 0x5E40,
   0x5A00, 0x9AC1, 0x9B81, 0x5B40, 0x9901, 0x59C0, 0x5880, 0x9841,
   0x8801, 0x48C0, 0x4980, 0x8941, 0x4B00, 0x8BC1, 0x8A81, 0x4A40,
   0x4E00, 0x8EC1, 0x8F81, 0x4F40, 0x8D01, 0x4DC0, 0x4C80, 0x8C41,
   0x4400, 0x84C1, 0x8581, 0x4540, 0x8701, 0x47C0, 0x4680, 0x8641,
   0x8201, 0x42C0, 0x4380, 0x8341, 0x4100, 0x81C1, 0x8081, 0x4040]

/-- `ext4_crc16`. -/
def ext4Crc16 (crcIn : UInt16) (buf : List UInt8) : UInt16 :=
  buf.foldl (fun crc byte =>
    crc16Tab.getD ((crc ^^^ byte.toUInt16) &&& 0xFF).toNat 0 ^^^ (crc >>> 8)) crcIn

def GroupDesc.bgChecksum : Field := ⟨30, 2⟩

/-- What `ext4_update_free` computes for the descriptor of group `i`. -/
def descChecksum (uuid : List UInt8) (i : ℕ) (desc : List UInt8) : UInt16 :=
  ext4Crc16 (ext4Crc16 (ext4Crc16 0xFFFF uuid) ((Mem.zero.store 0 4 i).bytes 0 4)) desc

/-- The descriptor of group `i` has the right checksum. -/
def ChecksumOk (uuid : List UInt8) (bgDesc : Mem) (i : ℕ) : Prop :=
  (Fixup.descField GroupDesc.bgChecksum i).get bgDesc =
    (descChecksum uuid i (bgDesc.bytes (sizeofGroupDesc * i) GroupDesc.bgChecksum.offset)).toNat

/-- `s_uuid`. -/
def uuidOf (d : Device) : List UInt8 := (sbOf d).bytes Sb.uuid 16

/-- Every descriptor on the device has the right checksum. -/
def ChecksumsValid (p : Fixup) (d : Device) : Prop :=
  ∀ j, HasCopy p j → ∀ i < p.aux.groups, p.HasDesc i →
    ChecksumOk (uuidOf d) (d.slice (descOffset p j) p.descLen) i

/-! ## The check of the source is one of the library -/

section Crc

def crc16Table (i : UInt8) : UInt16 := crc16Tab.getD i.toNat 0

theorem ext4Crc16_eq (crcIn : UInt16) (buf : List UInt8) :
    ext4Crc16 crcIn buf = crc crc16Table crcIn buf := by
  have hindex : ∀ (c : UInt16) (b : UInt8),
      ((c ^^^ b.toUInt16) &&& 0xFF).toNat = (c.toUInt8 ^^^ b).toNat := by
    intro c b
    have hb := b.toNat_lt
    have hmask : (c.toNat ^^^ b.toNat) &&& 255 = (c.toNat ^^^ b.toNat) % 2 ^ 8 :=
      Nat.and_two_pow_sub_one_eq_mod _ 8
    simp only [UInt16.toNat_and, UInt16.toNat_xor, UInt8.toNat_xor, UInt8.toNat_toUInt16,
      UInt16.toNat_toUInt8]
    change (c.toNat ^^^ b.toNat) &&& 255 = _
    rw [hmask, Nat.xor_mod_two_pow, Nat.mod_eq_of_lt hb]
  unfold ext4Crc16 crc
  congr 1
  funext c b
  unfold crcStep crc16Table
  rw [hindex]

/-- Every bit of a byte becomes the sum of itself and the bits above it. -/
def sumBits (x : ℕ) : ℕ :=
  let x := x ^^^ (x / 2)
  let x := x ^^^ (x / 4)
  x ^^^ (x / 16)

/-- The place in the table of the word with a given high byte.  The top bit of the byte is the parity
of the place, and the bits below are the sums of neighbouring bits. -/
def crc16Index (high : ℕ) : ℕ :=
  let parity := high / 128
  let half := sumBits (high ^^^ (192 * parity))
  2 * half + (parity ^^^ (sumBits half % 2))

theorem crc16Table_highBytesDiffer : HighBytesDiffer crc16Table := by
  have hindex : ∀ i < 256, crc16Index ((crc16Tab.getD i 0 >>> 8).toNat) = i := by decide +kernel
  intro i j h
  have hi := hindex i.toNat i.toNat_lt
  have hj := hindex j.toNat j.toNat_lt
  apply UInt8.toNat_inj.mp
  calc i.toNat = crc16Index (crc16Table i >>> 8).toNat := hi.symm
    _ = crc16Index (crc16Table j >>> 8).toNat := congrArg (fun w => crc16Index w.toNat) h
    _ = j.toNat := hj

end Crc

/-! ## Raising the count of a descriptor -/

section Raise

variable {uuid : List UInt8} {bgDesc bgDesc' : Mem} {i delta groups : ℕ}

theorem ChecksumOk.congr (h : ∀ x, sizeofGroupDesc * i ≤ x → x < sizeofGroupDesc * (i + 1) →
    bgDesc' x = bgDesc x) : ChecksumOk uuid bgDesc' i ↔ ChecksumOk uuid bgDesc i := by
  unfold sizeofGroupDesc at h
  have hfield : (Fixup.descField GroupDesc.bgChecksum i).get bgDesc' =
      (Fixup.descField GroupDesc.bgChecksum i).get bgDesc := by
    apply Mem.load_congr
    intro k hk
    change k < 2 at hk
    change bgDesc' (32 * i + 30 + k) = bgDesc (32 * i + 30 + k)
    exact h _ (by omega) (by omega)
  have hbytes : bgDesc'.bytes (sizeofGroupDesc * i) GroupDesc.bgChecksum.offset =
      bgDesc.bytes (sizeofGroupDesc * i) GroupDesc.bgChecksum.offset := by
    apply List.map_congr_left
    intro k hk
    have hk : k < 30 := List.mem_range.mp hk
    exact h _ (Nat.le_add_right _ _) (by
      change 32 * i + k < _
      omega)
  unfold ChecksumOk
  rw [hfield, hbytes]

/-- The bytes before the checksum, with the count of free inodes among them. -/
theorem bytes_desc (bgDesc : Mem) (a : ℕ) : bgDesc.bytes a 30 =
    bgDesc.bytes a 14 ++ bgDesc (a + 14) :: bgDesc (a + 15) :: bgDesc.bytes (a + 16) 14 := rfl

/-- A raised count shows in the checksum. -/
theorem checksumOk_raise_iff (hok : ChecksumOk uuid bgDesc i) (hi : i < groups) :
    ChecksumOk uuid (raiseFreeInodes bgDesc delta groups) i ↔ delta % 2 ^ 16 = 0 := by
  have hlike := DescLike.raiseFreeInodes bgDesc delta groups
  have hcount := freeInodes_raiseFreeInodes bgDesc delta hi
  have hlt := (Fixup.descField GroupDesc.bgFreeInodesCount i).get_lt bgDesc
  generalize raiseFreeInodes bgDesc delta groups = bgDesc' at *
  have hbefore : bgDesc'.bytes (32 * i) 14 = bgDesc.bytes (32 * i) 14 := by
    apply List.map_congr_left
    intro k hk
    have hk : k < 14 := List.mem_range.mp hk
    exact hlike _ (by omega)
  have hbehind : bgDesc'.bytes (32 * i + 16) 14 = bgDesc.bytes (32 * i + 16) 14 := by
    apply List.map_congr_left
    intro k hk
    have hk : k < 14 := List.mem_range.mp hk
    exact hlike _ (by omega)
  have hcrc : ChecksumOk uuid bgDesc' i ↔
      bgDesc (32 * i + 14) = bgDesc' (32 * i + 14) ∧
        bgDesc (32 * i + 15) = bgDesc' (32 * i + 15) := by
    unfold ChecksumOk at hok ⊢
    rw [hlike.get (Or.inr (by decide)), hok, UInt16.toNat_inj]
    unfold descChecksum sizeofGroupDesc
    change ext4Crc16 _ (bgDesc.bytes _ 30) = ext4Crc16 _ (bgDesc'.bytes _ 30) ↔ _
    rw [bytes_desc, bytes_desc, hbefore, hbehind, ext4Crc16_eq _ (_ ++ _), ext4Crc16_eq _ (_ ++ _)]
    exact crc_eq_iff_of_pair crc16Table_highBytesDiffer
  have hfield : (bgDesc (32 * i + 14) = bgDesc' (32 * i + 14) ∧
      bgDesc (32 * i + 15) = bgDesc' (32 * i + 15)) ↔
      (Fixup.descField GroupDesc.bgFreeInodesCount i).get bgDesc =
        (Fixup.descField GroupDesc.bgFreeInodesCount i).get bgDesc' := by
    constructor
    · rintro ⟨h₀, h₁⟩
      apply Mem.load_congr
      intro k hk
      change k < 2 at hk
      obtain rfl | rfl : k = 0 ∨ k = 1 := by omega
      · exact h₀
      · exact h₁
    · intro h
      exact ⟨Mem.bytes_eq_of_load_eq h (i := 0) Nat.zero_lt_two,
        Mem.bytes_eq_of_load_eq h (i := 1) Nat.one_lt_two⟩
  rw [hcrc, hfield, hcount]
  change _ < 65536 at hlt
  omega

end Raise

/-! ## The migration -/

section Migration

variable {p : Fixup} {T : DirTree} {d₀ d : Device} {fuel i j : ℕ}

theorem uuidOf_congr (h : SbLike (migratedSb p (sbOf d₀)) (sbOf d)) : uuidOf d = uuidOf d₀ := by
  unfold uuidOf
  apply List.map_congr_left
  intro k hk
  have hk : k < 16 := List.mem_range.mp hk
  change sbOf d (104 + k) = sbOf d₀ (104 + k)
  rw [h.same _ (by omega)]
  unfold migratedSb
  rw [copyOfSb_zero_apply (by omega), newSb_apply (by omega) (by omega) (by omega)]

/-- Only the bytes of the descriptor matter. -/
theorem checksumOk_slice {uuid : List UInt8} {bgDesc : Mem} {off : ℕ} (hdesc : p.HasDesc i)
    (h : ∀ x < p.descLen, d.bytes (off + x) = bgDesc x) :
    ChecksumOk uuid (d.slice off p.descLen) i ↔ ChecksumOk uuid bgDesc i := by
  apply ChecksumOk.congr
  intro x _ hx
  have hlt : x < p.descLen := hx.trans_le hdesc
  rw [← h x hlt]
  exact if_pos hlt

variable (hI : FixupImage p T d₀)

include hI

theorem FixupImage.hasDesc_zero : p.HasDesc 0 := by
  obtain ⟨inode, hread, -⟩ := hI.inode _ hI.root_mem
  have hdesc := (readInode_eq_ok.mp hread).2.1
  exact (Nat.mul_le_mul_left _ (Nat.succ_le_succ (Nat.zero_le _))).trans hdesc

/-- The descriptors that the tool has read are the primary ones. -/
theorem FixupImage.bgDesc_valid (hvalid : ChecksumsValid p d₀) (hi : i < p.aux.groups)
    (hdesc : p.HasDesc i) : ChecksumOk (uuidOf d₀) p.bgDesc i := by
  have hparams := readExt_eq_ok.mp hI.readExt
  have hprimary := hvalid 0 hI.hasCopy_zero i hi hdesc
  rwa [hparams.descOffset_zero, ← hparams.bgDesc] at hprimary

theorem Completed.checksumOk_iff (hd : Completed p T d₀ d) (hj : HasCopy p j)
    (hdesc : p.HasDesc i) :
    ChecksumOk (uuidOf d) (d.slice (descOffset p j) p.descLen) i ↔
      ChecksumOk (uuidOf d₀) (newDesc p (sbOf d₀)) i := by
  obtain ⟨d₁, -, hlike, hH⟩ := hd.finished
  rw [← hH.sbOf_eq hI] at hlike
  rw [uuidOf_congr hlike]
  exact checksumOk_slice hdesc (hd.desc j hj)

/-- By how much the counts are raised. -/
theorem FixupImage.delta_eq
    (hwrap : p.info.inodesPerGroup + p.info.blockSize / p.info.inodeSize ≤ 2 ^ 32) :
    p.delta (sbOf d₀) = p.newInodesPerGroup - p.info.inodesPerGroup := by
  have hparams := readExt_eq_ok.mp hI.readExt
  obtain ⟨-, -, ⟨bs, len, hbs, hlen, -, -, hinfo⟩, -, -⟩ := ext4ParseSb_eq_ok.mp hparams.parse
  have hipg : Sb.inodesPerGroup.get (sbOf d₀) = p.info.inodesPerGroup := by
    rw [hinfo]
    rfl
  unfold Fixup.delta
  rw [hipg, sub32_of_le (hparams.newInodesPerGroup_bounds hwrap).1 hparams.newInodesPerGroup_lt]

/-- **Checksums stay valid only where nothing is raised.**  If the checksums of an image are valid and a
run on it returns, they are valid afterwards if and only if the old number of inodes per group is a
multiple of the number of inodes in a block, or there is no block group whose count is raised. -/
theorem checksums_valid_iff (hunset : getFsFixupState d₀ = .ok .unset)
    (hfuel : T.depth EXT4_ROOT_INO < fuel) (hret : (ext4fixupInternal fuel).result d₀ = .ok ())
    (hvalid : ChecksumsValid p d₀) :
    ChecksumsValid p ((ext4fixupInternal fuel).final d₀) ↔
      p.info.inodesPerGroup % (p.info.blockSize / p.info.inodeSize) = 0 ∨ p.numBlockGroups = 0 := by
  have hparams := readExt_eq_ok.mp hI.readExt
  have htrial := trialOk_of_returns hI hunset hfuel hret
  obtain ⟨-, hd⟩ := complete_run hI hunset hfuel htrial
  generalize (ext4fixupInternal fuel).final d₀ = d at hd
  by_cases hgroups : p.numBlockGroups = 0
  · -- no count is raised
    refine iff_of_true (fun j hj i hi hdesc => ?_) (Or.inr hgroups)
    rw [hd.checksumOk_iff hI hj hdesc]
    unfold newDesc
    rw [hgroups]
    exact hI.bgDesc_valid hvalid hi hdesc
  have hpos : 0 < p.numBlockGroups := Nat.pos_of_ne_zero hgroups
  have hwrap := htrial.noWrap hparams hI.blockSize_le hpos
  have hdelta := hI.delta_eq hwrap
  have haligned := hparams.newInodesPerGroup_eq_self_iff hwrap
  obtain ⟨hle, hlt⟩ := hparams.newInodesPerGroup_bounds hwrap
  constructor
  · intro h
    have hraised : ChecksumOk (uuidOf d₀) (newDesc p (sbOf d₀)) 0 :=
      (hd.checksumOk_iff hI hI.hasCopy_zero hI.hasDesc_zero).mp
        (h 0 hI.hasCopy_zero 0 hI.groups_pos hI.hasDesc_zero)
    have hzero := (checksumOk_raise_iff
      (hI.bgDesc_valid hvalid hI.groups_pos hI.hasDesc_zero) hpos).mp hraised
    have hsmall : p.info.blockSize / p.info.inodeSize ≤ 4096 :=
      (Nat.div_le_self _ _).trans hI.blockSize_le
    rw [hdelta] at hzero
    exact Or.inl (haligned.mp (by omega))
  · intro h
    have hzero : p.delta (sbOf d₀) = 0 := by
      rw [hdelta, haligned.mpr (h.resolve_right hgroups), Nat.sub_self]
    intro j hj i hi hdesc
    rw [hd.checksumOk_iff hI hj hdesc]
    unfold newDesc
    rw [hzero, raiseFreeInodes_zero]
    exact hI.bgDesc_valid hvalid hi hdesc

end Migration

/-! ## An image with checksums -/

/-- The parameters with other flags and other descriptors. -/
def Fixup.relabel (p : Fixup) (featRoCompat : ℕ) (hlt : featRoCompat < 2 ^ 16) (bgDesc : Mem) :
    Fixup where
  info := { p.info with
    featRoCompat := featRoCompat
    inRange := ⟨p.info.len_lt, p.info.blockSize_lt, p.info.blocksPerGroup_lt,
      p.info.inodesPerGroup_lt, p.info.inodeSize_lt, p.info.inodes_lt, p.info.journalBlocks_lt,
      hlt, p.info.featCompat_lt, p.info.featIncompat_lt, p.info.bgDescReserveBlocks_lt⟩ }
  aux := p.aux
  bgDesc := bgDesc
  newInodesPerGroup := p.newInodesPerGroup

section Relabel

variable {p : Fixup} {T : DirTree} {d d' : Device} {bgDesc : Mem} {feat n v : ℕ}
    (hlt : feat < 2 ^ 16)

variable (hI : FixupImage p T d) (hsize : d'.size = d.size)
  (hsame : ∀ x, x ∉ copyBytes p → d'.bytes x = d.bytes x)
  (hcopy : ∀ i, ext4BgHasSuperBlock feat i = ext4BgHasSuperBlock p.info.featRoCompat i)
  (hdesc : ∀ x, x % 32 < 30 → bgDesc x = p.bgDesc x)

include hdesc

theorem descField_relabel {f : Field} (hf : f.offset + f.width ≤ 30) (i : ℕ) :
    (Fixup.descField f i).get bgDesc = (Fixup.descField f i).get p.bgDesc := by
  apply Mem.load_congr
  intro k hk
  change k < f.width at hk
  apply hdesc
  change (32 * i + f.offset + k) % 32 < 30
  rw [Nat.add_assoc, Nat.mul_add_mod]
  omega

theorem inodeOffset_relabel : inodeOffset (p.relabel feat hlt bgDesc) v = inodeOffset p v := by
  unfold inodeOffset
  change (Fixup.descField GroupDesc.bgInodeTable _).get bgDesc * p.info.blockSize + _ = _
  rw [descField_relabel hdesc (by decide)]
  rfl

theorem bitmapBytes_relabel : bitmapBytes (p.relabel feat hlt bgDesc) = bitmapBytes p := by
  ext x
  unfold bitmapBytes
  change (∃ i < p.numBlockGroups,
    x ∈ blockBytes p ((Fixup.descField GroupDesc.bgInodeBitmap i).get bgDesc)) ↔ _
  simp only [descField_relabel hdesc (f := GroupDesc.bgInodeBitmap) (by decide)]
  rfl

omit hdesc

include hcopy

theorem hasCopy_relabel {i : ℕ} : HasCopy (p.relabel feat hlt bgDesc) i ↔ HasCopy p i := by
  unfold HasCopy
  change i < p.aux.groups ∧ ext4BgHasSuperBlock feat i = true ↔ _
  rw [hcopy]

theorem copyBytes_relabel : copyBytes (p.relabel feat hlt bgDesc) = copyBytes p := by
  ext x
  unfold copyBytes
  simp only [hasCopy_relabel hlt hcopy]
  rfl

omit hcopy

include hI hsame

/-- The directories lie outside of the copies. -/
theorem buf_relabel (hn : n ∈ T.dirs) : T.buf p d' n = T.buf p d n := by
  funext x
  unfold DirTree.buf dirBuf
  split
  · rename_i hx
    have hblock : x / p.info.blockSize < (T.blocks n).length := Nat.div_lt_of_lt_mul hx
    have hmod := Nat.mod_lt x hI.blockSize_pos
    apply hsame
    apply Set.disjoint_left.mp hI.dirs_copies
    rw [List.getD_eq_getElem _ _ hblock]
    exact ⟨n, hn, _, List.getElem_mem hblock, Nat.le_add_right _ _, by omega⟩
  · rfl

theorem holds_relabel : Holds p T d d' (origInum p T d) d' := by
  refine ⟨rfl, fun n hn => ?_, fun _ _ => rfl⟩
  rw [buf_relabel hI hsame hn]
  exact hI.holds.buf n hn

theorem live_relabel (hn : n ∈ T.dirs) :
    T.live (p.relabel feat hlt bgDesc) d' n = T.live p d n := by
  unfold DirTree.live
  change (T.records n).filter (fun r => recInum (T.buf p d' n) r ≠ 0) = _
  rw [buf_relabel hI hsame hn]

theorem refers_relabel : T.Refers (p.relabel feat hlt bgDesc) d' v ↔ T.Refers p d v := by
  unfold DirTree.Refers
  constructor
  · rintro (hv | ⟨n, hn, r, hr, rfl⟩)
    · exact Or.inl hv
    · rw [live_relabel hlt hI hsame hn] at hr
      change T.Refers p d (recInum (T.buf p d' n) r)
      rw [buf_relabel hI hsame hn]
      exact refers_of_live hn hr
  · rintro (hv | ⟨n, hn, r, hr, rfl⟩)
    · exact Or.inl hv
    · refine Or.inr ⟨n, hn, r, ?_, ?_⟩
      · rwa [live_relabel hlt hI hsame hn]
      · rw [← buf_relabel hI hsame hn]
        rfl

include hsize

theorem sameNav_relabel : SameNav p T d d' :=
  ⟨hsize, fun x hx => hsame x (Set.disjoint_left.mp hI.nav_copies hx)⟩

include hdesc

theorem readInode_relabel (hv : T.Refers p d v) {inode : Mem}
    (hread : readInode p v d = .ok inode) :
    ∃ inode', readInode (p.relabel feat hlt bgDesc) v d' = .ok inode' ∧
      inode'.SameOn inode 0 DirTree.inodeBytes := by
  obtain ⟨inode', hread', hin⟩ := (holds_relabel hI hsame).readInode hI
    (sameNav_relabel hI hsize hsame) hv hread
  refine ⟨inode', ?_, hin⟩
  rw [readInode_eq_ok] at hread' ⊢
  rw [inodeOffset_relabel hlt hdesc]
  exact hread'

theorem navBytes_relabel : T.navBytes (p.relabel feat hlt bgDesc) d' ⊆ T.navBytes p d := by
  rintro x (⟨v, hv, hx⟩ | ⟨n, hn, inode, hread, b, hb, hx⟩)
  · rw [refers_relabel hlt hI hsame] at hv
    rw [inodeOffset_relabel hlt hdesc] at hx
    exact Or.inl ⟨v, hv, hx⟩
  · obtain ⟨inode₀, hread₀, -⟩ := hI.inode n hn
    obtain ⟨inode', hread', hin⟩ :=
      readInode_relabel hlt hI hsize hsame hdesc (Or.inl hn) hread₀
    rw [hread] at hread'
    cases hread'
    have hb : b ∈ mapBlocks p inode := hb
    rw [mapBlocks_congr hin] at hb
    exact Or.inr ⟨n, hn, inode₀, hread₀, b, hb, hx⟩

include hcopy

/-- An image stays one when flags and descriptors are rewritten, the places of bitmaps and inode tables
excepted. -/
theorem image_relabel (hread : readExt d' = .ok (p.relabel feat hlt bgDesc)) :
    FixupImage (p.relabel feat hlt bgDesc) T d' where
  readExt := hread
  size_lt := hsize ▸ hI.size_lt
  groups_pos := hI.groups_pos
  blockSize_le := hI.blockSize_le
  root_mem := hI.root_mem
  reachable := by
    have hsub : ∀ m, Relation.ReflTransGen (T.IsSub p d) EXT4_ROOT_INO m →
        Relation.ReflTransGen (T.IsSub (p.relabel feat hlt bgDesc) d') EXT4_ROOT_INO m := by
      intro m hm
      induction hm with
      | refl => exact Relation.ReflTransGen.refl
      | @tail b c hb hc ih =>
          have hb' := mem_dirs_of_reach hI.root_mem hb
          obtain ⟨r, ⟨hr, hent⟩, hinum⟩ := hc
          refine ih.tail ⟨r, ⟨?_, ?_⟩, ?_⟩
          · rwa [live_relabel hlt hI hsame hb']
          · change recInum (T.buf p d' b) r ∈ T.dirs ∧ recName (T.buf p d' b) r ≠ [46] ∧
              recName (T.buf p d' b) r ≠ [46, 46]
            rwa [buf_relabel hI hsame hb']
          · change recInum (T.buf p d' b) r = c
            rwa [buf_relabel hI hsame hb']
    exact fun n hn => hsub n (hI.reachable n hn)
  inode := by
    intro n hn
    obtain ⟨inode₀, hread₀, hdir⟩ := hI.inode n hn
    obtain ⟨inode, hread, hin⟩ :=
      readInode_relabel hlt hI hsize hsame hdesc (Or.inl hn) hread₀
    have hS := sameNav_relabel hI hsize hsame
    have hH := holds_relabel hI hsame
    have hget : ∀ f : Field, f.offset + f.width ≤ DirTree.inodeBytes → f.get inode = f.get inode₀ :=
      fun f hf => Field.get_congr hin (Nat.zero_le _) hf
    refine ⟨inode, hread, ?_, ?_, hdir.size_lt, ?_, ?_, ?_⟩
    · rw [isDirInode_congr hin]
      exact hdir.isDir
    · rw [hget _ (by decide)]
      exact hdir.blocksLo
    · change ShallowExtents p inode d'
      refine hdir.shallow.congr hin fun b hb => Device.slice_congr fun x h₁ h₂ => ?_
      exact (hH.sameNav hI hS).nav _ (Or.inr ⟨n, hn, inode₀, hread₀, b, hb, h₁, h₂⟩)
    · change ∀ b ∈ mapBlocks p inode, b * p.info.blockSize + p.info.blockSize ≤ d'.size
      rw [mapBlocks_congr hin, hsize]
      exact hdir.mapBlocks_le
    · exact hH.blockList hI hS hn hread₀ hdir hin 0
  blocks_nodup := hI.blocks_nodup
  blocks_le := hsize ▸ hI.blocks_le
  tiles := by
    intro n hn
    change Tiles (T.buf p d' n) _ _ _ _
    rw [buf_relabel hI hsame hn]
    exact hI.tiles n hn
  live_first := by
    intro n hn
    change (T.records n).Pairwise fun r r' =>
      recInum (T.buf p d' n) r = 0 → recInum (T.buf p d' n) r' = 0
    rw [buf_relabel hI hsame hn]
    exact hI.live_first n hn
  entry := by
    intro n hn r hr
    rw [live_relabel hlt hI hsame hn] at hr
    change EntryOk _ T n (recInum (T.buf p d' n) r) (recFileType (T.buf p d' n) r)
      (recName (T.buf p d' n) r) d'
    rw [buf_relabel hI hsame hn]
    obtain ⟨hinum, hnew, inode₀, hread₀, htype, hsub⟩ := hI.entry n hn r hr
    obtain ⟨inode, hread, hin⟩ :=
      readInode_relabel hlt hI hsize hsame hdesc (refers_of_live hn hr) hread₀
    refine ⟨hinum, hnew, inode, hread, ?_⟩
    rw [isDirInode_congr hin]
    exact ⟨htype, hsub⟩
  copies := by
    obtain ⟨h₁, h₂, h₃, h₄, h₅, h₆⟩ := hI.copies
    refine ⟨?_, ?_, ?_, fun i j hi hj => ?_, fun i j hi hj => ?_, fun i j hi hj => ?_⟩
    · rwa [copyBytes_relabel hlt hcopy]
    · rwa [copyBytes_relabel hlt hcopy, bitmapBytes_relabel hlt hdesc]
    · rwa [bitmapBytes_relabel hlt hdesc]
    · exact h₄ i j ((hasCopy_relabel hlt hcopy).mp hi) ((hasCopy_relabel hlt hcopy).mp hj)
    · exact h₅ i j ((hasCopy_relabel hlt hcopy).mp hi) ((hasCopy_relabel hlt hcopy).mp hj)
    · exact h₆ i j ((hasCopy_relabel hlt hcopy).mp hi) ((hasCopy_relabel hlt hcopy).mp hj)
  copies_le := by
    intro i hi
    rw [hsize]
    exact hI.copies_le i ((hasCopy_relabel hlt hcopy).mp hi)
  dirs_state := hI.dirs_state
  dirs_copies := by
    rw [copyBytes_relabel hlt hcopy]
    exact hI.dirs_copies
  dirs_bitmaps := by
    rw [bitmapBytes_relabel hlt hdesc]
    exact hI.dirs_bitmaps
  dirs_nav := hI.dirs_nav.mono_right (navBytes_relabel hlt hI hsize hsame hdesc)
  nav_state := hI.nav_state.mono_left (navBytes_relabel hlt hI hsize hsame hdesc)
  nav_copies := by
    rw [copyBytes_relabel hlt hcopy]
    exact hI.nav_copies.mono_left (navBytes_relabel hlt hI hsize hsame hdesc)
  nav_bitmaps := by
    rw [bitmapBytes_relabel hlt hdesc]
    exact hI.nav_bitmaps.mono_left (navBytes_relabel hlt hI hsize hsame hdesc)

end Relabel

/-- The filesystem with two groups, with checksums and with a copy of the descriptors. -/
def checkedGroups : Device where
  size := twoGroups.size
  bytes := twoGroups.bytes.assign
    [(Sb.featureRoCompat.at_ 1024, EXT4_FEATURE_RO_COMPAT_GDT_CSUM),
      (GroupDesc.bgChecksum.at_ 2048, 0xA331), (GroupDesc.bgChecksum.at_ 2080, 0x9773),
      (GroupDesc.bgInodeBitmap.at_ 18432, 3), (GroupDesc.bgInodeTable.at_ 18432, 4),
      (GroupDesc.bgChecksum.at_ 18432, 0xA331),
      (GroupDesc.bgInodeBitmap.at_ 18464, 11), (GroupDesc.bgInodeTable.at_ 18464, 12),
      (GroupDesc.bgChecksum.at_ 18464, 0x9773)]

def checkedGroupsFixup : Fixup :=
  twoGroupsFixup.relabel EXT4_FEATURE_RO_COMPAT_GDT_CSUM (by decide) (checkedGroups.slice 2048 2048)

section CheckedGroups

theorem readExt_checkedGroups : readExt checkedGroups = .ok checkedGroupsFixup := by
  apply readExt_eq_ok.mpr
  refine ⟨by decide, ?_, by decide, ?_, by decide, by decide, rfl, by decide, by decide, by decide,
    by decide⟩
  · decide
  · left
    decide

/-- Where the two filesystems differ. -/
theorem checkedGroups_bytes {x : ℕ} (h₁ : x < 1124 ∨ 1128 ≤ x) (h₂ : x < 2078 ∨ 2080 ≤ x)
    (h₃ : x < 2110 ∨ 2112 ≤ x) (h₄ : x < 18432 ∨ 18496 ≤ x) :
    checkedGroups.bytes x = twoGroups.bytes x := by
  have hcases : ∀ f ∈ [Sb.featureRoCompat.at_ 1024, GroupDesc.bgChecksum.at_ 2048,
      GroupDesc.bgChecksum.at_ 2080, GroupDesc.bgInodeBitmap.at_ 18432,
      GroupDesc.bgInodeTable.at_ 18432, GroupDesc.bgChecksum.at_ 18432,
      GroupDesc.bgInodeBitmap.at_ 18464, GroupDesc.bgInodeTable.at_ 18464,
      GroupDesc.bgChecksum.at_ 18464], f.offset = 1124 ∧ f.width = 4 ∨ f.offset = 2078 ∧ f.width = 2 ∨
        f.offset = 2110 ∧ f.width = 2 ∨ 18432 ≤ f.offset ∧ f.offset + f.width ≤ 18496 := by decide
  apply Mem.assign_apply_of_not_mem
  intro f hf
  have hcase := hcases f.1 (List.mem_map_of_mem (f := Prod.fst) hf)
  omega

theorem checkedGroups_desc : ∀ x, x % 32 < 30 →
    checkedGroups.slice 2048 2048 x = twoGroupsFixup.bgDesc x := by
  intro x hx
  unfold twoGroupsFixup Device.slice
  dsimp only
  split
  · exact checkedGroups_bytes (by omega) (by omega) (by omega) (by omega)
  · rfl

theorem checkedGroups_outside : ∀ x, x ∉ copyBytes twoGroupsFixup →
    checkedGroups.bytes x = twoGroups.bytes x := by
  have hfirst : HasCopy twoGroupsFixup 0 := ⟨by decide, by decide⟩
  have hsecond : HasCopy twoGroupsFixup 1 := ⟨by decide, by decide⟩
  obtain ⟨hsb, hdesc, -, hdesc', hlen, hsize⟩ := offsets_twoGroups
  intro x hx
  have h₁ : ¬ (1024 ≤ x ∧ x < 2048) := by
    rintro ⟨h, h'⟩
    exact hx ⟨0, hfirst, Or.inl (by rw [hsb, hsize]; exact ⟨h, h'⟩)⟩
  have h₂ : ¬ (2048 ≤ x ∧ x < 4096) := by
    rintro ⟨h, h'⟩
    exact hx ⟨0, hfirst, Or.inr (by rw [hdesc, hlen]; exact ⟨h, h'⟩)⟩
  have h₃ : ¬ (18432 ≤ x ∧ x < 20480) := by
    rintro ⟨h, h'⟩
    exact hx ⟨1, hsecond, Or.inr (by rw [hdesc', hlen]; exact ⟨h, h'⟩)⟩
  exact checkedGroups_bytes (by omega) (by omega) (by omega) (by omega)

theorem checkedGroups_image : FixupImage checkedGroupsFixup twoGroupsTree checkedGroups := by
  refine image_relabel (by decide) twoGroups_image rfl checkedGroups_outside (fun i => ?_)
    checkedGroups_desc readExt_checkedGroups
  unfold ext4BgHasSuperBlock
  rfl

theorem checksums_checkedGroups : ChecksumsValid checkedGroupsFixup checkedGroups := by
  have hall : ∀ j ∈ [0, 1], ∀ i < 2, ChecksumOk (uuidOf checkedGroups)
      (checkedGroups.slice (descOffset checkedGroupsFixup j) checkedGroupsFixup.descLen) i := by
    unfold ChecksumOk
    decide +kernel
  intro j hj i hi _
  have hj : j < 2 := hj.1
  exact hall j (by simp; omega) i hi

theorem unset_checkedGroups : getFsFixupState checkedGroups = .ok .unset := by decide

theorem returns_checkedGroups : (ext4fixupInternal 2).result checkedGroups = .ok () := by
  have htrial : TrialOk checkedGroupsFixup checkedGroups := by
    apply (trialPasses_iff checkedGroups_image.size_ge).mp
    unfold TrialPasses
    decide +kernel
  exact (complete_run checkedGroups_image unset_checkedGroups fuel_twoGroups htrial).1

end CheckedGroups

section Migrated

/-- What a complete run leaves of them. -/
def migratedGroups : Device := (ext4fixupInternal 2).final checkedGroups

def migratedGroupsFixup : Fixup where
  info := { checkedGroupsFixup.info with
    inodesPerGroup := 32
    inodes := 64
    inRange := by decide }
  aux := twoGroupsAux
  bgDesc := migratedGroups.slice 2048 2048
  newInodesPerGroup := 32

/-- The same with the checksums of the new counts. -/
def recheckedGroups : Device where
  size := migratedGroups.size
  bytes := migratedGroups.bytes.assign
    [(GroupDesc.bgChecksum.at_ 2048, 0x6536), (GroupDesc.bgChecksum.at_ 2080, 0x5174),
      (GroupDesc.bgChecksum.at_ 18432, 0x6536), (GroupDesc.bgChecksum.at_ 18464, 0x5174)]

def recheckedGroupsFixup : Fixup :=
  migratedGroupsFixup.relabel EXT4_FEATURE_RO_COMPAT_GDT_CSUM (by decide)
    (recheckedGroups.slice 2048 2048)

/-- What `read_ext` reads of them. -/
theorem migratedGroups_reads : 1024 + Sb.size ≤ migratedGroups.size ∧
    ext4ParseSb FsInfo.zero (migratedGroups.slice 1024 Sb.size) =
      .ok (migratedGroupsFixup.info, migratedGroupsFixup.aux) ∧
    Sb.descSize.get (migratedGroups.slice 1024 Sb.size) &&& 0xfffe = sizeofGroupDesc ∧
    2048 + 2048 ≤ migratedGroups.size := by decide +kernel

theorem readExt_migratedGroups : readExt migratedGroups = .ok migratedGroupsFixup := by
  obtain ⟨hsb, hparse, hdescSize, hdesc⟩ := migratedGroups_reads
  have hplace : migratedGroupsFixup.info.blockSize * (migratedGroupsFixup.aux.firstDataBlock + 1) =
      2048 ∧ migratedGroupsFixup.descLen = 2048 := by decide
  refine readExt_eq_ok.mpr ⟨hsb, hparse, by decide, Or.inl hdescSize, by decide, ?_, ?_,
    by decide, by decide, by decide, by decide⟩
  · rwa [hplace.1, hplace.2]
  · rw [hplace.1, hplace.2]
    rfl

/-- What a run reads of them, and that its trial passes. -/
theorem recheckedGroups_reads : (1024 + Sb.size ≤ recheckedGroups.size ∧
    ext4ParseSb FsInfo.zero (recheckedGroups.slice 1024 Sb.size) =
      .ok (recheckedGroupsFixup.info, recheckedGroupsFixup.aux) ∧
    Sb.descSize.get (recheckedGroups.slice 1024 Sb.size) &&& 0xfffe = sizeofGroupDesc ∧
    2048 + 2048 ≤ recheckedGroups.size) ∧
    getFsFixupState recheckedGroups = .ok .unset ∧
    (updateSuperblocksAndBgDesc recheckedGroupsFixup .unset true).result recheckedGroups = .ok () ∧
    ∀ j ∈ [0, 1], ∀ i < 2, (Fixup.descField GroupDesc.bgChecksum i).get
        (recheckedGroups.slice (descOffset recheckedGroupsFixup j) recheckedGroupsFixup.descLen) =
      (descChecksum (uuidOf recheckedGroups) i ((recheckedGroups.slice
        (descOffset recheckedGroupsFixup j) recheckedGroupsFixup.descLen).bytes
          (sizeofGroupDesc * i) GroupDesc.bgChecksum.offset)).toNat := by decide +kernel

theorem readExt_recheckedGroups : readExt recheckedGroups = .ok recheckedGroupsFixup := by
  obtain ⟨⟨hsb, hparse, hdescSize, hdesc⟩, -⟩ := recheckedGroups_reads
  have hplace : recheckedGroupsFixup.info.blockSize *
      (recheckedGroupsFixup.aux.firstDataBlock + 1) = 2048 ∧ recheckedGroupsFixup.descLen = 2048 := by
    decide
  refine readExt_eq_ok.mpr ⟨hsb, hparse, by decide, Or.inl hdescSize, by decide, ?_, ?_,
    by decide, by decide, by decide, by decide⟩
  · rwa [hplace.1, hplace.2]
  · rw [hplace.1, hplace.2]
    rfl

theorem recheckedGroups_bytes {x : ℕ} (h₁ : x < 2078 ∨ 2080 ≤ x) (h₂ : x < 2110 ∨ 2112 ≤ x)
    (h₃ : x < 18432 ∨ 18496 ≤ x) : recheckedGroups.bytes x = migratedGroups.bytes x := by
  have hcases : ∀ f ∈ [GroupDesc.bgChecksum.at_ 2048, GroupDesc.bgChecksum.at_ 2080,
      GroupDesc.bgChecksum.at_ 18432, GroupDesc.bgChecksum.at_ 18464],
      f.offset = 2078 ∧ f.width = 2 ∨ f.offset = 2110 ∧ f.width = 2 ∨
        18432 ≤ f.offset ∧ f.offset + f.width ≤ 18496 := by decide
  apply Mem.assign_apply_of_not_mem
  intro f hf
  have hcase := hcases f.1 (List.mem_map_of_mem (f := Prod.fst) hf)
  omega

theorem recheckedGroups_desc : ∀ x, x % 32 < 30 →
    recheckedGroups.slice 2048 2048 x = migratedGroupsFixup.bgDesc x := by
  intro x hx
  have hbgDesc : migratedGroupsFixup.bgDesc = migratedGroups.slice 2048 2048 := rfl
  rw [hbgDesc]
  unfold Device.slice
  split
  · exact recheckedGroups_bytes (by omega) (by omega) (by omega)
  · rfl

theorem recheckedGroups_outside : ∀ x, x ∉ copyBytes migratedGroupsFixup →
    recheckedGroups.bytes x = migratedGroups.bytes x := by
  have hfirst : HasCopy migratedGroupsFixup 0 := ⟨by decide, by decide⟩
  have hsecond : HasCopy migratedGroupsFixup 1 := ⟨by decide, by decide⟩
  have hdescs : descOffset migratedGroupsFixup 0 = 2048 ∧
      descOffset migratedGroupsFixup 1 = 18432 ∧ migratedGroupsFixup.descLen = 2048 := by decide
  intro x hx
  have h₀ : ¬ (2048 ≤ x ∧ x < 2048 + 2048) := by
    rintro ⟨h, h'⟩
    exact hx ⟨0, hfirst, Or.inr (by rw [hdescs.1, hdescs.2.2]; exact ⟨h, h'⟩)⟩
  have h₁ : ¬ (18432 ≤ x ∧ x < 18432 + 2048) := by
    rintro ⟨h, h'⟩
    exact hx ⟨1, hsecond, Or.inr (by rw [hdescs.2.1, hdescs.2.2]; exact ⟨h, h'⟩)⟩
  exact recheckedGroups_bytes (by omega) (by omega) (by omega)

theorem migratedGroups_image :
    ∃ T, FixupImage migratedGroupsFixup T migratedGroups ∧ T.depth EXT4_ROOT_INO < 2 := by
  have htrial := trialOk_of_returns checkedGroups_image unset_checkedGroups fuel_twoGroups
    returns_checkedGroups
  have hcompat := checkedGroups_image.compatible ⟨by decide, by decide⟩ htrial
  obtain ⟨_, -, hfinished, -⟩ :=
    (run_start checkedGroups_image htrial fuel_twoGroups unset_checkedGroups).done
  obtain ⟨q, hsucc⟩ := hfinished.image checkedGroups_image hcompat
  obtain rfl : migratedGroupsFixup = q :=
    Except.ok.inj (readExt_migratedGroups.symm.trans hsucc.image.readExt)
  refine ⟨_, hsucc.image, ?_⟩
  have hroot := checkedGroups_image.rename_depth hcompat.toLeads checkedGroups_image.root_mem
  rw [hcompat.root] at hroot
  rw [hroot]
  exact fuel_twoGroups

theorem recheckedGroups_image :
    ∃ T, FixupImage recheckedGroupsFixup T recheckedGroups ∧ T.depth EXT4_ROOT_INO < 2 := by
  obtain ⟨T, himage, hfuel⟩ := migratedGroups_image
  have hsize : recheckedGroups.size = migratedGroups.size := by rw [recheckedGroups]
  have hcopy : ∀ i, ext4BgHasSuperBlock EXT4_FEATURE_RO_COMPAT_GDT_CSUM i =
      ext4BgHasSuperBlock migratedGroupsFixup.info.featRoCompat i := fun _ => rfl
  exact ⟨T, image_relabel (by decide) himage hsize recheckedGroups_outside hcopy
    recheckedGroups_desc readExt_recheckedGroups, hfuel⟩

theorem checksums_recheckedGroups : ChecksumsValid recheckedGroupsFixup recheckedGroups := by
  obtain ⟨-, -, -, hall⟩ := recheckedGroups_reads
  intro j hj i hi _
  have hj : j < 2 := hj.1
  exact hall j (by simp; omega) i hi

end Migrated

/-- A second run has nothing to add, and the checksums stay right. -/
theorem checksums_valid_iff_rechecked :
    ChecksumsValid recheckedGroupsFixup ((ext4fixupInternal 2).final recheckedGroups) := by
  obtain ⟨T, himage, hfuel⟩ := recheckedGroups_image
  obtain ⟨-, hunset, htrial, -⟩ := recheckedGroups_reads
  have hret := (complete_run himage hunset hfuel ((trialPasses_iff himage.size_ge).mp htrial)).1
  exact (checksums_valid_iff himage hunset hfuel hret checksums_recheckedGroups).mpr
    (Or.inl (by decide))

/-- The counts of both groups are raised by `8`, and the first descriptor has the wrong checksum. -/
theorem not_checksumsValid_checkedGroups :
    FixupImage checkedGroupsFixup twoGroupsTree checkedGroups ∧
      getFsFixupState checkedGroups = .ok .unset ∧ ChecksumsValid checkedGroupsFixup checkedGroups ∧
      (ext4fixupInternal 2).result checkedGroups = .ok () ∧
      ¬ ChecksumsValid checkedGroupsFixup ((ext4fixupInternal 2).final checkedGroups) := by
  refine ⟨checkedGroups_image, unset_checkedGroups, checksums_checkedGroups, returns_checkedGroups,
    fun h => ?_⟩
  have hdelta : checkedGroupsFixup.delta (sbOf checkedGroups) = 8 := by decide
  have htrial := trialOk_of_returns checkedGroups_image unset_checkedGroups fuel_twoGroups
    returns_checkedGroups
  obtain ⟨-, hd⟩ := complete_run checkedGroups_image unset_checkedGroups fuel_twoGroups htrial
  have hcopy := checkedGroups_image.hasCopy_zero
  have hdesc := checkedGroups_image.hasDesc_zero
  have hraised := (hd.checksumOk_iff checkedGroups_image hcopy hdesc).mp
    (h 0 hcopy 0 (by decide) hdesc)
  have hzero := (checksumOk_raise_iff (checkedGroups_image.bgDesc_valid checksums_checkedGroups
    (by decide) hdesc) (by decide)).mp hraised
  rw [hdelta] at hzero
  exact absurd hzero (by decide)

end SystemExtras.Ext4
