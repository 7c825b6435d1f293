import SystemExtras.Lib.Bytes
import SystemExtras.Ext4.RegionLists

/-!
# Extents on disk and their reader

The layout of an inode, of an extent header, an extent and an extent index, and
the functions of `ext4fixup.c` that turn the extents of an inode into a list of
blocks.  The reader fills an array, so what it computes is the list of its
assignments, an index and a block number each, in the order in which it makes
them.

`ExtentsAt` says that memory holds the extents of given pieces, one after the
other and each beginning where the one before it ended; on such memory the
reader assigns every index once (`extentAssignments_eq`).
-/

namespace SystemExtras.Ext4

/-! ## Layout -/

namespace Inode

def iMode : Field := ⟨0, 2⟩
def iUid : Field := ⟨2, 2⟩
def iSizeLo : Field := ⟨4, 4⟩
def iGid : Field := ⟨24, 2⟩
def iLinksCount : Field := ⟨26, 2⟩
def iBlocksLo : Field := ⟨28, 4⟩
def iFlags : Field := ⟨32, 4⟩
def iSizeHigh : Field := ⟨108, 4⟩
def iFileAclLo : Field := ⟨104, 4⟩
def iBlocksHigh : Field := ⟨116, 2⟩
def iExtraIsize : Field := ⟨128, 2⟩

/-- Where `i_block` starts. -/
def iBlockOffset : ℕ := 40

/-- `i_block[k]`. -/
def iBlock (k : ℕ) : Field := ⟨iBlockOffset + 4 * k, 4⟩

end Inode

def EXT4_NDIR_BLOCKS : ℕ := 12
def EXT4_IND_BLOCK : ℕ := EXT4_NDIR_BLOCKS
def EXT4_DIND_BLOCK : ℕ := EXT4_IND_BLOCK + 1
def EXT4_TIND_BLOCK : ℕ := EXT4_DIND_BLOCK + 1

namespace ExtentHeader

def ehMagic : Field := ⟨0, 2⟩
def ehEntries : Field := ⟨2, 2⟩
def ehMax : Field := ⟨4, 2⟩
def ehDepth : Field := ⟨6, 2⟩
def ehGeneration : Field := ⟨8, 4⟩

end ExtentHeader

namespace Extent

def eeBlock : Field := ⟨0, 4⟩
def eeLen : Field := ⟨4, 2⟩
def eeStartHi : Field := ⟨6, 2⟩
def eeStartLo : Field := ⟨8, 4⟩

end Extent

namespace ExtentIdx

def eiBlock : Field := ⟨0, 4⟩
def eiLeafLo : Field := ⟨4, 4⟩
def eiLeafHi : Field := ⟨8, 2⟩
def eiUnused : Field := ⟨10, 2⟩

end ExtentIdx

def EXT4_EXT_MAGIC : ℕ := 0xf30a

/-- `sizeof` of an extent header, an extent and an extent index alike. -/
def sizeofExtent : ℕ := 12

/-! ## The reader of `ext4fixup.c` -/

/-- The extent at `off`: `ee_block`, `ee_len` and the block it starts at. -/
def extentAt (m : Mem) (off : ℕ) : ℕ × ℕ × ℕ :=
  ((Extent.eeBlock.at_ off).get m, (Extent.eeLen.at_ off).get m,
    (Extent.eeStartHi.at_ off).get m * 2 ^ 32 + (Extent.eeStartLo.at_ off).get m)

/-- The assignments the reader makes for one extent.  The index is a `u32`. -/
def extentAssignments (e : ℕ × ℕ × ℕ) : List (ℕ × ℕ) :=
  (List.range e.2.1).map fun j => (u32 (e.1 + j), e.2.2 + j)

/-- The extents behind the header at `off`. -/
def extentsOf (m : Mem) (off : ℕ) : List (ℕ × ℕ × ℕ) :=
  (List.range ((ExtentHeader.ehEntries.at_ off).get m)).map fun i =>
    extentAt m (off + sizeofExtent + sizeofExtent * i)

/-- `get_extent_ents` on the header at `off` of an object of `size` bytes. -/
def getExtentEnts (m : Mem) (off size : ℕ) : Except Stop (List (ℕ × ℕ)) :=
  if (ExtentHeader.ehDepth.at_ off).get m ≠ 0 then
    .error (.criticalError "get_extent_ents called with eh_depth != 0\n")
  else if size < off + sizeofExtent + sizeofExtent * (ExtentHeader.ehEntries.at_ off).get m then
    .error .undefined
  else .ok ((extentsOf m off).flatMap extentAssignments)

/-- `get_extent_idx`, with `read` for `read_block`.  The loop never moves its
pointer on, so every round reads the leaf that the first index names.  The
recursion follows the depth of the tree, which nothing bounds. -/
def getExtentIdx (read : ℕ → Except Stop Mem) (blockSize : ℕ) :
    ℕ → Mem → ℕ → ℕ → Except Stop (List (ℕ × ℕ))
  | 0, _, _, _ => .error .hang
  | fuel + 1, m, off, size =>
      if (ExtentHeader.ehDepth.at_ off).get m = 0 then
        .error (.criticalError "get_extent_idx called with eh_depth == 0\n")
      else do
        let lists ← (List.range ((ExtentHeader.ehEntries.at_ off).get m)).mapM fun _ => do
          let idx := off + sizeofExtent
          if size < idx + sizeofExtent then .error .undefined
          else
            let block ← read ((ExtentIdx.eiLeafHi.at_ idx).get m * 2 ^ 32 +
              (ExtentIdx.eiLeafLo.at_ idx).get m)
            if (ExtentHeader.ehDepth.at_ 0).get block = 0 then getExtentEnts block 0 blockSize
            else getExtentIdx read blockSize fuel block 0 blockSize
        .ok lists.flatten

/-- `get_block_list_extents` on the inode at `base`. -/
def getBlockListExtents (read : ℕ → Except Stop Mem) (blockSize fuel : ℕ) (m : Mem) (base : ℕ) :
    Except Stop (List (ℕ × ℕ)) :=
  let hdr := base + Inode.iBlockOffset
  if (ExtentHeader.ehMagic.at_ hdr).get m ≠ EXT4_EXT_MAGIC then
    .error (.criticalError "extent header has unexpected magic value 0x%4.4x\n")
  else if (ExtentHeader.ehDepth.at_ hdr).get m = 0 then getExtentEnts m hdr (base + sizeofInode)
  else getExtentIdx read blockSize fuel m hdr (base + sizeofInode)

/-! ## Memory that holds extents -/

/-- The extents of the pieces stand in memory from `off` on, the first of them
for the file's block `fileBlock`. -/
def ExtentsAt (m : Mem) : ℕ → ℕ → List Piece → Prop
  | _, _, [] => True
  | off, fileBlock, p :: ps =>
      extentAt m off = (fileBlock, p.len, p.block) ∧
        ExtentsAt m (off + sizeofExtent) (fileBlock + p.len) ps

theorem extentAt_congr {m m' : Mem} {off : ℕ} (h : m.SameOn m' off (off + sizeofExtent)) :
    extentAt m off = extentAt m' off := by
  unfold extentAt
  rw [Field.get_congr h, Field.get_congr h, Field.get_congr h, Field.get_congr h] <;>
    simp [Field.at_, Extent.eeBlock, Extent.eeLen, Extent.eeStartHi, Extent.eeStartLo, sizeofExtent]

theorem ExtentsAt.congr {m m' : Mem} {ps : List Piece} : ∀ {off fileBlock : ℕ},
    ExtentsAt m off fileBlock ps → m.SameOn m' off (off + sizeofExtent * ps.length) →
      ExtentsAt m' off fileBlock ps := by
  induction ps with
  | nil => intros; trivial
  | cons p ps ih =>
      intro off fileBlock hext hsame
      rw [List.length_cons] at hsame
      refine ⟨?_, ih hext.2 (hsame.mono (Nat.le_add_right _ _) (by unfold sizeofExtent; omega))⟩
      rw [← hext.1]
      exact (extentAt_congr (hsame.mono le_rfl (by unfold sizeofExtent; omega))).symm

theorem extentAssignments_eq {fileBlock : ℕ} {p : Piece} (hlt : fileBlock + p.len ≤ 2 ^ 32) :
    extentAssignments (fileBlock, p.len, p.block) =
      (List.range' fileBlock p.len).zip p.blocks := by
  refine List.ext_getElem (by simp [extentAssignments, Piece.blocks]) ?_
  intro i h₁ h₂
  have hi : i < p.len := by simpa [extentAssignments] using h₁
  have hidx : u32 (fileBlock + i) = fileBlock + i := u32_of_lt (by omega)
  simp [extentAssignments, Piece.blocks, hidx]

/-- The assignments made for pieces that stand in memory: the indices in order,
paired with the blocks of the pieces. -/
theorem ExtentsAt.assignments_eq {m : Mem} {ps : List Piece} :
    ∀ {off fileBlock : ℕ}, ExtentsAt m off fileBlock ps → fileBlock + lenOf ps ≤ 2 ^ 32 →
      ((List.range ps.length).map fun i => extentAt m (off + sizeofExtent * i)).flatMap
          extentAssignments =
        (List.range' fileBlock (lenOf ps)).zip (blocksOf ps) := by
  induction ps with
  | nil => intros; rfl
  | cons p ps ih =>
      intro off fileBlock hext hlt
      rw [lenOf_cons] at hlt
      have htail := ih hext.2 (by omega)
      have hshift : ∀ i, off + sizeofExtent * (i + 1) = off + sizeofExtent + sizeofExtent * i := by
        intro i
        ring
      rw [List.length_cons, List.range_succ_eq_map, List.map_cons, List.map_map, List.flatMap_cons]
      simp only [Function.comp_def, Nat.succ_eq_add_one, hshift, Nat.mul_zero, Nat.add_zero]
      rw [htail, hext.1, extentAssignments_eq (by omega), lenOf_cons, blocksOf_cons,
        ← List.range'_append_1, List.zip_append]
      simp [Piece.blocks]

end SystemExtras.Ext4
