import SystemExtras.Lib.Words
import Mathlib.Order.CompletePartialOrder

/-!
# The FAT volume of `fatblock`

`fatblock` shows a directory tree as a FAT32 volume.  `fs_init` lays the volume
out (three reserved sectors, one FAT, the data clusters), and `fs_alloc_extent`
hands out consecutive clusters, links them in the FAT and lists their byte range
as an extent.  Nothing is ever given back, so a volume is described by its
geometry and the allocations made so far.

`Layout` says what a reader of the volume relies on.  Every run of allocations
keeps all of it except for one corner: a cluster number is also a FAT entry, and
the cluster `0x0FFFFFF8` has the number of `FAT_ENTRY_EOC`.  An allocation that
links to this cluster ends there when it is read back, and `layoutHolds_iff` says
that this is the only way to break the layout.
-/

namespace SystemExtras.Fat

/-! ## The code -/

/-- `extent_type`. -/
inductive ExtentType where
  | boot
  | info
  | fat
  | file
  | dir
  deriving DecidableEq, Repr

/-- `struct extent`; the links to the next one are the order of a list. -/
structure Extent where
  start : ℕ
  len : ℕ
  type : ExtentType
  deriving DecidableEq, Repr

/-- The numbers in `struct fat_boot_sector` that `fs_init` does not leave at zero. -/
structure FatBootSector where
  sectorSize : ℕ
  sectorsPerCluster : ℕ
  reservedSectors : ℕ
  fats : ℕ
  mediaDesc : ℕ
  sectorsPerTrack : ℕ
  heads : ℕ
  sectors32 : ℕ
  fatSectors32 : ℕ
  rootdirStart : ℕ
  fsInfoSector : ℕ
  backupBootSector : ℕ
  physDrive : ℕ
  extBootSig : ℕ
  serial : ℕ
  deriving DecidableEq, Repr

/-- The numbers in `struct fat_info_sector`. -/
structure FatInfoSector where
  freeClusters : ℕ
  lastCluster : ℕ
  deriving DecidableEq, Repr

/-- `struct fs`. -/
structure Fs where
  clusterSize : ℕ
  numClusters : ℕ
  nextCluster : ℕ
  /-- the extent added last comes first -/
  extents : List Extent
  boot : FatBootSector
  info : FatInfoSector
  /-- `fatSize / 4` entries of 32 bits -/
  fat : ℕ → ℕ
  fatSize : ℕ
  dataOffset : ℕ

/-- `FAT_ENTRY_EOC`: the entry of the last cluster of a chain. -/
def fatEntryEoc : ℕ := 0x0FFFFFF8

/-- `FAT_CLUSTER_ZERO`: the number of the first data cluster. -/
def fatClusterZero : ℕ := 2

/-- `DEFAULT_SECTOR_SIZE`. -/
def defaultSectorSize : ℕ := 512

/-- `fs_add_extent`. -/
def fsAddExtent (fs : Fs) (extent : Extent) : Fs := { fs with extents := extent :: fs.extents }

/-- `fs_set_fat`; a write behind the end of the FAT is undefined. -/
def fsSetFat (fs : Fs) (cluster entry : ℕ) : Option Fs :=
  if cluster < fs.fatSize / 4 then some { fs with fat := Function.update fs.fat cluster entry }
  else none

/-- The loop of `fs_alloc_extent` that links each cluster to the next one, from its
round `i` on and for `n` rounds. -/
def linkClusters (fs : Fs) (start i : ℕ) : ℕ → Option Fs
  | 0 => some fs
  | n + 1 => do
      let fs ← fsSetFat fs (u32 (start + i)) (u32 (start + i + 1))
      linkClusters fs start (i + 1) n

/-- `fs_alloc_extent`: the file system, and the extent and its first cluster unless
the call returns `-1`.  An empty extent is not listed. -/
def fsAllocExtent (fs : Fs) (len : ℕ) (type : ExtentType) : Option (Fs × Option (Extent × ℕ)) :=
  if len = 0 then some (fs, some (⟨0, 0, type⟩, 0))
  else
    let clustersNeeded := u32 (divRoundUp64 len fs.clusterSize)
    if fs.numClusters < u32 (fs.nextCluster + clustersNeeded) then some (fs, none)
    else do
      let start := fs.nextCluster
      let fs := { fs with nextCluster := u32 (fs.nextCluster + clustersNeeded) }
      let fs ← linkClusters fs start 0 (sub32 clustersNeeded 1)
      let fs ← fsSetFat fs (sub32 (u32 (start + clustersNeeded)) 1) fatEntryEoc
      let extent : Extent :=
        { start := u64 (fs.dataOffset + sub32 start fatClusterZero * fs.clusterSize)
          len := u64 (clustersNeeded * fs.clusterSize)
          type := type }
      some (fsAddExtent fs extent, some (extent, start))

/-- `fs_init`, when there is memory for the FAT: the file system and the total size. -/
def fsInit (clusterSize dataSize : ℕ) : Fs × ℕ :=
  let sectorSize := defaultSectorSize
  let sectorsPerCluster := clusterSize / defaultSectorSize
  let fatEntriesPerSector := sectorSize / 4
  let dataClusters := u32 (divRoundUp64 dataSize clusterSize)
  let dataSectors := u64 (dataClusters * sectorsPerCluster)
  let fatSectors := u32 (dataClusters + 2 + fatEntriesPerSector - 1) / fatEntriesPerSector
  let reservedSectors := 3
  let totalSectors := u64 (reservedSectors + fatSectors + dataSectors)
  let fatSize := u64 (fatSectors * sectorSize)
  let fs : Fs :=
    { clusterSize := clusterSize
      numClusters := u32 (fatClusterZero + dataClusters)
      nextCluster := fatClusterZero
      extents := []
      boot :=
        { sectorSize := u16 sectorSize
          sectorsPerCluster := u8 sectorsPerCluster
          reservedSectors := u16 reservedSectors
          fats := 1
          mediaDesc := 0xF8
          sectorsPerTrack := 42
          heads := 42
          sectors32 := u32 totalSectors
          fatSectors32 := u32 fatSectors
          rootdirStart := 0
          fsInfoSector := 1
          backupBootSector := 2
          physDrive := 0x00
          extBootSig := 0x29
          serial := 0x42424242 }
      info := { freeClusters := 0xFFFFFFFF, lastCluster := fatClusterZero }
      fat := fun _ => 0
      fatSize := fatSize
      dataOffset := u64 ((reservedSectors + fatSectors) * sectorSize) }
  let fs := fsAddExtent fs ⟨0, sectorSize, .boot⟩
  let fs := fsAddExtent fs ⟨sectorSize, sectorSize, .info⟩
  let fs := fsAddExtent fs ⟨2 * sectorSize, sectorSize, .boot⟩
  let fs := fsAddExtent fs ⟨u64 (reservedSectors * sectorSize), fatSize, .fat⟩
  (fs, u64 (totalSectors * sectorSize))

/-! ## Runs -/

/-- A call of `fs_alloc_extent`. -/
structure Call where
  len : ℕ
  type : ExtentType
  deriving DecidableEq, Repr

/-- An allocation: what was asked for and what was given. -/
structure Allocation where
  len : ℕ
  extent : Extent
  first : ℕ
  deriving DecidableEq, Repr

/-- A volume in use: the file system and the allocations that are not empty, the last
one first. -/
structure Volume where
  fs : Fs
  allocs : List Allocation

/-- One call. -/
def Volume.alloc (v : Volume) (c : Call) : Option Volume := do
  let (fs, result) ← fsAllocExtent v.fs c.len c.type
  match result with
  | none => some ⟨fs, v.allocs⟩
  | some (extent, first) =>
      if c.len = 0 then some ⟨fs, v.allocs⟩ else some ⟨fs, ⟨c.len, extent, first⟩ :: v.allocs⟩

/-- The calls after `fs_init`. -/
def run (clusterSize dataSize : ℕ) (calls : List Call) : Option Volume :=
  calls.foldlM Volume.alloc ⟨(fsInit clusterSize dataSize).1, []⟩

/-- The sizes that the volume is meant for. -/
structure ValidSize (clusterSize dataSize : ℕ) : Prop where
  sector : 512 ∣ clusterSize
  lower : 512 ≤ clusterSize
  upper : clusterSize ≤ 32768
  clusters : dataSize ⌈/⌉ clusterSize + 2 ≤ 2 ^ 28
  sectors : 3 + (dataSize ⌈/⌉ clusterSize + 2) ⌈/⌉ 128 +
    dataSize ⌈/⌉ clusterSize * (clusterSize / 512) < 2 ^ 32

/-- The calls that are not beyond all bounds. -/
def ValidCalls (clusterSize : ℕ) (calls : List Call) : Prop :=
  ∀ c ∈ calls, c.len ⌈/⌉ clusterSize < 2 ^ 31

/-! ## What a reader relies on -/

/-- Following the FAT from cluster `c` visits the listed clusters. -/
inductive Chain (fat : ℕ → ℕ) : ℕ → List ℕ → Prop
  | last {c : ℕ} (hend : fat c = fatEntryEoc) : Chain fat c [c]
  | link {c : ℕ} {rest : List ℕ} (hlink : fat c ≠ fatEntryEoc) (hrest : Chain fat (fat c) rest) :
      Chain fat c (c :: rest)

/-- The clusters of an allocation. -/
def Allocation.clusters (a : Allocation) (clusterSize : ℕ) : List ℕ :=
  List.range' a.first (a.len ⌈/⌉ clusterSize)

/-- The bytes of an extent. -/
def Extent.bytes (e : Extent) : Set ℕ := Set.Ico e.start (e.start + e.len)

/-- The bytes of a cluster. -/
def Fs.clusterBytes (fs : Fs) (c : ℕ) : Set ℕ :=
  Set.Ico (fs.dataOffset + (c - fatClusterZero) * fs.clusterSize)
    (fs.dataOffset + (c - fatClusterZero + 1) * fs.clusterSize)

/-- The extents of the reserved sectors and of the FAT. -/
def reservedExtents (fatSize : ℕ) : List Extent :=
  [⟨1536, fatSize, .fat⟩, ⟨1024, 512, .boot⟩, ⟨512, 512, .info⟩, ⟨0, 512, .boot⟩]

/-- The layout of a volume of `total` bytes. -/
structure Layout (total : ℕ) (v : Volume) : Prop where
  /-- one extent for each nonempty allocation -/
  extents : v.fs.extents = v.allocs.map Allocation.extent ++ reservedExtents v.fs.fatSize
  disjoint : v.fs.extents.Pairwise fun e f => Disjoint e.bytes f.bytes
  inside : ∀ e ∈ v.fs.extents, e.bytes ⊆ Set.Ico 0 total
  chain : ∀ a ∈ v.allocs, Chain v.fs.fat a.first (a.clusters v.fs.clusterSize)
  bytes : ∀ a ∈ v.allocs, a.extent.bytes = ⋃ c ∈ a.clusters v.fs.clusterSize, v.fs.clusterBytes c
  chains : v.allocs.Pairwise fun a b =>
    (a.clusters v.fs.clusterSize).Disjoint (b.clusters v.fs.clusterSize)

/-- A call on `fs` stays inside the FAT, and fails exactly when too few clusters are
left, and then it changes nothing. -/
def AllocOk (fs : Fs) (c : Call) : Prop :=
  ∃ fs' result, fsAllocExtent fs c.len c.type = some (fs', result) ∧
    (result = none ↔ fs.numClusters - fs.nextCluster < c.len ⌈/⌉ fs.clusterSize) ∧
    (result = none → fs'.fat = fs.fat ∧ fs'.extents = fs.extents ∧
      fs'.nextCluster = fs.nextCluster)

/-- Every state that the calls reach has the layout, and every call behaves. -/
def LayoutHolds (clusterSize dataSize : ℕ) (calls : List Call) : Prop :=
  (∀ pre, pre <+: calls → ∃ v, run clusterSize dataSize pre = some v ∧
    Layout (fsInit clusterSize dataSize).2 v) ∧
  ∀ pre c v, pre ++ [c] <+: calls → run clusterSize dataSize pre = some v → AllocOk v.fs c

/-- The call gets cluster `0x0FFFFFF8`, and not as its first: its chain has a link
that reads as `FAT_ENTRY_EOC`. -/
def LinksToEoc (fs : Fs) (c : Call) : Prop :=
  fs.nextCluster < fatEntryEoc ∧ fatEntryEoc < fs.nextCluster + c.len ⌈/⌉ fs.clusterSize ∧
    fs.nextCluster + c.len ⌈/⌉ fs.clusterSize ≤ fs.numClusters

/-! ## What one call does -/

/-- The FAT after `n` clusters from `c` on have been linked to the next one. -/
def linkFat (fat : ℕ → ℕ) (c n : ℕ) : ℕ → ℕ := fun x => if c ≤ x ∧ x < c + n then x + 1 else fat x

/-- The FAT after the `n` clusters from `c` on have been made a chain. -/
def chainFat (fat : ℕ → ℕ) (c n : ℕ) : ℕ → ℕ :=
  Function.update (linkFat fat c (n - 1)) (c + n - 1) fatEntryEoc

theorem linkFat_update (fat : ℕ → ℕ) (c n : ℕ) :
    linkFat (Function.update fat c (c + 1)) (c + 1) n = linkFat fat c (n + 1) := by
  funext x
  unfold linkFat
  by_cases hx : x = c
  · subst hx
    rw [if_neg (by omega), if_pos (by omega), Function.update_self]
  · rw [Function.update_of_ne hx]
    congr 1
    simp only [eq_iff_iff]
    omega

theorem fsSetFat_of_lt {fs : Fs} {cluster : ℕ} (entry : ℕ) (h : cluster < fs.fatSize / 4) :
    fsSetFat fs cluster entry = some { fs with fat := Function.update fs.fat cluster entry } :=
  if_pos h

theorem linkClusters_eq {start : ℕ} {n : ℕ} : ∀ {fs : Fs} {i : ℕ},
    start + i + n ≤ fs.fatSize / 4 → start + i + n < 2 ^ 32 →
      linkClusters fs start i n = some { fs with fat := linkFat fs.fat (start + i) n } := by
  induction n with
  | zero =>
      intro fs i _ _
      have : linkFat fs.fat (start + i) 0 = fs.fat := by
        funext x
        exact if_neg (by omega)
      rw [this]
      rfl
  | succ n ih =>
      intro fs i hfat hlt
      rw [linkClusters, u32_of_lt (by omega), u32_of_lt (by omega), fsSetFat_of_lt _ (by omega)]
      simp only [Option.bind_eq_bind, Option.bind_some]
      rw [ih (by simp only; omega) (by omega)]
      simp only
      rw [← linkFat_update]
      rfl

/-- The geometry that `fs_init` gives a volume, which no call changes. -/
structure Geometry (clusterSize dataSize : ℕ) (fs : Fs) : Prop where
  clusterSize_eq : fs.clusterSize = clusterSize
  numClusters_eq : fs.numClusters = dataSize ⌈/⌉ clusterSize + 2
  fatSize_eq : fs.fatSize = (dataSize ⌈/⌉ clusterSize + 2) ⌈/⌉ 128 * 512
  dataOffset_eq : fs.dataOffset = 1536 + fs.fatSize

/-- The state after a call that finds room for `n` clusters. -/
def Fs.grant (fs : Fs) (n : ℕ) (type : ExtentType) : Fs :=
  { fs with
    nextCluster := fs.nextCluster + n
    fat := chainFat fs.fat fs.nextCluster n
    extents :=
      ⟨fs.dataOffset + (fs.nextCluster - 2) * fs.clusterSize, n * fs.clusterSize, type⟩ ::
        fs.extents }

section Call

variable {clusterSize dataSize : ℕ} {fs : Fs}

/-- What the sizes imply for the arithmetic. -/
theorem ValidSize.bounds (hsize : ValidSize clusterSize dataSize) :
    0 < clusterSize ∧ dataSize + clusterSize - 1 < 2 ^ 44 ∧
      (dataSize ⌈/⌉ clusterSize + 2) ⌈/⌉ 128 < 2 ^ 22 ∧
      dataSize ⌈/⌉ clusterSize * (clusterSize / 512) < 2 ^ 35 := by
  have hpos : 0 < clusterSize := by have := hsize.lower; omega
  have hdata : dataSize ≤ clusterSize * (dataSize ⌈/⌉ clusterSize) :=
    le_smul_ceilDiv hpos
  have hclusters := hsize.clusters
  have hmul : clusterSize * (dataSize ⌈/⌉ clusterSize) ≤ 32768 * 2 ^ 28 :=
    Nat.mul_le_mul hsize.upper (by omega)
  have hspc : clusterSize / 512 ≤ 64 := by have := hsize.upper; omega
  have hsectors : dataSize ⌈/⌉ clusterSize * (clusterSize / 512) ≤ 2 ^ 28 * 64 :=
    Nat.mul_le_mul (by omega) hspc
  refine ⟨hpos, ?_, ?_, by omega⟩
  · have := hsize.upper
    omega
  · rw [Nat.ceilDiv_eq_add_pred_div]
    omega

/-- The FAT has an entry for every cluster. -/
theorem Geometry.le_fat (h : Geometry clusterSize dataSize fs) :
    fs.numClusters ≤ fs.fatSize / 4 := by
  rw [h.numClusters_eq, h.fatSize_eq]
  generalize dataSize ⌈/⌉ clusterSize + 2 = n
  have hle : n ≤ 128 * (n ⌈/⌉ 128) := le_smul_ceilDiv (show 0 < 128 by decide)
  omega

/-- A call that is not for an empty extent. -/
theorem fsAllocExtent_eq (hsize : ValidSize clusterSize dataSize)
    (hgeo : Geometry clusterSize dataSize fs) (hzero : 2 ≤ fs.nextCluster)
    (hnext : fs.nextCluster ≤ fs.numClusters) {len : ℕ} (type : ExtentType) (hlen : 0 < len)
    (hn : len ⌈/⌉ clusterSize < 2 ^ 31) :
    fsAllocExtent fs len type =
      if fs.numClusters < fs.nextCluster + len ⌈/⌉ clusterSize then some (fs, none)
      else some (fs.grant (len ⌈/⌉ clusterSize) type,
        some (⟨fs.dataOffset + (fs.nextCluster - 2) * fs.clusterSize,
          len ⌈/⌉ clusterSize * fs.clusterSize, type⟩, fs.nextCluster)) := by
  obtain ⟨hpos, -, hfat, -⟩ := hsize.bounds
  have hnum : fs.numClusters ≤ 2 ^ 28 := by
    rw [hgeo.numClusters_eq]
    exact hsize.clusters
  have hneeded : u32 (divRoundUp64 len fs.clusterSize) = len ⌈/⌉ clusterSize := by
    have hle : len ≤ clusterSize * (len ⌈/⌉ clusterSize) := le_smul_ceilDiv hpos
    have hmul : clusterSize * (len ⌈/⌉ clusterSize) ≤ 32768 * 2 ^ 31 :=
      Nat.mul_le_mul hsize.upper hn.le
    have hupper := hsize.upper
    rw [hgeo.clusterSize_eq, divRoundUp64_eq (by omega), u32_of_lt (by omega)]
  have hsome : 0 < len ⌈/⌉ clusterSize := by
    rw [Nat.pos_iff_ne_zero]
    intro h
    have hle : len ≤ clusterSize * (len ⌈/⌉ clusterSize) := le_smul_ceilDiv hpos
    rw [h] at hle
    omega
  generalize len ⌈/⌉ clusterSize = n at *
  unfold fsAllocExtent
  rw [if_neg (by omega)]
  simp only [hneeded]
  rw [u32_of_lt (show fs.nextCluster + n < 2 ^ 32 by omega)]
  by_cases hfull : fs.numClusters < fs.nextCluster + n
  · rw [if_pos hfull, if_pos hfull]
  · rw [if_neg hfull, if_neg hfull]
    have hroom := hgeo.le_fat
    have hoff : fs.dataOffset < 2 ^ 32 := by
      rw [hgeo.dataOffset_eq, hgeo.fatSize_eq]
      omega
    have hspan : (fs.nextCluster - 2) * fs.clusterSize ≤ 2 ^ 28 * 32768 :=
      Nat.mul_le_mul (by omega) (hgeo.clusterSize_eq ▸ hsize.upper)
    have hbytes : n * fs.clusterSize ≤ 2 ^ 28 * 32768 :=
      Nat.mul_le_mul (by omega) (hgeo.clusterSize_eq ▸ hsize.upper)
    rw [sub32_of_le (by omega) (by omega), sub32_of_le (by omega) (by omega),
      linkClusters_eq (by simp only; omega) (by omega)]
    simp only [Option.bind_eq_bind, Option.bind_some]
    rw [fsSetFat_of_lt _ (by simp only; omega)]
    simp only [Option.bind_some, fsAddExtent, Fs.grant, fatClusterZero, Nat.add_zero]
    rw [sub32_of_le hzero (by omega), u64_of_lt (by omega), u64_of_lt (by omega)]
    rfl

end Call

/-! ## The invariant -/

/-- The entries of a chain of `n` clusters from `c` on. -/
structure Linked (fat : ℕ → ℕ) (c n : ℕ) : Prop where
  link : ∀ x, c ≤ x → x + 1 < c + n → fat x = x + 1
  last : fat (c + n - 1) = fatEntryEoc

theorem linked_chainFat (fat : ℕ → ℕ) {c n : ℕ} (hn : 0 < n) : Linked (chainFat fat c n) c n := by
  refine ⟨fun x hx hlt => ?_, Function.update_self ..⟩
  unfold chainFat
  rw [Function.update_of_ne (by omega)]
  exact if_pos (by omega)

theorem chainFat_of_lt (fat : ℕ → ℕ) {c x : ℕ} (n : ℕ) (hn : 0 < n) (hx : x < c) :
    chainFat fat c n x = fat x := by
  unfold chainFat
  rw [Function.update_of_ne (by omega)]
  exact if_neg (by omega)

theorem Linked.congr {fat fat' : ℕ → ℕ} {c n : ℕ} (h : Linked fat c n) (hn : 0 < n)
    (hsame : ∀ x < c + n, fat' x = fat x) : Linked fat' c n := by
  refine ⟨fun x hx hlt => ?_, ?_⟩
  · rw [hsame x (by omega), h.link x hx hlt]
  · rw [hsame _ (by omega), h.last]

/-- Such entries are read as that chain unless one of its links is `FAT_ENTRY_EOC`. -/
theorem Linked.chain_iff {fat : ℕ → ℕ} {n : ℕ} (hn : 0 < n) : ∀ {c : ℕ}, Linked fat c n →
    (Chain fat c (List.range' c n) ↔ ¬ (c < fatEntryEoc ∧ fatEntryEoc < c + n)) := by
  induction n, hn using Nat.le_induction with
  | base =>
      intro c h
      refine iff_of_true (Chain.last h.last) (by omega)
  | succ n hn ih =>
      intro c h
      have hnext : fat c = c + 1 := h.link c le_rfl (by omega)
      have htail : Linked fat (c + 1) n := by
        refine ⟨fun x hx hlt => h.link x (by omega) (by omega), ?_⟩
        rw [show c + 1 + n - 1 = c + (n + 1) - 1 by omega, h.last]
      have hrest := ih htail
      rw [List.range'_succ]
      constructor
      · intro hchain
        generalize hrange : List.range' (c + 1) n = rest at hchain
        cases hchain with
        | last hend =>
            -- a chain of one cluster, but there are more
            have := congrArg List.length hrange
            simp only [List.length_range', List.length_nil] at this
            omega
        | link hlink hchain =>
            rw [hnext] at hlink hchain
            rw [← hrange] at hchain
            have := hrest.mp hchain
            omega
      · intro hno
        refine Chain.link (by omega) ?_
        rw [hnext]
        exact hrest.mpr (by omega)

section Inv

variable {clusterSize dataSize : ℕ} {v : Volume}

/-- Where an allocation lies: below `next`, linked in the FAT, and listed with its bytes. -/
structure Placed (clusterSize : ℕ) (fs : Fs) (a : Allocation) : Prop where
  pos : 0 < a.len ⌈/⌉ clusterSize
  zero : 2 ≤ a.first
  next : a.first + a.len ⌈/⌉ clusterSize ≤ fs.nextCluster
  start : a.extent.start = fs.dataOffset + (a.first - 2) * clusterSize
  len : a.extent.len = a.len ⌈/⌉ clusterSize * clusterSize
  linked : Linked fs.fat a.first (a.len ⌈/⌉ clusterSize)

/-- What every run keeps. -/
structure Inv (clusterSize dataSize : ℕ) (v : Volume) : Prop where
  geometry : Geometry clusterSize dataSize v.fs
  zero : 2 ≤ v.fs.nextCluster
  next : v.fs.nextCluster ≤ v.fs.numClusters
  extents : v.fs.extents = v.allocs.map Allocation.extent ++ reservedExtents v.fs.fatSize
  placed : ∀ a ∈ v.allocs, Placed clusterSize v.fs a
  order : v.allocs.Pairwise fun a b => b.first + b.len ⌈/⌉ clusterSize ≤ a.first

theorem inv_init (hsize : ValidSize clusterSize dataSize) :
    Inv clusterSize dataSize ⟨(fsInit clusterSize dataSize).1, []⟩ := by
  obtain ⟨hpos, hdata, hfat, -⟩ := hsize.bounds
  have hclusters := hsize.clusters
  have hdc : u32 (divRoundUp64 dataSize clusterSize) = dataSize ⌈/⌉ clusterSize := by
    rw [divRoundUp64_eq (by omega), u32_of_lt (by omega)]
  have hsectors : u32 (dataSize ⌈/⌉ clusterSize + 2 + 512 / 4 - 1) / (512 / 4) =
      (dataSize ⌈/⌉ clusterSize + 2) ⌈/⌉ 128 := by
    rw [u32_of_lt (by omega), Nat.ceilDiv_eq_add_pred_div (_ + 2)]
  have hgeo : Geometry clusterSize dataSize (fsInit clusterSize dataSize).1 := by
    refine ⟨rfl, ?_, ?_, ?_⟩
    · simp only [fsInit, fsAddExtent, hdc, fatClusterZero]
      rw [u32_of_lt (by omega), Nat.add_comm]
    · simp only [fsInit, fsAddExtent, hdc, defaultSectorSize, hsectors]
      rw [u64_of_lt (by omega)]
    · simp only [fsInit, fsAddExtent, hdc, defaultSectorSize, hsectors]
      rw [u64_of_lt (by omega), u64_of_lt (by omega)]
      omega
  refine ⟨hgeo, le_rfl, ?_, ?_, by simp, List.Pairwise.nil⟩
  · rw [hgeo.numClusters_eq]
    exact Nat.le_add_left ..
  · rfl

/-- The allocation that a call for `n` clusters gets. -/
def Volume.next (v : Volume) (c : Call) (n : ℕ) : Allocation :=
  ⟨c.len, ⟨v.fs.dataOffset + (v.fs.nextCluster - 2) * v.fs.clusterSize, n * v.fs.clusterSize,
    c.type⟩, v.fs.nextCluster⟩

/-- What a call can do: nothing, or give clusters away. -/
theorem Inv.alloc_cases (h : Inv clusterSize dataSize v) (hsize : ValidSize clusterSize dataSize)
    {c : Call} (hc : c.len ⌈/⌉ clusterSize < 2 ^ 31) :
    (c.len = 0 ∨ v.fs.numClusters < v.fs.nextCluster + c.len ⌈/⌉ clusterSize) ∧
        v.alloc c = some v ∨
      0 < c.len ⌈/⌉ clusterSize ∧ v.fs.nextCluster + c.len ⌈/⌉ clusterSize ≤ v.fs.numClusters ∧
        v.alloc c = some ⟨v.fs.grant (c.len ⌈/⌉ clusterSize) c.type,
          v.next c (c.len ⌈/⌉ clusterSize) :: v.allocs⟩ := by
  by_cases hlen : c.len = 0
  · refine Or.inl ⟨Or.inl hlen, ?_⟩
    unfold Volume.alloc fsAllocExtent
    simp [hlen]
  · have hpos : 0 < c.len ⌈/⌉ clusterSize := by
      have hle : c.len ≤ clusterSize * (c.len ⌈/⌉ clusterSize) := le_smul_ceilDiv hsize.bounds.1
      by_contra hzero
      rw [Nat.eq_zero_of_not_pos hzero] at hle
      omega
    have hcall :=
      fsAllocExtent_eq hsize h.geometry h.zero h.next c.type (Nat.pos_of_ne_zero hlen) hc
    by_cases hfull : v.fs.numClusters < v.fs.nextCluster + c.len ⌈/⌉ clusterSize
    · refine Or.inl ⟨Or.inr hfull, ?_⟩
      rw [if_pos hfull] at hcall
      unfold Volume.alloc
      rw [hcall]
      rfl
    · refine Or.inr ⟨hpos, by omega, ?_⟩
      rw [if_neg hfull] at hcall
      unfold Volume.alloc
      rw [hcall]
      simp only [Option.bind_eq_bind, Option.bind_some, hlen, if_false]
      rfl

/-- One call keeps the invariant. -/
theorem Inv.alloc (h : Inv clusterSize dataSize v) (hsize : ValidSize clusterSize dataSize)
    {c : Call} (hc : c.len ⌈/⌉ clusterSize < 2 ^ 31) :
    ∃ v', v.alloc c = some v' ∧ Inv clusterSize dataSize v' := by
  rcases h.alloc_cases hsize hc with ⟨-, hcall⟩ | ⟨hpos, hroom, hcall⟩
  · exact ⟨v, hcall, h⟩
  · refine ⟨_, hcall, ?_⟩
    generalize hn : c.len ⌈/⌉ clusterSize = n at *
    refine ⟨⟨h.geometry.1, h.geometry.2, h.geometry.3, h.geometry.4⟩, ?_, hroom, ?_, ?_, ?_⟩
    · exact h.zero.trans (Nat.le_add_right ..)
    · exact congrArg (List.cons _) h.extents
    · intro a ha
      rcases List.mem_cons.mp ha with rfl | ha
      · refine ⟨hn ▸ hpos, h.zero, le_of_eq (congrArg _ hn), ?_, ?_, ?_⟩
        · rw [← h.geometry.clusterSize_eq]
          rfl
        · show n * _ = c.len ⌈/⌉ clusterSize * _
          rw [hn, h.geometry.clusterSize_eq]
        · show Linked _ _ (c.len ⌈/⌉ clusterSize)
          rw [hn]
          exact linked_chainFat _ hpos
      · have hold := h.placed a ha
        refine ⟨hold.pos, hold.zero, hold.next.trans (Nat.le_add_right ..), hold.start, hold.len,
          hold.linked.congr hold.pos fun x hx => ?_⟩
        exact chainFat_of_lt _ n hpos (hx.trans_le hold.next)
    · exact List.pairwise_cons.mpr ⟨fun a ha => (h.placed a ha).next, h.order⟩

/-- Every run can be made, and ends with the invariant. -/
theorem run_inv (hsize : ValidSize clusterSize dataSize) {calls : List Call}
    (hcalls : ValidCalls clusterSize calls) :
    ∃ v, run clusterSize dataSize calls = some v ∧ Inv clusterSize dataSize v := by
  have hrun : ∀ (calls : List Call) (v : Volume), ValidCalls clusterSize calls →
      Inv clusterSize dataSize v →
        ∃ v', calls.foldlM Volume.alloc v = some v' ∧ Inv clusterSize dataSize v' := by
    intro calls
    induction calls with
    | nil =>
        intro v _ h
        exact ⟨v, rfl, h⟩
    | cons c rest ih =>
        intro v hcalls h
        obtain ⟨v₁, hcall, h₁⟩ := h.alloc hsize (hcalls c List.mem_cons_self)
        obtain ⟨v₂, hrest, h₂⟩ := ih v₁ (fun d hd => hcalls d (List.mem_cons_of_mem c hd)) h₁
        refine ⟨v₂, ?_, h₂⟩
        rw [List.foldlM_cons, hcall]
        exact hrest
  exact hrun calls _ hcalls (inv_init hsize)

/-! ## The layout of the volumes that a run reaches -/

/-- The boot sector describes the volume: the FAT lies behind the reserved sectors, the
data behind the FAT, and the sectors fill the device. -/
theorem fsInit_total (hsize : ValidSize clusterSize dataSize) :
    (fsInit clusterSize dataSize).2 = (fsInit clusterSize dataSize).1.dataOffset +
        dataSize ⌈/⌉ clusterSize * clusterSize ∧
      (fsInit clusterSize dataSize).1.boot.sectors32 * 512 = (fsInit clusterSize dataSize).2 ∧
      (3 + (fsInit clusterSize dataSize).1.boot.fatSectors32) * 512 =
        (fsInit clusterSize dataSize).1.dataOffset := by
  obtain ⟨hpos, hdata, hfat, hlt⟩ := hsize.bounds
  have hclusters := hsize.clusters
  have hall := hsize.sectors
  have hdc : u32 (divRoundUp64 dataSize clusterSize) = dataSize ⌈/⌉ clusterSize := by
    rw [divRoundUp64_eq (by omega), u32_of_lt (by omega)]
  have hsectors : u32 (dataSize ⌈/⌉ clusterSize + 2 + 512 / 4 - 1) / (512 / 4) =
      (dataSize ⌈/⌉ clusterSize + 2) ⌈/⌉ 128 := by
    rw [u32_of_lt (by omega), Nat.ceilDiv_eq_add_pred_div (_ + 2)]
  have hspc : clusterSize / 512 * 512 = clusterSize := Nat.div_mul_cancel hsize.sector
  have hmul : dataSize ⌈/⌉ clusterSize * clusterSize =
      dataSize ⌈/⌉ clusterSize * (clusterSize / 512) * 512 := by
    rw [Nat.mul_assoc, hspc]
  simp only [fsInit, fsAddExtent, hdc, defaultSectorSize, hsectors, hmul]
  generalize dataSize ⌈/⌉ clusterSize * (clusterSize / 512) = sectors at *
  generalize (dataSize ⌈/⌉ clusterSize + 2) ⌈/⌉ 128 = fatSectors at *
  have hcut : u64 sectors = sectors := u64_of_lt (by omega)
  have htotal : u64 (3 + fatSectors + sectors) = 3 + fatSectors + sectors := u64_of_lt (by omega)
  rw [hcut, htotal, u64_of_lt (by omega), u64_of_lt (by omega), u32_of_lt (by omega),
    u32_of_lt (by omega)]
  refine ⟨by ring, rfl, rfl⟩

/-- The bytes of consecutive clusters are consecutive. -/
theorem clusters_bytes {off cs first n : ℕ} (hcs : 0 < cs) (hfirst : 2 ≤ first) :
    Set.Ico (off + (first - 2) * cs) (off + (first - 2) * cs + n * cs) =
      ⋃ c ∈ List.range' first n, Set.Ico (off + (c - 2) * cs) (off + (c - 2 + 1) * cs) := by
  ext x
  simp only [Set.mem_Ico, Set.mem_iUnion, List.mem_range'_1, exists_prop]
  constructor
  · rintro ⟨hlow, hhigh⟩
    obtain ⟨y, rfl⟩ := Nat.exists_eq_add_of_le hlow
    have hy : y < n * cs := by omega
    have hq : y / cs < n := Nat.div_lt_of_lt_mul (by rwa [Nat.mul_comm] at hy)
    have hle : y / cs * cs ≤ y := Nat.div_mul_le_self y cs
    have hlt : y < y / cs * cs + cs := by
      have := Nat.lt_div_mul_add (a := y) hcs
      omega
    generalize y / cs = q at hq hle hlt
    refine ⟨first + q, ⟨by omega, by omega⟩, ?_⟩
    rw [show first + q - 2 = (first - 2) + q by omega, Nat.add_mul, Nat.add_mul, Nat.add_mul]
    omega
  · rintro ⟨c, ⟨hc₁, hc₂⟩, hlow, hhigh⟩
    obtain ⟨q, rfl⟩ := Nat.exists_eq_add_of_le hc₁
    have hq : q * cs + cs ≤ n * cs := by
      calc q * cs + cs = (q + 1) * cs := by ring
        _ ≤ n * cs := Nat.mul_le_mul_right cs (by omega)
    rw [show first + q - 2 = (first - 2) + q by omega, Nat.add_mul] at hlow hhigh
    rw [Nat.add_mul] at hhigh
    omega

theorem Inv.extent_bytes (h : Inv clusterSize dataSize v) (hsize : ValidSize clusterSize dataSize)
    {a : Allocation} (ha : a ∈ v.allocs) :
    a.extent.bytes = ⋃ c ∈ a.clusters v.fs.clusterSize, v.fs.clusterBytes c := by
  have hplaced := h.placed a ha
  unfold Extent.bytes Allocation.clusters Fs.clusterBytes
  rw [hplaced.start, hplaced.len, h.geometry.clusterSize_eq]
  exact clusters_bytes hsize.bounds.1 hplaced.zero

/-- The extents of allocations begin behind the FAT and end with the device. -/
theorem Inv.extent_between (h : Inv clusterSize dataSize v)
    (hsize : ValidSize clusterSize dataSize) {a : Allocation} (ha : a ∈ v.allocs) :
    1536 + v.fs.fatSize ≤ a.extent.start ∧
      a.extent.start + a.extent.len ≤ (fsInit clusterSize dataSize).2 := by
  have hplaced := h.placed a ha
  have hinit := (inv_init hsize).geometry
  rw [(fsInit_total hsize).1, hplaced.start, hplaced.len, h.geometry.dataOffset_eq,
    hinit.dataOffset_eq, h.geometry.fatSize_eq, hinit.fatSize_eq]
  refine ⟨Nat.le_add_right .., ?_⟩
  have hlast : a.first - 2 + a.len ⌈/⌉ clusterSize ≤ dataSize ⌈/⌉ clusterSize := by
    have h₁ := hplaced.next.trans h.next
    have h₂ := hplaced.zero
    rw [h.geometry.numClusters_eq] at h₁
    omega
  calc 1536 + (dataSize ⌈/⌉ clusterSize + 2) ⌈/⌉ 128 * 512 + (a.first - 2) * clusterSize +
          a.len ⌈/⌉ clusterSize * clusterSize
      = 1536 + (dataSize ⌈/⌉ clusterSize + 2) ⌈/⌉ 128 * 512 +
          (a.first - 2 + a.len ⌈/⌉ clusterSize) * clusterSize := by ring
    _ ≤ 1536 + (dataSize ⌈/⌉ clusterSize + 2) ⌈/⌉ 128 * 512 +
          dataSize ⌈/⌉ clusterSize * clusterSize :=
        Nat.add_le_add_left (Nat.mul_le_mul_right _ hlast) _

theorem Extent.disjoint_bytes {e f : Extent} (h : e.start + e.len ≤ f.start) :
    Disjoint e.bytes f.bytes := by
  rw [Set.disjoint_left]
  rintro x ⟨-, hx⟩ ⟨hx', -⟩
  omega

theorem Inv.disjoint (h : Inv clusterSize dataSize v) (hsize : ValidSize clusterSize dataSize) :
    v.fs.extents.Pairwise fun e f => Disjoint e.bytes f.bytes := by
  rw [h.extents, List.pairwise_append, List.pairwise_map]
  refine ⟨?_, ?_, ?_⟩
  · refine h.order.imp_of_mem fun {a b} ha hb hab => ?_
    apply Disjoint.symm
    apply Extent.disjoint_bytes
    rw [(h.placed a ha).start, (h.placed b hb).start, (h.placed b hb).len, Nat.add_assoc,
      ← Nat.add_mul]
    have hzero := (h.placed b hb).zero
    exact Nat.add_le_add_left (Nat.mul_le_mul_right _ (by omega)) _
  · have hboot : ∀ {e f : Extent}, f.start + f.len ≤ e.start → Disjoint e.bytes f.bytes :=
      fun hef => (Extent.disjoint_bytes hef).symm
    simp only [reservedExtents, List.pairwise_cons, List.mem_cons, List.not_mem_nil, or_false,
      forall_eq_or_imp, forall_eq, false_imp_iff, implies_true, List.Pairwise.nil, and_true]
    refine ⟨⟨?_, ?_, ?_⟩, ⟨?_, ?_⟩, ?_⟩ <;> exact hboot (by simp only; omega)
  · intro e he f hf
    obtain ⟨a, ha, rfl⟩ := List.mem_map.mp he
    apply Disjoint.symm
    apply Extent.disjoint_bytes
    refine le_trans ?_ (h.extent_between hsize ha).1
    simp only [reservedExtents, List.mem_cons, List.not_mem_nil, or_false] at hf
    rcases hf with rfl | rfl | rfl | rfl <;> simp only <;> omega

theorem Inv.inside (h : Inv clusterSize dataSize v) (hsize : ValidSize clusterSize dataSize) :
    ∀ e ∈ v.fs.extents, e.bytes ⊆ Set.Ico 0 (fsInit clusterSize dataSize).2 := by
  have hend : ∀ e ∈ v.fs.extents, e.start + e.len ≤ (fsInit clusterSize dataSize).2 := by
    intro e he
    rw [h.extents] at he
    rcases List.mem_append.mp he with he | he
    · obtain ⟨a, ha, rfl⟩ := List.mem_map.mp he
      exact (h.extent_between hsize ha).2
    · have hinit := (inv_init hsize).geometry
      rw [(fsInit_total hsize).1, hinit.dataOffset_eq, hinit.fatSize_eq, ← h.geometry.fatSize_eq]
      simp only [reservedExtents, List.mem_cons, List.not_mem_nil, or_false] at he
      rcases he with rfl | rfl | rfl | rfl <;> simp only <;> omega
  intro e he x hx
  exact ⟨Nat.zero_le x, hx.2.trans_le (hend e he)⟩

/-- A volume has its layout unless a chain has the link that reads as its end. -/
theorem Inv.layout_iff (h : Inv clusterSize dataSize v) (hsize : ValidSize clusterSize dataSize) :
    Layout (fsInit clusterSize dataSize).2 v ↔ ∀ a ∈ v.allocs,
      ¬ (a.first < fatEntryEoc ∧ fatEntryEoc < a.first + a.len ⌈/⌉ clusterSize) := by
  have hchain : ∀ a ∈ v.allocs, (Chain v.fs.fat a.first (a.clusters v.fs.clusterSize) ↔
      ¬ (a.first < fatEntryEoc ∧ fatEntryEoc < a.first + a.len ⌈/⌉ clusterSize)) := by
    intro a ha
    have hplaced := h.placed a ha
    rw [Allocation.clusters, h.geometry.clusterSize_eq]
    exact hplaced.linked.chain_iff hplaced.pos
  constructor
  · intro hlayout a ha
    exact (hchain a ha).mp (hlayout.chain a ha)
  · intro hno
    refine ⟨h.extents, h.disjoint hsize, h.inside hsize, fun a ha => (hchain a ha).mpr (hno a ha),
      fun a ha => h.extent_bytes hsize ha, ?_⟩
    refine h.order.imp fun {a b} hab => ?_
    rw [List.disjoint_left]
    intro c hca hcb
    rw [Allocation.clusters, List.mem_range'_1] at hca hcb
    rw [h.geometry.clusterSize_eq] at hcb
    omega

theorem run_concat (calls : List Call) (c : Call) :
    run clusterSize dataSize (calls ++ [c]) =
      (run clusterSize dataSize calls).bind fun v => v.alloc c := by
  unfold run
  rw [List.foldlM_append]
  simp

theorem run_singleton (c : Call) :
    run clusterSize dataSize [c] = Volume.alloc ⟨(fsInit clusterSize dataSize).1, []⟩ c := by
  rw [← List.nil_append [c], run_concat]
  rfl

theorem Inv.allocOk (h : Inv clusterSize dataSize v) (hsize : ValidSize clusterSize dataSize)
    {c : Call} (hc : c.len ⌈/⌉ clusterSize < 2 ^ 31) : AllocOk v.fs c := by
  unfold AllocOk
  rw [h.geometry.clusterSize_eq]
  have hnext := h.next
  by_cases hlen : c.len = 0
  · refine ⟨v.fs, some (⟨0, 0, c.type⟩, 0), if_pos hlen, ?_, by simp⟩
    simp [hlen]
  · have hcall :=
      fsAllocExtent_eq hsize h.geometry h.zero h.next c.type (Nat.pos_of_ne_zero hlen) hc
    by_cases hfull : v.fs.numClusters < v.fs.nextCluster + c.len ⌈/⌉ clusterSize
    · rw [if_pos hfull] at hcall
      refine ⟨v.fs, none, hcall, iff_of_true rfl (by omega), fun _ => ⟨rfl, rfl, rfl⟩⟩
    · rw [if_neg hfull] at hcall
      refine ⟨_, _, hcall, iff_of_false (by simp) (by omega), by simp⟩

/-- In a run without such links no allocation has one. -/
theorem run_not_linksToEoc (hsize : ValidSize clusterSize dataSize) {calls : List Call}
    (hcalls : ValidCalls clusterSize calls)
    (hno : ∀ pre c v, pre ++ [c] <+: calls → run clusterSize dataSize pre = some v →
      ¬ LinksToEoc v.fs c) :
    ∀ v, run clusterSize dataSize calls = some v → ∀ a ∈ v.allocs,
      ¬ (a.first < fatEntryEoc ∧ fatEntryEoc < a.first + a.len ⌈/⌉ clusterSize) := by
  induction calls using List.reverseRecOn with
  | nil =>
      intro v hrun
      cases hrun
      simp
  | append_singleton calls c ih =>
      intro v' hrun a ha
      have hcalls₁ : ValidCalls clusterSize calls := fun d hd => hcalls d (by simp [hd])
      obtain ⟨v, hv, hinv⟩ := run_inv hsize hcalls₁
      have hold := ih hcalls₁ (fun pre d w hpre hw =>
        hno pre d w (hpre.trans (List.prefix_append _ _)) hw) v hv
      rw [run_concat, hv, Option.bind_some] at hrun
      rcases hinv.alloc_cases hsize (hcalls c (by simp)) with ⟨-, hcall⟩ | ⟨-, hroom, hcall⟩
      · rw [hcall, Option.some.injEq] at hrun
        exact hold a (hrun ▸ ha)
      · rw [hcall, Option.some.injEq] at hrun
        rw [← hrun] at ha
        rcases List.mem_cons.mp ha with rfl | ha
        · rintro ⟨hlow, hhigh⟩
          refine hno calls c v List.prefix_rfl hv ?_
          rw [LinksToEoc, hinv.geometry.clusterSize_eq]
          exact ⟨hlow, hhigh, hroom⟩
        · exact hold a ha

/-- An allocation with such a link breaks the layout. -/
theorem Inv.linksToEoc (h : Inv clusterSize dataSize v) (hsize : ValidSize clusterSize dataSize)
    {c : Call} (hc : c.len ⌈/⌉ clusterSize < 2 ^ 31) (hlinks : LinksToEoc v.fs c) :
    ∀ v', v.alloc c = some v' → ¬ Layout (fsInit clusterSize dataSize).2 v' := by
  intro v' hv' hlayout
  rw [LinksToEoc, h.geometry.clusterSize_eq] at hlinks
  obtain ⟨w, hw, hinv⟩ := h.alloc hsize hc
  rw [hv', Option.some.injEq] at hw
  subst hw
  have hno := (hinv.layout_iff hsize).mp hlayout
  rcases h.alloc_cases hsize hc with ⟨hnone, -⟩ | ⟨-, -, hcall⟩
  · rcases hnone with hzero | hfull
    · rw [hzero, zero_ceilDiv] at hlinks
      omega
    · omega
  · rw [hv', Option.some.injEq] at hcall
    rw [hcall] at hno
    exact hno _ List.mem_cons_self ⟨hlinks.1, hlinks.2.1⟩

/-- **The layout of a volume.**  For every size and every sequence of calls, all states
reached have the layout and all calls behave, exactly if no call links to the cluster
whose number is `FAT_ENTRY_EOC`. -/
theorem layoutHolds_iff (hsize : ValidSize clusterSize dataSize) {calls : List Call}
    (hcalls : ValidCalls clusterSize calls) :
    LayoutHolds clusterSize dataSize calls ↔
      ∀ pre c v, pre ++ [c] <+: calls → run clusterSize dataSize pre = some v →
        ¬ LinksToEoc v.fs c := by
  have hsub : ∀ pre, pre <+: calls → ValidCalls clusterSize pre :=
    fun pre hpre c hc => hcalls c (hpre.subset hc)
  constructor
  · rintro ⟨hlayout, -⟩ pre c v hpre hv hlinks
    have hpre' : pre <+: calls := (List.prefix_append _ _).trans hpre
    obtain ⟨w, hw, hinv⟩ := run_inv hsize (hsub pre hpre')
    rw [hv, Option.some.injEq] at hw
    subst hw
    obtain ⟨v', hv', hl⟩ := hlayout _ hpre
    rw [run_concat, hv, Option.bind_some] at hv'
    exact hinv.linksToEoc hsize (hsub _ hpre c (by simp)) hlinks v' hv' hl
  · intro hno
    refine ⟨fun pre hpre => ?_, fun pre c v hpre hv => ?_⟩
    · obtain ⟨v, hv, hinv⟩ := run_inv hsize (hsub pre hpre)
      refine ⟨v, hv, (hinv.layout_iff hsize).mpr ?_⟩
      exact run_not_linksToEoc hsize (hsub pre hpre)
        (fun pre' c w hpre' hw => hno pre' c w (hpre'.trans hpre) hw) v hv
    · obtain ⟨w, hw, hinv⟩ := run_inv hsize (hsub pre ((List.prefix_append _ _).trans hpre))
      rw [hv, Option.some.injEq] at hw
      subst hw
      exact hinv.allocOk hsize (hsub _ hpre c (by simp))

/-- Two clusters of 512 bytes and an allocation that fills them. -/
theorem layoutHolds_iff_two : LayoutHolds 512 1024 [⟨600, .file⟩] := by
  apply (layoutHolds_iff ⟨by decide, by decide, by decide, by decide, by decide⟩
    (List.forall_mem_singleton.mpr (by decide))).mpr
  intro pre c v hpre hv
  -- no call comes before the only one
  have hlen : pre.length + 1 ≤ 1 := by simpa using hpre.length_le
  obtain rfl := List.eq_nil_of_length_eq_zero (show pre.length = 0 by omega)
  obtain rfl : c = ⟨600, .file⟩ := by simpa using hpre
  cases hv
  unfold LinksToEoc
  decide

/-- A volume with `2 ^ 28` cluster numbers, and one file that fills it. -/
theorem not_layoutHolds_full :
    ¬ LayoutHolds 512 ((2 ^ 28 - 2) * 512) [⟨(2 ^ 28 - 2) * 512, .file⟩] := by
  have hsize : ValidSize 512 ((2 ^ 28 - 2) * 512) :=
    ⟨by decide, by decide, by decide, by decide, by decide⟩
  rintro ⟨hlayout, -⟩
  obtain ⟨v, hv, hl⟩ := hlayout _ List.prefix_rfl
  rw [run_singleton] at hv
  refine (inv_init hsize).linksToEoc hsize (c := ⟨(2 ^ 28 - 2) * 512, .file⟩) ?_ ?_ v hv hl
  · decide
  · refine ⟨?_, ?_, ?_⟩ <;> decide

end Inv

end SystemExtras.Fat
