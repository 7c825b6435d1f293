import SystemExtras.Lib.Run
import SystemExtras.Ext4.Renumber

/-!
# Writing a directory

`make_directory` goes over its entries twice.  `dentry_size` computes the length of the
directory, and `add_dentry` writes one record after the other into a buffer of that
length.  Both leave the rest of a block empty when the next record does not fit in it,
but they find out in different ways: one looks at the offset inside the block, the
other compares the blocks of the first and the last byte of the record.

`dirEnd` is the offset that both arrive at.  While the records are written they tile
the buffer up to the current offset (`Written`); the record in front of a gap is
stretched over it (`Written.stretch`), and so is the last one of all.
-/

namespace SystemExtras.Ext4

open Mem

/-! ## The code -/

/-- `S_IFDIR`. -/
def S_IFDIR : ℕ := 0x4000

/-- `struct dentry`, as far as `make_directory` reads it.  The name has no null byte in it. -/
structure Dentry where
  filename : List UInt8
  fileType : UInt8
  deriving DecidableEq, Repr

/-- `ALIGN` to a multiple of four. -/
def align4 (x : ℕ) : ℕ := 4 * ((x + 4 - 1) / 4)

/-- The loop of `dentry_size`. -/
def dentrySizeLoop (blockSize : ℕ) : List Dentry → ℕ → ℕ
  | [], len => len
  | d :: rest, len =>
      let dentryLen := u32 (8 + align4 d.filename.length)
      let len :=
        if blockSize < u32 (len % blockSize + dentryLen) then u32 (len + (blockSize - len % blockSize))
        else len
      dentrySizeLoop blockSize rest (u32 (len + dentryLen))

/-- `dentry_size`. -/
def dentrySize (blockSize : ℕ) (dentries : List Dentry) : ℕ := dentrySizeLoop blockSize dentries 24

/-- The assignments to the new record in `add_dentry`. -/
def writeDentry (data : Mem) (offset inode recLen nameLen fileType : ℕ) (name : List UInt8) : Mem :=
  (data.assign [(DirEntry.inode.at_ offset, inode), (DirEntry.recLen.at_ offset, recLen),
    (DirEntry.nameLen.at_ offset, nameLen), (DirEntry.fileType.at_ offset, fileType)]).storeBytes
      (offset + DirEntry.nameOffset) (name.take nameLen)

/-- `add_dentry` on a buffer of `cap` bytes: the new record, the offset behind it and the buffer. -/
def addDentry (blockSize cap : ℕ) (data : Mem) (offset : ℕ) (prev : Option ℕ) (inode : ℕ)
    (name : List UInt8) (fileType : ℕ) : Except Stop (ℕ × ℕ × Mem) :=
  let nameLen := u8 name.length
  let recLen := u16 (8 + align4 nameLen)
  let startBlock := offset / blockSize
  let endBlock := u32 (offset + recLen - 1) / blockSize
  let write (data : Mem) (offset : ℕ) : Except Stop (ℕ × ℕ × Mem) :=
    if cap < offset + DirEntry.nameOffset + nameLen then .error .undefined
    else .ok (offset, u32 (offset + recLen),
      writeDentry data offset inode recLen nameLen fileType name)
  if startBlock ≠ endBlock then
    match prev with
    | none => .error (.criticalError "no prev")
    | some p =>
        let offset' := u32 (endBlock * blockSize)
        write ((DirEntry.recLen.at_ p).set data
          (u16 ((DirEntry.recLen.at_ p).get data + sub32 offset' offset))) offset'
  else write data offset

/-- The loop of `make_directory` over the entries: the place of the inode number of each of them, the
last record, the offset and the buffer. -/
def dentryLoop (blockSize len : ℕ) :
    List Dentry → ℕ → ℕ → Mem → Except Stop (List ℕ × ℕ × ℕ × Mem)
  | [], dentry, offset, data => .ok ([], dentry, offset, data)
  | d :: rest, dentry, offset, data => do
      let (dentry, offset, data) ←
        addDentry blockSize len data offset (some dentry) 0 d.filename d.fileType.toNat
      if len < offset ∨ (offset = len ∧ rest ≠ []) then
        .error (.criticalError "internal error: dentry for %s ends at %d, past %d\n")
      else do
        let (inodes, last) ← dentryLoop blockSize len rest dentry offset data
        .ok ((dentry + DirEntry.inode.offset) :: inodes, last)

/-- The calls of `add_dentry` in `make_directory`: the two leading entries and the loop. -/
def addDentries (blockSize len inodeNum dirInodeNum : ℕ) (dentries : List Dentry) (data : Mem) :
    Except Stop (List ℕ × ℕ × ℕ × Mem) := do
  let (dentry, offset, data) ← addDentry blockSize len data 0 none inodeNum [46] EXT4_FT_DIR
  let (dentry, offset, data) ←
    addDentry blockSize len data offset (some dentry) dirInodeNum [46, 46] EXT4_FT_DIR
  dentryLoop blockSize len dentries dentry offset data

/-- What `make_directory` is given by the functions it calls: the number from `allocate_inode`, the
inode from `get_inode`, and the buffer from `inode_allocate_data_extents`. -/
structure DirectoryStorage where
  inodeNum : ℕ
  inode : Option Mem
  data : Option Mem

/-- What `make_directory` leaves behind: the number of its inode, the inode, the buffer and its
length, and where the inode numbers of the entries are to be filled in. -/
structure MadeDirectory where
  inodeNum : ℕ
  inode : Mem
  len : ℕ
  data : Mem
  inodes : List ℕ

/-- The assignments of `make_directory` to the inode. -/
def setDirectory (inode : Mem) (dirs : ℕ) : Mem :=
  inode.assign [(Inode.iMode, S_IFDIR), (Inode.iLinksCount, dirs + 2),
    (Inode.iFlags, Inode.iFlags.get inode ||| EXT4_NOATIME_FL)]

/-- The length of the buffer. -/
def directoryLen (blockSize : ℕ) (dentries : List Dentry) : ℕ :=
  u32 (divRoundUp32 (dentrySize blockSize dentries) blockSize * blockSize)

/-- `make_directory`. -/
def makeDirectory (blockSize : ℕ) (storage : DirectoryStorage) (dirInodeNum : ℕ)
    (dentries : List Dentry) (dirs : ℕ) : Except Stop MadeDirectory :=
  let len := directoryLen blockSize dentries
  let inodeNum := if dirInodeNum ≠ 0 then storage.inodeNum else EXT4_ROOT_INO
  let dirInodeNum := if dirInodeNum ≠ 0 then dirInodeNum else EXT4_ROOT_INO
  if inodeNum = EXT4_ALLOCATE_FAILED then .error (.error "failed to allocate inode\n")
  else
    match storage.inode with
    | none => .error (.error "failed to get inode %u")
    | some inode =>
        match storage.data with
        | none => .error (.error "failed to allocate %u extents")
        | some data => do
            let (inodes, dentry, offset, data) ←
              addDentries blockSize len inodeNum dirInodeNum dentries data
            let data := (DirEntry.recLen.at_ dentry).set data
              (u16 ((DirEntry.recLen.at_ dentry).get data + sub32 len offset))
            .ok ⟨inodeNum, setDirectory inode dirs, len, data, inodes⟩

/-! ## Where the records end -/

/-- The length of the record for a name of `n` bytes. -/
def recSize (n : ℕ) : ℕ := 8 + align4 n

/-- Where a record of `size` bytes goes, when the ones in front of it end at `offset`. -/
def recStart (blockSize offset size : ℕ) : ℕ :=
  if blockSize < offset % blockSize + size then (offset / blockSize + 1) * blockSize else offset

/-- Where the last of the records ends. -/
def dirEnd (blockSize : ℕ) : List Dentry → ℕ → ℕ
  | [], offset => offset
  | d :: rest, offset =>
      let size := recSize d.filename.length
      dirEnd blockSize rest (recStart blockSize offset size + size)

/-- The size of a directory in whole blocks, with no regard to the width of an integer. -/
def directorySize (blockSize : ℕ) (dentries : List Dentry) : ℕ :=
  dirEnd blockSize dentries 24 ⌈/⌉ blockSize * blockSize

theorem recSize_bounds {n : ℕ} (h₁ : 1 ≤ n) (h₂ : n ≤ 255) :
    12 ≤ recSize n ∧ 8 + n ≤ recSize n ∧ recSize n ≤ 264 ∧ 4 ∣ recSize n := by
  unfold recSize align4
  omega

/-- The length of a name and of its record fit the fields that hold them. -/
theorem recSize_words {n : ℕ} (h₁ : 1 ≤ n) (h₂ : n ≤ 255) :
    u8 n = n ∧ u16 (8 + align4 n) = recSize n := by
  obtain ⟨-, -, hmax, -⟩ := recSize_bounds h₁ h₂
  refine ⟨Nat.mod_eq_of_lt (by omega), u16_of_lt ?_⟩
  change recSize n < _
  omega

theorem le_recStart {blockSize : ℕ} (hb : 0 < blockSize) (offset size : ℕ) :
    offset ≤ recStart blockSize offset size := by
  unfold recStart
  split
  · have hdiv := Nat.div_add_mod' offset blockSize
    have hmod := Nat.mod_lt offset hb
    rw [Nat.add_mul, Nat.one_mul]
    omega
  · exact le_rfl

theorem le_dirEnd {blockSize : ℕ} (hb : 0 < blockSize) (dentries : List Dentry) (offset : ℕ) :
    offset ≤ dirEnd blockSize dentries offset := by
  induction dentries generalizing offset with
  | nil => exact le_rfl
  | cons d rest ih =>
      have hstart := le_recStart hb offset (recSize d.filename.length)
      have hrest := ih (recStart blockSize offset (recSize d.filename.length) +
        recSize d.filename.length)
      simp only [dirEnd]
      omega

theorem lt_dirEnd {blockSize : ℕ} (hb : 0 < blockSize) {dentries : List Dentry}
    (hne : dentries ≠ []) (offset : ℕ) : offset < dirEnd blockSize dentries offset := by
  obtain ⟨d, rest, rfl⟩ := List.exists_cons_of_ne_nil hne
  have hstart := le_recStart hb offset (recSize d.filename.length)
  have hrest := le_dirEnd hb rest (recStart blockSize offset (recSize d.filename.length) +
    recSize d.filename.length)
  have hpos : 0 < recSize d.filename.length := Nat.add_pos_left (by decide) _
  simp only [dirEnd]
  omega

/-- The block behind the current one, in the words of `dentry_size`. -/
theorem add_sub_mod (offset : ℕ) {blockSize : ℕ} (hb : 0 < blockSize) :
    offset + (blockSize - offset % blockSize) = (offset / blockSize + 1) * blockSize := by
  have hdiv := Nat.div_add_mod' offset blockSize
  have hmod := Nat.mod_lt offset hb
  rw [Nat.add_mul, Nat.one_mul]
  omega

/-- Without a wrap-around the loop of `dentry_size` computes the end of the records. -/
theorem dentrySizeLoop_eq {blockSize : ℕ} (hb : 0 < blockSize) (hb' : blockSize < 65536)
    (dentries : List Dentry) (hnames : ∀ d ∈ dentries, d.filename.length ≤ 255) (len : ℕ)
    (hend : dirEnd blockSize dentries len < 2 ^ 32) :
    dentrySizeLoop blockSize dentries len = dirEnd blockSize dentries len := by
  induction dentries generalizing len with
  | nil => rfl
  | cons d rest ih =>
      have hname := hnames d List.mem_cons_self
      have hsize : u32 (8 + align4 d.filename.length) = recSize d.filename.length :=
        u32_of_lt (by unfold align4; omega)
      have hbound : recSize d.filename.length ≤ 264 := by unfold recSize align4; omega
      have hmod := Nat.mod_lt len hb
      have hstart := le_recStart hb len (recSize d.filename.length)
      have hle := le_dirEnd hb rest (recStart blockSize len (recSize d.filename.length) +
        recSize d.filename.length)
      simp only [dirEnd] at hend
      have hif : (if blockSize < u32 (len % blockSize + recSize d.filename.length) then
          u32 (len + (blockSize - len % blockSize)) else len) =
            recStart blockSize len (recSize d.filename.length) := by
        have hlt : recStart blockSize len (recSize d.filename.length) < 2 ^ 32 := by omega
        rw [u32_of_lt (by omega), add_sub_mod len hb]
        unfold recStart at hlt ⊢
        split
        · rename_i hcross
          rw [if_pos hcross] at hlt
          exact u32_of_lt hlt
        · rfl
      simp only [dentrySizeLoop, dirEnd, hsize, hif]
      rw [u32_of_lt (by omega)]
      exact ih (fun d hd => hnames d (List.mem_cons_of_mem _ hd)) _ hend

/-! ## Records that tile a buffer -/

/-- What a record says: an inode number, a name and a file type. -/
def recEntry (buf : Mem) (r : ℕ) : ℕ × List UInt8 × ℕ :=
  (recInum buf r, buf.bytes (r + DirEntry.nameOffset) ((DirEntry.nameLen.at_ r).get buf),
    recFileType buf r)

namespace Tiles

variable {buf buf' : Mem} {blockSize size : ℕ}

theorem append_iff {rs rs' : List ℕ} : ∀ {o : ℕ}, Tiles buf blockSize size o (rs ++ rs') ↔
    ∃ m, Tiles buf blockSize m o rs ∧ Tiles buf blockSize size m rs' := by
  induction rs with
  | nil => simp [Tiles]
  | cons r rest ih =>
      intro o
      simp only [List.cons_append, Tiles, ih]
      constructor
      · rintro ⟨ho, hok, m, hm, hrest⟩
        exact ⟨m, ⟨ho, hok, hm⟩, hrest⟩
      · rintro ⟨m, ⟨ho, hok, hm⟩, hrest⟩
        exact ⟨ho, hok, m, hm, hrest⟩

theorem snoc_iff {rs : List ℕ} {r o : ℕ} : Tiles buf blockSize size o (rs ++ [r]) ↔
    Tiles buf blockSize r o rs ∧ RecordOk buf blockSize r ∧ r + recLength buf r = size := by
  rw [append_iff]
  constructor
  · rintro ⟨m, hm, rfl, hok, hend⟩
    exact ⟨hm, hok, hend⟩
  · rintro ⟨hm, hok, hend⟩
    exact ⟨r, hm, rfl, hok, hend⟩

theorem dvd {d : ℕ} {rs : List ℕ} : ∀ {o : ℕ}, Tiles buf blockSize size o rs → d ∣ o →
    (∀ r ∈ rs, d ∣ recLength buf r) → d ∣ size := by
  induction rs with
  | nil => exact fun h ho _ => h ▸ ho
  | cons r rest ih =>
      rintro o ⟨rfl, -, hrest⟩ ho hall
      exact ih hrest (dvd_add ho (hall r List.mem_cons_self))
        fun r' hr' => hall r' (List.mem_cons_of_mem _ hr')

/-- The records of one block tile it. -/
theorem block {rs : List ℕ} (hb : 0 < blockSize) {k : ℕ} (hk : (k + 1) * blockSize ≤ size) :
    ∀ {o : ℕ}, Tiles buf blockSize size o rs → o ≤ (k + 1) * blockSize →
      Tiles buf blockSize ((k + 1) * blockSize) (max o (k * blockSize))
        (rs.filter fun r => r / blockSize = k) := by
  induction rs with
  | nil =>
      intro o h ho
      obtain rfl : o = size := h
      have hmul : (k + 1) * blockSize = k * blockSize + blockSize := by ring
      simp only [List.filter_nil, Tiles]
      omega
  | cons r rest ih =>
      intro o htiles ho
      have hfrom := htiles.mem
      obtain ⟨rfl, hok, hrest⟩ := htiles
      have hmul : (k + 1) * blockSize = k * blockSize + blockSize := by ring
      have hin := hok.inBlock
      have hdiv := Nat.div_add_mod' r blockSize
      rcases lt_trichotomy (r / blockSize) k with hlt | rfl | hgt
      · have hnext : r / blockSize * blockSize + blockSize ≤ k * blockSize := by
          rw [← Nat.succ_mul]
          exact Nat.mul_le_mul_right _ hlt
        rw [List.filter_cons_of_neg (by simpa using hlt.ne)]
        have htail := ih hrest (by omega)
        rwa [max_eq_right (by omega)] at htail ⊢
      · rw [List.filter_cons_of_pos (by simp), max_eq_left (by omega)]
        have htail := ih hrest (by omega)
        rw [max_eq_left (by omega)] at htail
        exact ⟨rfl, hok, htail⟩
      · -- the block ends where this record starts
        have hge : (k + 1) * blockSize ≤ r := (Nat.le_div_iff_mul_le hb).mp hgt
        have hnil : (r :: rest).filter (fun r => r / blockSize = k) = [] := by
          rw [List.filter_eq_nil_iff]
          intro r' hr'
          have hle : k + 1 ≤ r' / blockSize :=
            (Nat.le_div_iff_mul_le hb).mpr (hge.trans (hfrom r' hr').1)
          simpa using (Nat.lt_of_succ_le hle).ne'
        rw [hnil]
        change max r (k * blockSize) = (k + 1) * blockSize
        omega

theorem recEntry_congr {r : ℕ} (hok : RecordOk buf blockSize r)
    (hs : buf'.SameOn buf r (r + recLength buf r)) :
    RecordOk buf' blockSize r ∧ recLength buf' r = recLength buf r ∧
      recEntry buf' r = recEntry buf r := by
  have hmin := hok.minLength
  have hname := hok.name
  have hget (f : Field) (hf : f.offset + f.width ≤ 12) : (f.at_ r).get buf' = (f.at_ r).get buf :=
    Field.get_congr hs (by simp only [Field.at_]; omega) (by simp only [Field.at_]; omega)
  have hlen : recLength buf' r = recLength buf r := hget DirEntry.recLen (by decide)
  have hnameLen := hget DirEntry.nameLen (by decide)
  refine ⟨⟨hlen ▸ hmin, ?_, hlen ▸ hok.inBlock⟩, hlen, ?_⟩
  · rw [hlen, hnameLen]
    exact hname
  · have hbytes : buf'.bytes (r + DirEntry.nameOffset) ((DirEntry.nameLen.at_ r).get buf) =
        buf.bytes (r + DirEntry.nameOffset) ((DirEntry.nameLen.at_ r).get buf) := by
      apply List.map_congr_left
      intro i hi
      rw [List.mem_range] at hi
      exact hs _ (by unfold DirEntry.nameOffset; omega) (by omega)
    unfold recEntry
    rw [hnameLen, hbytes]
    exact Prod.ext (hget DirEntry.inode (by decide))
      (Prod.ext rfl (hget DirEntry.fileType (by decide)))

/-- Bytes behind the records do not matter. -/
theorem frame {rs : List ℕ} {o : ℕ} (h : Tiles buf blockSize size o rs)
    (hs : buf'.SameOn buf o size) :
    Tiles buf' blockSize size o rs ∧ (∀ r ∈ rs, recLength buf' r = recLength buf r) ∧
      rs.map (recEntry buf') = rs.map (recEntry buf) := by
  have hrec : ∀ r ∈ rs, RecordOk buf' blockSize r ∧ recLength buf' r = recLength buf r ∧
      recEntry buf' r = recEntry buf r := by
    intro r hr
    obtain ⟨hle, hok, hend⟩ := h.mem r hr
    exact recEntry_congr hok (hs.mono hle hend)
  exact ⟨h.congr fun r hr => ⟨(hrec r hr).1, (hrec r hr).2.1⟩, fun r hr => (hrec r hr).2.1,
    List.map_congr_left fun r hr => (hrec r hr).2.2⟩

end Tiles

/-! ## Writing the records -/

/-- The records `rs` fill the buffer up to `offset` and say `entries`. -/
structure Written (blockSize : ℕ) (data : Mem) (offset : ℕ) (entries : List (ℕ × List UInt8 × ℕ))
    (rs : List ℕ) : Prop where
  tiles : Tiles data blockSize offset 0 rs
  aligned : ∀ r ∈ rs, 4 ∣ recLength data r
  entries : rs.map (recEntry data) = entries

section Record

variable {data : Mem} {offset inode recLen nameLen fileType : ℕ} {name : List UInt8}

theorem writeDentry_sameOn :
    (writeDentry data offset inode recLen nameLen fileType name).SameOn data 0 offset := by
  intro x _ hx
  unfold writeDentry
  rw [Mem.storeBytes, if_neg (by unfold DirEntry.nameOffset; omega)]
  apply Mem.assign_apply_of_not_mem
  intro p hp
  simp only [List.mem_cons, List.not_mem_nil, or_false] at hp
  rcases hp with rfl | rfl | rfl | rfl <;> exact Or.inl (by simp only [Field.at_]; omega)

/-- The members of the new record. -/
theorem writeDentry_get (i : ℕ) {f : Field} {v : ℕ} (hf : f.offset + f.width ≤ 8)
    (hi : [(DirEntry.inode, inode), (DirEntry.recLen, recLen), (DirEntry.nameLen, nameLen),
      (DirEntry.fileType, fileType)][i]? = some (f, v)) :
    (f.at_ offset).get (writeDentry data offset inode recLen nameLen fileType name) =
      v % 256 ^ f.width := by
  have hname : (f.at_ offset).get (writeDentry data offset inode recLen nameLen fileType name) =
      (f.at_ offset).get (data.assign [(DirEntry.inode.at_ offset, inode),
        (DirEntry.recLen.at_ offset, recLen), (DirEntry.nameLen.at_ offset, nameLen),
        (DirEntry.fileType.at_ offset, fileType)]) := by
    apply Mem.load_congr
    intro j hj
    change j < f.width at hj
    unfold writeDentry Mem.storeBytes
    rw [if_neg (by simp only [Field.at_, DirEntry.nameOffset]; omega)]
  rw [hname]
  refine Field.get_assign ?_ i ?_ data
  · simp [Field.Disjoint, Field.at_, DirEntry.inode, DirEntry.recLen, DirEntry.nameLen,
      DirEntry.fileType, Nat.add_assoc]
  · rcases i with _ | _ | _ | _ | i <;> simp_all

variable (data offset inode) in
/-- The new record says what it was made of. -/
theorem writeDentry_record (hname : name.length ≤ 255) (hlen : recLen < 65536)
    (htype : fileType < 256) :
    recLength (writeDentry data offset inode recLen name.length fileType name) offset = recLen ∧
      (DirEntry.nameLen.at_ offset).get
        (writeDentry data offset inode recLen name.length fileType name) = name.length ∧
      recEntry (writeDentry data offset inode recLen name.length fileType name) offset =
        (u32 inode, name, fileType) := by
  have hlength : recLength (writeDentry data offset inode recLen name.length fileType name)
      offset = recLen :=
    (writeDentry_get 1 (by decide) rfl).trans (Nat.mod_eq_of_lt hlen)
  have hnameLen : (DirEntry.nameLen.at_ offset).get
      (writeDentry data offset inode recLen name.length fileType name) = name.length :=
    (writeDentry_get 2 (by decide) rfl).trans (Nat.mod_eq_of_lt (Nat.lt_succ_of_le hname))
  refine ⟨hlength, hnameLen, Prod.ext ?_ (Prod.ext ?_ ?_)⟩
  · exact writeDentry_get 0 (by decide) rfl
  · change Mem.bytes _ _ ((DirEntry.nameLen.at_ offset).get _) = name
    rw [hnameLen]
    apply List.ext_getElem
    · simp [Mem.bytes]
    · intro i h₁ h₂
      simp [Mem.bytes, writeDentry, Mem.storeBytes, h₂]
  · exact (writeDentry_get 3 (by decide) rfl).trans (Nat.mod_eq_of_lt htype)

end Record

/-- Crossing a block boundary, in the words of `add_dentry`. -/
theorem end_block {blockSize offset size : ℕ} (hsize : 0 < size) (hle : size ≤ blockSize) :
    (offset + size - 1) / blockSize =
      if blockSize < offset % blockSize + size then offset / blockSize + 1
      else offset / blockSize := by
  have hdiv := Nat.div_add_mod' offset blockSize
  have hmod := Nat.mod_lt offset (hsize.trans_le hle)
  have hsplit : offset + size - 1 =
      offset % blockSize + size - 1 + offset / blockSize * blockSize := by omega
  rw [hsplit, Nat.add_mul_div_right _ _ (hsize.trans_le hle)]
  split
  · rw [Nat.div_eq_of_lt_le (k := 1) (by omega) (by omega), Nat.add_comm]
  · rw [Nat.div_eq_of_lt (by omega), Nat.zero_add]

namespace Written

variable {blockSize offset : ℕ} {data : Mem} {entries : List (ℕ × List UInt8 × ℕ)} {rs : List ℕ}

theorem four_dvd (h : Written blockSize data offset entries rs) : 4 ∣ offset :=
  h.tiles.dvd (Dvd.intro 0 rfl) h.aligned

/-- A record that does not cross the end of a block is written behind the others. -/
theorem place (h : Written blockSize data offset entries rs) {name : List UInt8}
    (h₁ : 1 ≤ name.length) (h₂ : name.length ≤ 255) {fileType : ℕ} (htype : fileType < 256)
    (hfits : offset % blockSize + recSize name.length ≤ blockSize) (inode : ℕ) :
    Written blockSize
      (writeDentry data offset inode (recSize name.length) name.length fileType name)
      (offset + recSize name.length) (entries ++ [(u32 inode, name, fileType)])
      (rs ++ [offset]) := by
  obtain ⟨hmin, hroom, hmax, hfour⟩ := recSize_bounds h₁ h₂
  obtain ⟨hlen, hnameLen, hentry⟩ :=
    writeDentry_record data offset inode h₂ (hmax.trans_lt (by decide)) htype
  obtain ⟨htiles, hlens, hentries⟩ := h.tiles.frame writeDentry_sameOn
  refine ⟨Tiles.snoc_iff.mpr ⟨htiles, ⟨?_, ?_, ?_⟩, ?_⟩, ?_, ?_⟩
  · rwa [hlen]
  · rwa [hlen, hnameLen]
  · rwa [hlen]
  · rw [hlen]
  · intro r hr
    rcases List.mem_append.mp hr with hr | hr
    · rw [hlens r hr]
      exact h.aligned r hr
    · rw [List.mem_singleton.mp hr, hlen]
      exact hfour
  · rw [List.map_append, hentries, h.entries, List.map_singleton, hentry]

/-- The last record is stretched, at most to the end of its block. -/
theorem stretch {p stop : ℕ} (h : Written blockSize data offset entries (rs ++ [p]))
    (hblock : blockSize < 65536) (hfrom : offset ≤ stop) (hfour : 4 ∣ stop)
    (hin : p % blockSize + (stop - p) ≤ blockSize) :
    Written blockSize ((DirEntry.recLen.at_ p).set data
      (u16 ((DirEntry.recLen.at_ p).get data + (stop - offset)))) stop entries (rs ++ [p]) := by
  obtain ⟨hfront, hok, hend⟩ := Tiles.snoc_iff.mp h.tiles
  have hsum : (DirEntry.recLen.at_ p).get data + (stop - offset) = stop - p := by
    change recLength data p + (stop - offset) = stop - p
    omega
  rw [hsum, u16_of_lt (by omega)]
  generalize hdata : (DirEntry.recLen.at_ p).set data (stop - p) = data'
  have hsame (x : ℕ) (hx : x < p + 4 ∨ p + 6 ≤ x) : data' x = data x := by
    rw [← hdata]
    exact Mem.store_apply_of_not_mem (by simpa [Field.at_, DirEntry.recLen] using hx)
  have hget (f : Field) (hf : f.offset + f.width ≤ 4 ∨ 6 ≤ f.offset) :
      (f.at_ p).get data' = (f.at_ p).get data := by
    apply Mem.load_congr
    intro i hi
    change i < f.width at hi
    exact hsame _ (by simp only [Field.at_]; omega)
  have hlen : recLength data' p = stop - p := by
    rw [← hdata]
    refine (Field.get_set_self _ _ _).trans (Nat.mod_eq_of_lt ?_)
    change stop - p < 256 ^ 2
    omega
  have hnameLen := hget DirEntry.nameLen (by decide)
  have hmin := hok.minLength
  have hname := hok.name
  obtain ⟨htiles, hlens, hentries⟩ := hfront.frame fun x _ hx => hsame x (by omega)
  refine ⟨Tiles.snoc_iff.mpr ⟨htiles, ⟨?_, ?_, ?_⟩, ?_⟩, ?_, ?_⟩
  · rw [hlen]
    omega
  · rw [hlen, hnameLen]
    omega
  · rwa [hlen]
  · rw [hlen]
    omega
  · intro r hr
    rcases List.mem_append.mp hr with hmem | hmem
    · rw [hlens r hmem]
      exact h.aligned r hr
    · rw [List.mem_singleton.mp hmem, hlen]
      have hlast := h.aligned p (by simp)
      have := h.four_dvd
      omega
  · have hbytes : data'.bytes (p + DirEntry.nameOffset) ((DirEntry.nameLen.at_ p).get data) =
        data.bytes (p + DirEntry.nameOffset) ((DirEntry.nameLen.at_ p).get data) :=
      List.map_congr_left fun i _ => hsame _ (by unfold DirEntry.nameOffset; omega)
    have hlast : recEntry data' p = recEntry data p := by
      unfold recEntry
      rw [hnameLen, hbytes]
      exact Prod.ext (hget DirEntry.inode (by decide))
        (Prod.ext rfl (hget DirEntry.fileType (by decide)))
    rw [← h.entries, List.map_append, List.map_append, hentries, List.map_singleton, hlast,
      List.map_singleton]

/-- The last record is stretched to the end of its block. -/
theorem stretch_block {p : ℕ} (h : Written blockSize data offset entries (rs ++ [p]))
    (hblock : blockSize < 65536) (hfour : 4 ∣ blockSize) (hpart : offset % blockSize ≠ 0)
    (hfits : (offset / blockSize + 1) * blockSize < 2 ^ 32) :
    Written blockSize ((DirEntry.recLen.at_ p).set data
      (u16 ((DirEntry.recLen.at_ p).get data + sub32 ((offset / blockSize + 1) * blockSize) offset)))
      ((offset / blockSize + 1) * blockSize) entries (rs ++ [p]) := by
  obtain ⟨-, hok, hend⟩ := Tiles.snoc_iff.mp h.tiles
  have hb : 0 < blockSize := by
    have := hok.minLength
    have := hok.inBlock
    omega
  have hfrom : offset ≤ (offset / blockSize + 1) * blockSize := by
    rw [← add_sub_mod offset hb]
    omega
  have hsame : offset / blockSize = p / blockSize := by
    have hin := hok.inBlock
    have hp := Nat.div_add_mod' p blockSize
    apply Nat.div_eq_of_lt_le
    · omega
    · rw [Nat.add_mul, Nat.one_mul]
      refine lt_of_le_of_ne (by omega) ?_
      rintro hstop
      apply hpart
      rw [hstop, ← Nat.succ_mul, Nat.mul_mod_left]
  rw [sub32_of_le hfrom hfits]
  refine h.stretch hblock hfrom (hfour.mul_left _) ?_
  have hp := Nat.div_add_mod' p blockSize
  have hmod := Nat.mod_lt p hb
  rw [hsame, Nat.add_mul, Nat.one_mul]
  omega

/-- The last record of all is stretched to the end of the directory. -/
theorem finish {p : ℕ} (h : Written blockSize data offset entries (rs ++ [p]))
    (hblock : blockSize < 65536) (hfour : 4 ∣ blockSize)
    (hfits : offset ⌈/⌉ blockSize * blockSize < 2 ^ 32) :
    Written blockSize ((DirEntry.recLen.at_ p).set data
      (u16 ((DirEntry.recLen.at_ p).get data + sub32 (offset ⌈/⌉ blockSize * blockSize) offset)))
      (offset ⌈/⌉ blockSize * blockSize) entries (rs ++ [p]) := by
  obtain ⟨-, hok, hend⟩ := Tiles.snoc_iff.mp h.tiles
  have hin := hok.inBlock
  have hb : 0 < blockSize := by
    have := hok.minLength
    omega
  have hdiv := Nat.div_add_mod' offset blockSize
  have hmod := Nat.mod_lt offset hb
  by_cases hpart : offset % blockSize = 0
  · have hceil : offset ⌈/⌉ blockSize * blockSize = offset := by
      rw [Nat.ceilDiv_eq_add_pred_div]
      have hquot : (offset + blockSize - 1) / blockSize = offset / blockSize :=
        Nat.div_eq_of_lt_le (by omega) (by rw [Nat.add_mul, Nat.one_mul]; omega)
      rw [hquot]
      omega
    rw [hceil] at hfits ⊢
    rw [sub32_of_le le_rfl hfits]
    exact h.stretch hblock le_rfl h.four_dvd (by omega)
  · have hceil : offset ⌈/⌉ blockSize = offset / blockSize + 1 := by
      rw [Nat.ceilDiv_eq_add_pred_div]
      refine Nat.div_eq_of_lt_le ?_ ?_ <;> simp only [Nat.add_mul, Nat.one_mul] <;> omega
    rw [hceil] at hfits ⊢
    exact h.stretch_block hblock hfour hpart hfits

end Written

section Adding

variable {blockSize cap offset : ℕ} {data : Mem} {entries : List (ℕ × List UInt8 × ℕ)}
variable (hb : 264 ≤ blockSize) (hb' : blockSize < 65536) (hfour : 4 ∣ blockSize)
variable (hcap : cap < 2 ^ 32)

include hcap

/-- `add_dentry` on a record that stays in the current block. -/
theorem addDentry_inside {prev : Option ℕ} {rs : List ℕ}
    (h : Written blockSize data offset entries rs) {name : List UInt8} (h₁ : 1 ≤ name.length)
    (h₂ : name.length ≤ 255) {fileType : ℕ} (htype : fileType < 256) (inode : ℕ)
    (hin : offset % blockSize + recSize name.length ≤ blockSize)
    (hfits : offset + recSize name.length ≤ cap) :
    ∃ data', addDentry blockSize cap data offset prev inode name fileType =
        .ok (offset, offset + recSize name.length, data') ∧
      Written blockSize data' (offset + recSize name.length)
        (entries ++ [(u32 inode, name, fileType)]) (rs ++ [offset]) := by
  obtain ⟨hmin, hroom, hmax, -⟩ := recSize_bounds h₁ h₂
  obtain ⟨hname, hrec⟩ := recSize_words h₁ h₂
  have hend : u32 (offset + recSize name.length - 1) / blockSize = offset / blockSize := by
    rw [u32_of_lt (by omega), end_block (by omega) (by omega), if_neg (by omega)]
  refine ⟨_, ?_, h.place h₁ h₂ htype hin inode⟩
  simp only [addDentry, hname, hrec, hend, ne_eq, not_true_eq_false, if_false]
  rw [if_neg (by unfold DirEntry.nameOffset; omega), u32_of_lt (by omega)]

include hb hb' hfour

/-- `add_dentry` behind another record. -/
theorem addDentry_spec {rs : List ℕ} {p : ℕ}
    (h : Written blockSize data offset entries (rs ++ [p])) {name : List UInt8}
    (h₁ : 1 ≤ name.length) (h₂ : name.length ≤ 255) {fileType : ℕ} (htype : fileType < 256)
    (inode : ℕ)
    (hfits : recStart blockSize offset (recSize name.length) + recSize name.length ≤ cap) :
    ∃ data', addDentry blockSize cap data offset (some p) inode name fileType =
        .ok (recStart blockSize offset (recSize name.length),
          recStart blockSize offset (recSize name.length) + recSize name.length, data') ∧
      Written blockSize data'
        (recStart blockSize offset (recSize name.length) + recSize name.length)
        (entries ++ [(u32 inode, name, fileType)])
        (rs ++ [p] ++ [recStart blockSize offset (recSize name.length)]) := by
  by_cases hcross : blockSize < offset % blockSize + recSize name.length
  · -- the record before the gap is stretched, and then nothing is crossed
    obtain ⟨hmin, hroom, hmax, -⟩ := recSize_bounds h₁ h₂
    have hstart : recStart blockSize offset (recSize name.length) =
        (offset / blockSize + 1) * blockSize := if_pos hcross
    rw [hstart] at hfits ⊢
    have hle : offset ≤ (offset / blockSize + 1) * blockSize := by
      rw [← hstart]
      exact le_recStart (by omega) _ _
    obtain ⟨hname, hrec⟩ := recSize_words h₁ h₂
    have hend : u32 (offset + recSize name.length - 1) / blockSize = offset / blockSize + 1 := by
      rw [u32_of_lt (by omega), end_block (by omega) (by omega), if_pos hcross]
    have hstretched := h.stretch_block hb' hfour (by omega) (by omega)
    have hzero : (offset / blockSize + 1) * blockSize % blockSize = 0 := Nat.mul_mod_left _ _
    refine ⟨_, ?_, hstretched.place h₁ h₂ htype (by omega) inode⟩
    simp only [addDentry, hname, hrec, hend, ne_eq, Nat.left_eq_add, one_ne_zero,
      not_false_eq_true, if_true]
    rw [u32_of_lt (n := (offset / blockSize + 1) * blockSize) (by omega),
      if_neg (by unfold DirEntry.nameOffset; omega), u32_of_lt (by omega)]
  · have hstart : recStart blockSize offset (recSize name.length) = offset := if_neg hcross
    rw [hstart] at hfits ⊢
    exact addDentry_inside hcap h h₁ h₂ htype inode (by omega) hfits

/-- The entry that `make_directory` writes for a name. -/
def Dentry.entry (d : Dentry) : ℕ × List UInt8 × ℕ := (0, d.filename, d.fileType.toNat)

/-- The loop of `make_directory` ends where `dentry_size` says, with a record for each name. -/
theorem dentryLoop_spec {dentries : List Dentry}
    (hnames : ∀ d ∈ dentries, 1 ≤ d.filename.length ∧ d.filename.length ≤ 255) :
    ∀ {offset : ℕ} {data : Mem} {entries : List (ℕ × List UInt8 × ℕ)} {rs : List ℕ} {p : ℕ},
      Written blockSize data offset entries (rs ++ [p]) → dirEnd blockSize dentries offset ≤ cap →
      ∃ inodes rs' p' data', dentryLoop blockSize cap dentries p offset data =
          .ok (inodes, p', dirEnd blockSize dentries offset, data') ∧
        rs' ++ [p'] = rs ++ [p] ++ inodes ∧
        Written blockSize data' (dirEnd blockSize dentries offset)
          (entries ++ dentries.map Dentry.entry) (rs' ++ [p']) := by
  induction dentries with
  | nil =>
      intro offset data entries rs p h _
      exact ⟨[], rs, p, data, rfl, by simp, by simpa [dirEnd] using h⟩
  | cons d rest ih =>
      intro offset data entries rs p h hfits
      obtain ⟨h₁, h₂⟩ := hnames d List.mem_cons_self
      have hpos : 0 < blockSize := by omega
      simp only [dirEnd] at hfits ⊢
      generalize hstart : recStart blockSize offset (recSize d.filename.length) = start at hfits ⊢
      have hle := le_dirEnd hpos rest (start + recSize d.filename.length)
      obtain ⟨data₁, hadd, hwritten⟩ := addDentry_spec hb hb' hfour hcap h h₁ h₂
        d.fileType.toNat_lt 0 (by omega)
      rw [hstart] at hadd hwritten
      obtain ⟨inodes, rs', p', data', hloop, hrs, hend⟩ :=
        ih (fun d hd => hnames d (List.mem_cons_of_mem _ hd)) hwritten hfits
      -- only the last record of all can end where the buffer does
      have hcheck : ¬ (cap < start + recSize d.filename.length ∨
          (start + recSize d.filename.length = cap ∧ rest ≠ [])) := by
        rintro (hpast | ⟨hat, hne⟩)
        · omega
        · have hlt := lt_dirEnd hpos hne (start + recSize d.filename.length)
          omega
      refine ⟨start :: inodes, rs', p', data', ?_, ?_, ?_⟩
      · simp only [dentryLoop, hadd, bind_ok, if_neg hcheck, hloop]
        rfl
      · rw [hrs]
        simp
      · simpa [Dentry.entry, u32] using hend

/-- The entries of a directory: itself, its parent and the names. -/
def directoryEntries (inodeNum dirInodeNum : ℕ) (dentries : List Dentry) :
    List (ℕ × List UInt8 × ℕ) :=
  (u32 inodeNum, [46], EXT4_FT_DIR) :: (u32 dirInodeNum, [46, 46], EXT4_FT_DIR) ::
    dentries.map Dentry.entry

theorem addDentries_spec {dentries : List Dentry}
    (hnames : ∀ d ∈ dentries, 1 ≤ d.filename.length ∧ d.filename.length ≤ 255)
    (hfits : dirEnd blockSize dentries 24 ≤ cap) (inodeNum dirInodeNum : ℕ) (data : Mem) :
    ∃ inodes rs p data', addDentries blockSize cap inodeNum dirInodeNum dentries data =
        .ok (inodes, p, dirEnd blockSize dentries 24, data') ∧
      rs ++ [p] = 0 :: 12 :: inodes ∧
      Written blockSize data' (dirEnd blockSize dentries 24)
        (directoryEntries inodeNum dirInodeNum dentries) (rs ++ [p]) := by
  have hpos : 0 < blockSize := by omega
  have hle := le_dirEnd hpos dentries 24
  have hempty : Written blockSize data 0 [] [] := ⟨rfl, by simp, rfl⟩
  have hmod : 12 % blockSize = 12 := Nat.mod_eq_of_lt (by omega)
  have hself : ∃ data', addDentry blockSize cap data 0 none inodeNum [46] EXT4_FT_DIR =
      .ok (0, 12, data') ∧
        Written blockSize data' 12 [(u32 inodeNum, [46], EXT4_FT_DIR)] [0] :=
    addDentry_inside hcap hempty (by decide) (by decide) (by decide) inodeNum
      (by change 0 % blockSize + 12 ≤ blockSize; rw [Nat.zero_mod]; omega)
      (by change 12 ≤ cap; omega)
  obtain ⟨data₁, hadd₁, hwritten₁⟩ := hself
  have hparent : ∃ data', addDentry blockSize cap data₁ 12 (some 0) dirInodeNum [46, 46]
      EXT4_FT_DIR = .ok (12, 24, data') ∧ Written blockSize data' 24
        [(u32 inodeNum, [46], EXT4_FT_DIR), (u32 dirInodeNum, [46, 46], EXT4_FT_DIR)] ([0] ++ [12]) :=
    addDentry_inside hcap hwritten₁ (by decide) (by decide) (by decide) dirInodeNum
      (by change 12 % blockSize + 12 ≤ blockSize; omega) (by change 24 ≤ cap; omega)
  obtain ⟨data₂, hadd₂, hwritten₂⟩ := hparent
  obtain ⟨inodes, rs, p, data', hloop, hrs, hend⟩ :=
    dentryLoop_spec hb hb' hfour hcap hnames hwritten₂ hfits
  refine ⟨inodes, rs, p, data', ?_, hrs, hend⟩
  simp only [addDentries, hadd₁, bind_ok, hadd₂, hloop]

end Adding

/-! ## The directory -/

/-- The buffer is as long as the directory. -/
theorem directoryLen_eq {k : ℕ} (hk : k < 16) {dentries : List Dentry}
    (hnames : ∀ d ∈ dentries, 1 ≤ d.filename.length ∧ d.filename.length ≤ 255)
    (hsize : directorySize (2 ^ k) dentries < 2 ^ 32) :
    dentrySize (2 ^ k) dentries = dirEnd (2 ^ k) dentries 24 ∧
      directoryLen (2 ^ k) dentries = directorySize (2 ^ k) dentries := by
  have hpos : 0 < 2 ^ k := Nat.two_pow_pos k
  have hblock : 2 ^ k < 65536 := Nat.pow_lt_pow_right (by decide) hk
  -- the size is a multiple of the block size, and so is `2 ^ 32`
  have hroom : directorySize (2 ^ k) dentries + 2 ^ k ≤ 2 ^ 32 := by
    have hpow : 2 ^ (32 - k) * 2 ^ k = 2 ^ 32 := by
      rw [← pow_add, Nat.sub_add_cancel (by omega)]
    rw [directorySize, ← hpow] at hsize ⊢
    rw [← Nat.succ_mul]
    exact Nat.mul_le_mul_right _ (Nat.lt_of_mul_lt_mul_right hsize)
  have hle : dirEnd (2 ^ k) dentries 24 ≤ directorySize (2 ^ k) dentries := by
    have := le_smul_ceilDiv (b := dirEnd (2 ^ k) dentries 24) hpos
    rwa [smul_eq_mul, Nat.mul_comm] at this
  have hend : dentrySize (2 ^ k) dentries = dirEnd (2 ^ k) dentries 24 :=
    dentrySizeLoop_eq hpos hblock dentries (fun d hd => (hnames d hd).2) 24 (by omega)
  refine ⟨hend, ?_⟩
  rw [directoryLen, hend, divRoundUp32_eq (by omega)]
  exact u32_of_lt hsize

/-- The records of a directory fill its blocks and say `entries`. -/
structure Encodes (blockSize : ℕ) (made : MadeDirectory) (entries : List (ℕ × List UInt8 × ℕ))
    (rs : List ℕ) : Prop extends Written blockSize made.data made.len entries rs where
  whole : blockSize ∣ made.len
  blocks : ∀ j, (j + 1) * blockSize ≤ made.len →
    Tiles made.data blockSize ((j + 1) * blockSize) (j * blockSize)
      (rs.filter fun r => r / blockSize = j)

/-- `make_directory` with storage for it: the rest is up to the calls of `add_dentry`. -/
theorem makeDirectory_of_storage {storage : DirectoryStorage} {inode data : Mem}
    (hinode : storage.inode = some inode) (hdata : storage.data = some data) {dirInodeNum : ℕ}
    (hnum : dirInodeNum ≠ 0 → storage.inodeNum ≠ EXT4_ALLOCATE_FAILED) :
    ∃ num parent, (num, parent) = (if dirInodeNum ≠ 0 then (storage.inodeNum, dirInodeNum)
        else (EXT4_ROOT_INO, EXT4_ROOT_INO)) ∧
      ∀ (blockSize : ℕ) (dentries : List Dentry) (dirs : ℕ) {inodes : List ℕ} {last offset : ℕ}
        {data' : Mem}, addDentries blockSize (directoryLen blockSize dentries) num parent dentries
          data = .ok (inodes, last, offset, data') →
        makeDirectory blockSize storage dirInodeNum dentries dirs =
          .ok ⟨num, setDirectory inode dirs, directoryLen blockSize dentries,
            (DirEntry.recLen.at_ last).set data' (u16 ((DirEntry.recLen.at_ last).get data' +
              sub32 (directoryLen blockSize dentries) offset)), inodes⟩ := by
  by_cases hroot : dirInodeNum = 0
  · refine ⟨EXT4_ROOT_INO, EXT4_ROOT_INO, by simp [hroot], ?_⟩
    intro blockSize dentries dirs inodes last offset data' hadd
    have hfailed : EXT4_ROOT_INO ≠ EXT4_ALLOCATE_FAILED := by decide
    simp only [makeDirectory, hroot, hinode, hdata, hadd, ne_eq, not_true_eq_false, if_false,
      if_neg hfailed, bind_ok]
  · refine ⟨storage.inodeNum, dirInodeNum, by simp [hroot], ?_⟩
    intro blockSize dentries dirs inodes last offset data' hadd
    simp only [makeDirectory, hroot, hinode, hdata, hadd, ne_eq, not_false_eq_true, if_true,
      if_neg (hnum hroot), bind_ok]

/-- `make_directory` with storage for it makes a directory of the size that `dentry_size` said,
in whole blocks that its records tile: itself, its parent and the given names. -/
theorem makeDirectory_encodes {k : ℕ} (hk : 10 ≤ k) (hk' : k < 16) {dentries : List Dentry}
    (hnames : ∀ d ∈ dentries, 1 ≤ d.filename.length ∧ d.filename.length ≤ 255)
    (hsize : directorySize (2 ^ k) dentries < 2 ^ 32) {storage : DirectoryStorage}
    {inode data : Mem} (hinode : storage.inode = some inode) (hdata : storage.data = some data)
    {dirInodeNum : ℕ} (hnum : dirInodeNum ≠ 0 → storage.inodeNum ≠ EXT4_ALLOCATE_FAILED)
    (dirs : ℕ) :
    ∃ made rs parent inodes last data',
      makeDirectory (2 ^ k) storage dirInodeNum dentries dirs = .ok made ∧
      (made.inodeNum, parent) = (if dirInodeNum ≠ 0 then (storage.inodeNum, dirInodeNum)
        else (EXT4_ROOT_INO, EXT4_ROOT_INO)) ∧
      addDentries (2 ^ k) made.len made.inodeNum parent dentries data =
        .ok (inodes, last, dentrySize (2 ^ k) dentries, data') ∧
      made.len = directorySize (2 ^ k) dentries ∧
      rs = 0 :: 12 :: made.inodes ∧
      Encodes (2 ^ k) made (directoryEntries made.inodeNum parent dentries) rs := by
  have hpos : 0 < 2 ^ k := Nat.two_pow_pos k
  have hb : 264 ≤ 2 ^ k := le_trans (by decide) (Nat.pow_le_pow_right (by decide) hk)
  have hb' : 2 ^ k < 65536 := Nat.pow_lt_pow_right (by decide) hk'
  have hfour : 4 ∣ 2 ^ k := pow_dvd_pow 2 (show 2 ≤ k by omega)
  obtain ⟨hend, hlen⟩ := directoryLen_eq hk' hnames hsize
  have hle : dirEnd (2 ^ k) dentries 24 ≤ directorySize (2 ^ k) dentries := by
    have := le_smul_ceilDiv (b := dirEnd (2 ^ k) dentries 24) hpos
    rwa [smul_eq_mul, Nat.mul_comm] at this
  obtain ⟨num, parent, hnums, hok⟩ := makeDirectory_of_storage hinode hdata hnum
  obtain ⟨inodes, rs, last, data', hadd, hrs, hwritten⟩ :=
    addDentries_spec hb hb' hfour hsize hnames hle num parent data
  have hfinish := hwritten.finish hb' hfour hsize
  have hmade := hok (2 ^ k) dentries dirs (hlen ▸ hadd)
  rw [hlen] at hmade
  refine ⟨_, rs ++ [last], parent, inodes, last, data', hmade, hnums, hend ▸ hadd, rfl, hrs,
    ⟨hfinish, Dvd.intro_left _ rfl, ?_⟩⟩
  intro j hj
  have htiles := hfinish.tiles.block hpos hj (Nat.zero_le _)
  rwa [Nat.zero_max] at htiles

/-- Four files with names as long as can be; the fourth does not fit in the first block. -/
def longNames : List Dentry := List.replicate 4 ⟨List.replicate 255 97, 1⟩

/-- A free inode and a zeroed buffer. -/
def freshStorage : DirectoryStorage := ⟨12, some Mem.zero, some Mem.zero⟩

theorem makeDirectory_encodes_longNames :
    ∃ made rs, makeDirectory 1024 freshStorage 2 longNames 0 = .ok made ∧
      made.len = 2048 ∧ Encodes 1024 made (directoryEntries 12 2 longNames) rs := by
  have hnames : ∀ d ∈ longNames, 1 ≤ d.filename.length ∧ d.filename.length ≤ 255 := by
    intro d hd
    rw [List.eq_of_mem_replicate hd, List.length_replicate]
    decide
  have hsize : directorySize (2 ^ 10) longNames = 2048 := by decide +kernel
  have hnum : 2 ≠ 0 → freshStorage.inodeNum ≠ EXT4_ALLOCATE_FAILED := by decide
  obtain ⟨made, rs, parent, -, -, -, hmade, hnums, -, hlen, -, hencodes⟩ :=
    makeDirectory_encodes (k := 10) le_rfl (by decide) hnames (hsize ▸ by decide)
      (show freshStorage.inode = some Mem.zero from rfl) rfl hnum 0
  have hself : made.inodeNum = 12 := congrArg Prod.fst hnums
  have hparent : parent = 2 := congrArg Prod.snd hnums
  rw [hself, hparent] at hencodes
  exact ⟨made, rs, hmade, hlen.trans hsize, hencodes⟩

end SystemExtras.Ext4
