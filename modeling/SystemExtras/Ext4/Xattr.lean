import SystemExtras.Lib.Run
import SystemExtras.Ext4.ExtentFormat

/-!
# Extended attributes

A translation of the part of `contents.c` that adds extended attributes to an
inode.  A region, the space behind an inode or a block of its own, is filled from
both ends: entry records grow upward, values downward, and a word of zeros ends
the entries.  No function stores how much is in use; each walks the entries.

`xattr_addto_range` accepts an attribute when the record and the value fit into
what is free, without a thought for the word that has to stay behind the last
record.  `staysWalkable_iff` says that this is all that can go wrong: a region
stays walkable exactly as long as every attribute that is accepted leaves four
bytes.

## Strategy

`Stored` is the shape of a region: the records of the attributes one behind the
other, the value of each right below the value of the one before it, and zeros from
the last record up to the last value.  Everything else is read off it.

* Each walk of the code ends where `Stored` says (`Stored.freeLoop`,
  `Stored.assertSane`, `Stored.getLast`), and finds as much room as the records and
  values leave (`Stored.freeSpace`).
* What a reader finds in a region of that shape are the attributes that were stored,
  in their order, and no byte belongs to two of them (`Stored.triples`,
  `Stored.values`).  It finds an end exactly if the word behind the last record lies
  below the last value (`Stored.walkable_iff`).
* Writing an attribute that has room gives a region of that shape again
  (`Stored.write`), with one attribute more and its bytes less.

So a run is a sequence of numbers, the bytes that are left, and `KeepsRoom` says of
these that they never fall below four (`staysWalkable_iff_of_stored`).  Once the word
is gone nothing is said about later calls, since a walk then runs into a value.
-/

namespace SystemExtras.Ext4

open Mem

/-! ## Entries -/

namespace XattrEntry

def eNameLen : Field := ⟨0, 1⟩
def eNameIndex : Field := ⟨1, 1⟩
def eValueOffs : Field := ⟨2, 2⟩
def eValueBlock : Field := ⟨4, 4⟩
def eValueSize : Field := ⟨8, 4⟩
def eHash : Field := ⟨12, 4⟩

/-- `sizeof(struct ext4_xattr_entry)`, where the name starts. -/
def size : ℕ := 16

end XattrEntry

open XattrEntry

def EXT4_XATTR_MAGIC : ℕ := 0xEA020000

/-- `sizeof(struct ext4_xattr_header)`. -/
def sizeofXattrHeader : ℕ := 32

/-- `sizeof(struct ext4_xattr_ibody_header)`. -/
def sizeofXattrIbodyHeader : ℕ := 4

/-- `EXT4_XATTR_LEN`, computed in `size_t`. -/
def xattrLen (nameLen : ℕ) : ℕ := u64 (nameLen + 3 + size) / 4 * 4

/-- `EXT4_XATTR_SIZE`, computed in the `w` bits of its argument. -/
def xattrSize (w n : ℕ) : ℕ := (n + 3) % 2 ^ w / 4 * 4

/-- `EXT4_XATTR_NEXT`. -/
def xattrNext (m : Mem) (e : ℕ) : ℕ := e + xattrLen ((eNameLen.at_ e).get m)

/-- `IS_LAST_ENTRY`, in a buffer that ends at `limit`. -/
def isLastEntry (limit : ℕ) (m : Mem) (e : ℕ) : Except Stop Bool :=
  if limit < e + 4 then .error .undefined else .ok (decide (m.load e 4 = 0))

/-- The arguments of a call: a C string of at least one byte, and a value. -/
structure Xattr where
  nameIndex : ℕ
  name : List UInt8
  value : List UInt8
  nameIndex_lt : nameIndex < 2 ^ 8 := by decide
  name_pos : 0 < name.length := by decide
  name_lt : name.length < 2 ^ 62 := by decide
  name_ne : ∀ c ∈ name, c ≠ 0 := by decide
  value_lt : value.length < 2 ^ 62 := by decide

/-! ## Walking -/

/-- The loop of `xattr_free_space`.  An entry takes at least sixteen bytes, so
there are fewer rounds than bytes. -/
def xattrFreeLoop (limit : ℕ) (m : Mem) : ℕ → ℕ → ℤ → Except Stop (ℕ × ℤ)
  | 0, _, _ => .error .hang
  | fuel + 1, entry, stop => do
      let last ← isLastEntry limit m entry
      if last ∨ ¬ (entry : ℤ) < stop then .ok (entry, stop)
      else if limit < entry + size then .error .undefined
      else
        xattrFreeLoop limit m fuel (xattrNext m entry)
          (stop - xattrSize 32 ((eValueSize.at_ entry).get m))

/-- `xattr_free_space`. -/
def xattrFreeSpace (limit : ℕ) (m : Mem) (entry stop : ℕ) : Except Stop ℕ := do
  let (entry, stop) ← xattrFreeLoop limit m (limit + 1) entry stop
  if (entry : ℤ) > stop then .error (.error "unexpected read beyond end of xattr space")
  else .ok (stop - entry).toNat

/-- The loop of `xattr_get_last`. -/
def xattrGetLast (limit : ℕ) (m : Mem) : ℕ → ℕ → Except Stop ℕ
  | 0, _ => .error .hang
  | fuel + 1, entry => do
      let last ← isLastEntry limit m entry
      if last then .ok entry else xattrGetLast limit m fuel (xattrNext m entry)

/-- `memcmp` on as many bytes as both lists have; only the sign matters. -/
def memcmp : List UInt8 → List UInt8 → ℤ
  | a :: as, b :: bs => if a = b then memcmp as bs else (a.toNat : ℤ) - b.toNat
  | _, _ => 0

/-- The comparison of `xattr_assert_sane`. -/
def xattrCompare (limit : ℕ) (m : Mem) (next entry : ℕ) : Except Stop ℤ :=
  let byIndex : ℤ := (eNameIndex.at_ next).get m - (eNameIndex.at_ entry).get m
  let byLen : ℤ := (eNameLen.at_ next).get m - (eNameLen.at_ entry).get m
  if byIndex ≠ 0 then .ok byIndex
  else if byLen ≠ 0 then .ok byLen
  else
    let len := (eNameLen.at_ next).get m
    if limit < next + size + len then .error .undefined
    else .ok (memcmp (m.bytes (next + size) len) (m.bytes (entry + size) len))

/-- `xattr_assert_sane`. -/
def xattrAssertSane (limit : ℕ) (m : Mem) : ℕ → ℕ → Except Stop Unit
  | 0, _ => .error .hang
  | fuel + 1, entry => do
      let last ← isLastEntry limit m entry
      if last then .ok ()
      else do
        let next := xattrNext m entry
        let last ← isLastEntry limit m next
        if last then .ok ()
        else do
          let cmp ← xattrCompare limit m next entry
          if cmp < 0 then .error (.error "BUG: extended attributes are not sorted\n")
          else if cmp = 0 then .error (.error "BUG: duplicate extended attributes detected\n")
          else xattrAssertSane limit m fuel next

/-! ## Adding -/

/-- The assignments of `xattr_addto_range`: the entry at `entry` and its value at
`val`. -/
def xattrWrite (start entry val : ℕ) (x : Xattr) (m : Mem) : Mem :=
  let m := m.fill entry (xattrLen x.name.length) 0
  let m := m.assign [(eNameLen.at_ entry, x.name.length), (eNameIndex.at_ entry, x.nameIndex)]
  let m := m.storeBytes (entry + size) x.name
  let m := m.assign [(eValueBlock.at_ entry, 0), (eValueSize.at_ entry, x.value.length),
    (eValueOffs.at_ entry, val - start)]
  (m.fill val (xattrSize 64 x.value.length) 0).storeBytes val x.value

/-- `xattr_addto_range` on the region from `first` to `stop` of a buffer that ends
at `limit`: the new entry, if there is one, and the memory. -/
def xattrAddtoRange (limit start stop first : ℕ) (x : Xattr) (m : Mem) :
    Except Stop (Option ℕ × Mem) :=
  if x.name.length > 255 then .ok (none, m)
  else do
    let available ← xattrFreeSpace limit m first stop
    let needed := u64 (xattrLen x.name.length + xattrSize 64 x.value.length)
    if needed > available then .ok (none, m)
    else do
      let entry ← xattrGetLast limit m (limit + 1) first
      let val := entry + available - xattrSize 64 x.value.length
      if limit < entry + available then .error .undefined
      else do
        let m := xattrWrite start entry val x m
        xattrAssertSane limit m (limit + 1) first
        .ok (some entry, m)

/-- One step of the hash of an entry. -/
def xattrHashStep (shift hash word : ℕ) : ℕ :=
  u32 (hash * 2 ^ shift) ^^^ (hash / 2 ^ (32 - shift)) ^^^ word

/-- `ext4_xattr_hash_entry`. -/
def ext4XattrHashEntry (header entry : ℕ) (m : Mem) : Mem :=
  let name := m.bytes (entry + size) ((eNameLen.at_ entry).get m)
  let hash := name.foldl (fun hash c => xattrHashStep 5 hash c.toNat) 0
  let valueSize := (eValueSize.at_ entry).get m
  let value := header + (eValueOffs.at_ entry).get m
  let hash :=
    if (eValueBlock.at_ entry).get m = 0 ∧ valueSize ≠ 0 then
      (List.range (u32 (valueSize + 3) / 4)).foldl
        (fun hash n => xattrHashStep 16 hash (m.load (value + 4 * n) 4)) hash
    else hash
  (eHash.at_ entry).set m hash

/-- Where attributes are kept: behind the inode at `base`, or in the block at
`base`. -/
inductive XattrHome where
  | inode (base inodeSize : ℕ)
  | block (base blockSize : ℕ)
  deriving DecidableEq, Repr

namespace XattrHome

/-- The first entry. -/
def first : XattrHome → ℕ
  | inode base _ => base + sizeofInode + sizeofXattrIbodyHeader
  | block base _ => base + sizeofXattrHeader

/-- What `e_value_offs` counts from. -/
def start : XattrHome → ℕ
  | inode base _ => base + sizeofInode + sizeofXattrIbodyHeader
  | block base _ => base

/-- The end of the region. -/
def stop : XattrHome → ℕ
  | inode base inodeSize => base + inodeSize
  | block base blockSize => base + blockSize

end XattrHome

/-- `xattr_addto_inode`: whether it returns `0`, and the memory. -/
def xattrAddtoInode (limit base inodeSize : ℕ) (x : Xattr) (m : Mem) :
    Except Stop (Bool × Mem) := do
  let first := base + sizeofInode + sizeofXattrIbodyHeader
  let (result, m) ← xattrAddtoRange limit first (base + inodeSize) first x m
  match result with
  | none => .ok (false, m)
  | some _ => .ok (true, m.assign [(⟨base + sizeofInode, 4⟩, EXT4_XATTR_MAGIC),
      (Inode.iExtraIsize.at_ base, sizeofInode - EXT4_GOOD_OLD_INODE_SIZE)])

/-- `xattr_addto_block`, where the block of the inode is at `base`: whether it
returns `0`, and the memory. -/
def xattrAddtoBlock (limit base blockSize : ℕ) (x : Xattr) (m : Mem) :
    Except Stop (Bool × Mem) := do
  let (result, m) ← xattrAddtoRange limit base (base + blockSize) (base + sizeofXattrHeader) x m
  match result with
  | none => .ok (false, m)
  | some entry => .ok (true, ext4XattrHashEntry base entry m)

/-- Either of the two. -/
def XattrHome.addto (limit : ℕ) : XattrHome → Xattr → Mem → Except Stop (Bool × Mem)
  | inode base inodeSize => xattrAddtoInode limit base inodeSize
  | block base blockSize => xattrAddtoBlock limit base blockSize

/-! ## What a region has to look like -/

/-- The entries from `entry` on, up to the word that ends them, and where that
word is; all of them before `stop`. -/
def xattrWalk (stop : ℕ) (m : Mem) : ℕ → ℕ → Except Stop (List ℕ × ℕ)
  | 0, _ => .error .hang
  | fuel + 1, entry => do
      let last ← isLastEntry stop m entry
      if last then .ok ([], entry)
      else do
        let (entries, last) ← xattrWalk stop m fuel (xattrNext m entry)
        .ok (entry :: entries, last)

/-- The attribute that the entry at `entry` describes. -/
def xattrAt (start : ℕ) (m : Mem) (entry : ℕ) : ℕ × List UInt8 × List UInt8 :=
  ((eNameIndex.at_ entry).get m, m.bytes (entry + size) ((eNameLen.at_ entry).get m),
    m.bytes (start + (eValueOffs.at_ entry).get m) ((eValueSize.at_ entry).get m))

/-- The bytes of the record at `entry`. -/
def recordBytes (m : Mem) (entry : ℕ) : List ℕ :=
  List.range' entry (xattrLen ((eNameLen.at_ entry).get m))

/-- The bytes of the value of the entry at `entry`. -/
def valueBytes (start : ℕ) (m : Mem) (entry : ℕ) : List ℕ :=
  List.range' (start + (eValueOffs.at_ entry).get m) ((eValueSize.at_ entry).get m)

/-- All bytes in use, when the word behind the entries is at `last`. -/
def usedBytes (start : ℕ) (m : Mem) (entries : List ℕ) (last : ℕ) : List ℕ :=
  entries.flatMap (recordBytes m) ++ List.range' last 4 ++ entries.flatMap (valueBytes start m)

/-- The region holds the attributes `added`, in order and each in its own bytes. -/
def Walkable (home : XattrHome) (m : Mem) (added : List Xattr) : Prop :=
  ∃ entries last, xattrWalk home.stop m (home.stop + 1) home.first = .ok (entries, last) ∧
    entries.map (xattrAt home.start m) = added.map (fun x => (x.nameIndex, x.name, x.value)) ∧
    (usedBytes home.start m entries last).Nodup ∧
    ∀ b ∈ usedBytes home.start m entries last, home.first ≤ b ∧ b < home.stop

/-- The region is walkable, and stays so through the calls: each of them returns,
and one that adds nothing changes nothing. -/
def StaysWalkable (limit : ℕ) (home : XattrHome) : List Xattr → List Xattr → Mem → Prop
  | added, [], m => Walkable home m added
  | added, x :: calls, m => Walkable home m added ∧ ∃ ok m', home.addto limit x m = .ok (ok, m') ∧
      (ok = false → m' = m) ∧
      StaysWalkable limit home (if ok then added ++ [x] else added) calls m'

namespace Xattr

/-- The bytes that the record of `x` takes. -/
def len (x : Xattr) : ℕ := (x.name.length + 19) / 4 * 4

/-- The bytes that the value of `x` takes. -/
def pad (x : Xattr) : ℕ := (x.value.length + 3) / 4 * 4

/-- The order in which attributes have to be added: positive if `next` comes after
`x`. -/
def compare (next x : Xattr) : ℤ :=
  if next.nameIndex ≠ x.nameIndex then (next.nameIndex : ℤ) - x.nameIndex
  else if next.name.length ≠ x.name.length then (next.name.length : ℤ) - x.name.length
  else memcmp next.name x.name

end Xattr

/-- What is left of `free` bytes after a call. -/
def Xattr.left (x : Xattr) (free : ℕ) : ℕ :=
  if x.name.length ≤ 255 ∧ x.len + x.pad ≤ free then free - (x.len + x.pad) else free

/-- With `free` bytes to start with, there are always four left. -/
def KeepsRoom : ℕ → List Xattr → Prop
  | free, [] => 4 ≤ free
  | free, x :: calls => 4 ≤ free ∧ KeepsRoom (x.left free) calls

instance KeepsRoom.decidable : ∀ free calls, Decidable (KeepsRoom free calls)
  | free, [] => inferInstanceAs (Decidable (4 ≤ free))
  | free, x :: calls =>
      have := KeepsRoom.decidable (x.left free) calls
      inferInstanceAs (Decidable (4 ≤ free ∧ KeepsRoom (x.left free) calls))

/-! ## Sizes -/

section Sizes

variable {n : ℕ}

theorem xattrLen_eq (h : n < 2 ^ 63) : xattrLen n = (n + 19) / 4 * 4 := by
  unfold xattrLen size
  rw [u64_of_lt (by omega)]

theorem xattrSize_eq {w : ℕ} (h : n + 3 < 2 ^ w) : xattrSize w n = (n + 3) / 4 * 4 := by
  unfold xattrSize
  rw [Nat.mod_eq_of_lt h]

variable (x : Xattr)

theorem Xattr.xattrLen_name : xattrLen x.name.length = x.len :=
  xattrLen_eq (by have := x.name_lt; omega)

theorem Xattr.xattrSize_value : xattrSize 64 x.value.length = x.pad :=
  xattrSize_eq (by have := x.value_lt; omega)

theorem Xattr.le_len : x.name.length + 16 ≤ x.len := by
  unfold len
  omega

theorem Xattr.le_pad : x.value.length ≤ x.pad := by
  unfold pad
  omega

theorem Xattr.needed_eq :
    u64 (xattrLen x.name.length + xattrSize 64 x.value.length) = x.len + x.pad := by
  have hname := x.name_lt
  have hvalue := x.value_lt
  rw [x.xattrLen_name, x.xattrSize_value]
  unfold Xattr.len Xattr.pad
  exact u64_of_lt (by omega)

end Sizes

/-! ## Attributes that are stored -/

/-- The record at `entry` and the value at `val` are those of `x`. -/
structure RecordAt (start : ℕ) (m : Mem) (entry val : ℕ) (x : Xattr) : Prop where
  nameLen : (eNameLen.at_ entry).get m = x.name.length
  nameIndex : (eNameIndex.at_ entry).get m = x.nameIndex
  valueSize : (eValueSize.at_ entry).get m = x.value.length
  valueOffs : (eValueOffs.at_ entry).get m = (val - start) % 2 ^ 16
  name : m.bytes (entry + size) x.name.length = x.name
  value : m.bytes val x.value.length = x.value

/-- The attributes are stored from `entry` upward and from `stop` downward, and
there is nothing but zeros between them. -/
def Stored (start : ℕ) (m : Mem) : ℕ → ℕ → List Xattr → Prop
  | entry, stop, [] => entry ≤ stop ∧ ∀ a, entry ≤ a → a < stop → m a = 0
  | entry, stop, x :: xs => x.name.length ≤ 255 ∧ entry + x.len + x.pad ≤ stop ∧
      RecordAt start m entry (stop - x.pad) x ∧ Stored start m (entry + x.len) (stop - x.pad) xs

/-- The bytes of all records. -/
def lens (xs : List Xattr) : ℕ := (xs.map Xattr.len).sum

/-- The bytes of all values. -/
def pads (xs : List Xattr) : ℕ := (xs.map Xattr.pad).sum

@[simp] theorem lens_nil : lens [] = 0 := rfl

@[simp] theorem pads_nil : pads [] = 0 := rfl

@[simp] theorem lens_cons (x : Xattr) (xs : List Xattr) : lens (x :: xs) = x.len + lens xs := by
  simp [lens]

@[simp] theorem pads_cons (x : Xattr) (xs : List Xattr) : pads (x :: xs) = x.pad + pads xs := by
  simp [pads]

theorem lens_append_singleton (xs : List Xattr) (x : Xattr) :
    lens (xs ++ [x]) = lens xs + x.len := by
  simp [lens]

theorem pads_append_singleton (xs : List Xattr) (x : Xattr) :
    pads (xs ++ [x]) = pads xs + x.pad := by
  simp [pads]

section Stored

variable {start : ℕ} {m m' : Mem} {x : Xattr} {xs : List Xattr}

/-- A record does not notice changes elsewhere, nor in its hash. -/
theorem RecordAt.congr {entry val : ℕ} (h : RecordAt start m entry val x)
    (hrecord : ∀ a, entry ≤ a → a < entry + x.len → (a < entry + 12 ∨ entry + 16 ≤ a) → m' a = m a)
    (hvalue : ∀ a, val ≤ a → a < val + x.pad → m' a = m a) : RecordAt start m' entry val x := by
  have hlen := x.le_len
  have hpad := x.le_pad
  have hfield : ∀ f : Field, f.offset + f.width ≤ 12 →
      (f.at_ entry).get m' = (f.at_ entry).get m := by
    intro f hf
    refine load_congr fun i hi => ?_
    simp only [Field.at_] at hi ⊢
    exact hrecord _ (by omega) (by omega) (.inl (by omega))
  refine ⟨?_, ?_, ?_, ?_, ?_, ?_⟩
  · rw [hfield _ (by decide), h.nameLen]
  · rw [hfield _ (by decide), h.nameIndex]
  · rw [hfield _ (by decide), h.valueSize]
  · rw [hfield _ (by decide), h.valueOffs]
  · rw [bytes_congr fun i hi => hrecord _ (by omega) (by unfold size; omega)
      (.inr (by unfold size; omega)), h.name]
  · rw [bytes_congr fun i hi => hvalue _ (by omega) (by omega), h.value]

theorem Stored.room : ∀ {entry stop : ℕ} {xs : List Xattr}, Stored start m entry stop xs →
    entry + lens xs + pads xs ≤ stop := by
  intro entry stop xs
  induction xs generalizing entry stop with
  | nil =>
      intro h
      exact h.1
  | cons x xs ih =>
      intro h
      have := ih h.2.2.2
      have := h.2.1
      rw [lens_cons, pads_cons]
      omega

/-- The room in the middle is empty. -/
theorem Stored.zero : ∀ {entry stop : ℕ} {xs : List Xattr}, Stored start m entry stop xs →
    ∀ a, entry + lens xs ≤ a → a < stop - pads xs → m a = 0 := by
  intro entry stop xs
  induction xs generalizing entry stop with
  | nil =>
      intro h
      exact h.2
  | cons x xs ih =>
      intro h a h₁ h₂
      rw [lens_cons] at h₁
      rw [pads_cons] at h₂
      exact ih h.2.2.2 a (by omega) (by omega)

/-- An attribute is added in the middle. -/
theorem Stored.snoc : ∀ {entry stop : ℕ} {xs : List Xattr}, Stored start m entry stop xs →
    x.name.length ≤ 255 → entry + lens xs + x.len + (pads xs + x.pad) ≤ stop →
    (∀ a, entry ≤ a → a < stop → (a < entry + lens xs ∨ stop - pads xs ≤ a) → m' a = m a) →
    RecordAt start m' (entry + lens xs) (stop - pads xs - x.pad) x →
    (∀ a, entry + lens xs + x.len ≤ a → a < stop - pads xs - x.pad → m' a = 0) →
    Stored start m' entry stop (xs ++ [x]) := by
  intro entry stop xs
  induction xs generalizing entry stop with
  | nil =>
      intro _ hname hroom _ hrecord hzero
      rw [lens_nil, Nat.add_zero, pads_nil] at *
      exact ⟨hname, by omega, hrecord, by omega, hzero⟩
  | cons y ys ih =>
      intro h hname hroom hframe hrecord hzero
      have hrest := h.2.2.2.room
      rw [lens_cons, pads_cons] at *
      have hy := h.2.1
      refine ⟨h.1, hy, h.2.2.1.congr ?_ ?_, ih h.2.2.2 hname (by omega) ?_ ?_ ?_⟩
      · intro a h₁ h₂ _
        exact hframe a h₁ (by omega) (.inl (by omega))
      · intro a h₁ h₂
        exact hframe a (by omega) (by omega) (.inr (by omega))
      · intro a h₁ h₂ ha
        exact hframe a (by omega) (by omega) (by omega)
      · rw [Nat.add_assoc, show stop - y.pad - pads ys - x.pad =
          stop - (y.pad + pads ys) - x.pad by omega]
        exact hrecord
      · intro a h₁ h₂
        exact hzero a (by omega) (by omega)

end Stored

/-! ## What the walks find -/

section Walks

variable {start limit : ℕ} {m : Mem} {x y : Xattr}

theorem isLastEntry_of_zero {e : ℕ} (hlimit : e + 4 ≤ limit)
    (hzero : ∀ a, e ≤ a → a < e + 4 → m a = 0) : isLastEntry limit m e = .ok true := by
  have hload : m.load e 4 = 0 := by
    have hbytes : ∀ i < 4, m (e + i) = UInt8.ofNat (0 / 256 ^ i) := by
      intro i hi
      rw [hzero (e + i) (by omega) (by omega), Nat.zero_div]
      rfl
    simpa using load_eq_of_bytes hbytes
  unfold isLastEntry
  rw [if_neg (by omega), hload]
  rfl

section Record

variable {entry val : ℕ} (h : RecordAt start m entry val x)

include h

/-- A record is not the word that ends the entries: its name has a length. -/
theorem RecordAt.isLastEntry (hlimit : entry + 4 ≤ limit) :
    isLastEntry limit m entry = .ok false := by
  have hload : m.load entry 4 ≠ 0 := by
    intro hzero
    have hsplit : m.load entry 4 = m.load entry 1 + 256 ^ 1 * m.load (entry + 1) 3 :=
      load_add m entry 1 3
    have hname : m.load entry 1 = x.name.length := h.nameLen
    have hpos := x.name_pos
    omega
  unfold Ext4.isLastEntry
  rw [if_neg (by omega), decide_eq_false hload]

theorem RecordAt.next : xattrNext m entry = entry + x.len := by
  unfold xattrNext
  rw [h.nameLen, x.xattrLen_name]

/-- The comparison of two records. -/
theorem RecordAt.compare {next val' : ℕ} (h' : RecordAt start m next val' y)
    (hlimit : next + y.len ≤ limit) : xattrCompare limit m next entry = .ok (y.compare x) := by
  have hlen := y.le_len
  unfold xattrCompare Xattr.compare
  simp only
  rw [h.nameIndex, h'.nameIndex, h.nameLen, h'.nameLen]
  by_cases hindex : y.nameIndex = x.nameIndex
  · by_cases hname : y.name.length = x.name.length
    · rw [if_neg (by omega), if_neg (by omega), if_neg (by unfold size; omega), if_neg (by omega),
        if_neg (by omega), h'.name, hname, h.name]
    · rw [if_neg (by omega), if_pos (by omega), if_neg (by omega), if_pos hname]
  · rw [if_pos (by omega), if_pos hindex]

end Record

variable {entry stop fuel : ℕ} {xs : List Xattr}

theorem length_le_lens (xs : List Xattr) : xs.length ≤ lens xs := by
  induction xs with
  | nil => exact le_rfl
  | cons x xs ih =>
      have := x.le_len
      rw [List.length_cons, lens_cons]
      omega

/-- The word behind the last record. -/
theorem Stored.isLastEntry (h : Stored start m entry stop xs) (hlimit : stop ≤ limit)
    (hroom : entry + lens xs + pads xs + 4 ≤ stop) :
    isLastEntry limit m (entry + lens xs) = .ok true :=
  isLastEntry_of_zero (by omega) fun a h₁ h₂ => h.zero a h₁ (by omega)

theorem Stored.freeLoop : ∀ {entry stop fuel : ℕ} {xs : List Xattr},
    Stored start m entry stop xs → start ≤ entry → stop ≤ start + 2 ^ 16 → stop ≤ limit →
    entry + lens xs + pads xs + 4 ≤ stop → xs.length < fuel →
    xattrFreeLoop limit m fuel entry stop = .ok (entry + lens xs, ((stop - pads xs : ℕ) : ℤ)) := by
  intro entry stop fuel xs
  induction xs generalizing entry stop fuel with
  | nil =>
      intro h _ _ hlimit hroom hfuel
      obtain ⟨fuel, rfl⟩ : ∃ f, fuel = f + 1 := ⟨fuel - 1, by omega⟩
      have hlast := h.isLastEntry hlimit hroom
      rw [lens_nil, Nat.add_zero] at hlast
      rw [xattrFreeLoop, hlast, bind_ok]
      rfl
  | cons x xs ih =>
      intro h hstart hstop hlimit hroom hfuel
      obtain ⟨fuel, rfl⟩ : ∃ f, fuel = f + 1 := ⟨fuel - 1, by omega⟩
      rw [lens_cons, pads_cons] at *
      have hlen := x.le_len
      have hpad := x.le_pad
      have hx := h.2.1
      have hrecord := h.2.2.1
      have hsize : xattrSize 32 x.value.length = x.pad := xattrSize_eq (by omega)
      have hih := @ih (entry + x.len) (stop - x.pad) fuel h.2.2.2 (by omega) (by omega) (by omega)
        (by omega) (by simpa using hfuel)
      have hgo : ¬ (false = true ∨ ¬ (entry : ℤ) < stop) := by
        simp only [Bool.false_eq_true, false_or, not_not]
        omega
      rw [xattrFreeLoop, hrecord.isLastEntry (by omega), bind_ok, if_neg hgo,
        if_neg (by unfold size; omega), hrecord.next, hrecord.valueSize, hsize]
      rw [show (stop : ℤ) - x.pad = ((stop - x.pad : ℕ) : ℤ) by omega, hih]
      rw [Nat.add_assoc, show stop - x.pad - pads xs = stop - (x.pad + pads xs) by omega]

theorem Stored.freeSpace (h : Stored start m entry stop xs) (hstart : start ≤ entry)
    (hstop : stop ≤ start + 2 ^ 16) (hlimit : stop ≤ limit)
    (hroom : entry + lens xs + pads xs + 4 ≤ stop) :
    xattrFreeSpace limit m entry stop = .ok (stop - (entry + lens xs + pads xs)) := by
  have hlength := length_le_lens xs
  unfold xattrFreeSpace
  rw [h.freeLoop hstart hstop hlimit hroom (show xs.length < limit + 1 by omega), bind_ok]
  simp only
  rw [if_neg (by omega)]
  congr 1
  omega

/-- Attributes in order pass the check. -/
theorem Stored.assertSane : ∀ {entry stop fuel : ℕ} {xs : List Xattr},
    Stored start m entry stop xs → xs.Pairwise (fun x y => 0 < y.compare x) → stop ≤ limit →
    entry + lens xs + pads xs + 4 ≤ stop → xs.length < fuel →
    xattrAssertSane limit m fuel entry = .ok () := by
  intro entry stop fuel xs
  induction xs generalizing entry stop fuel with
  | nil =>
      intro h _ hlimit hroom hfuel
      obtain ⟨fuel, rfl⟩ : ∃ f, fuel = f + 1 := ⟨fuel - 1, by omega⟩
      have hlast := h.isLastEntry hlimit hroom
      rw [lens_nil, Nat.add_zero] at hlast
      rw [xattrAssertSane, hlast, bind_ok, if_pos rfl]
  | cons x xs ih =>
      intro h hsorted hlimit hroom hfuel
      obtain ⟨fuel, rfl⟩ : ∃ f, fuel = f + 1 := ⟨fuel - 1, by omega⟩
      rw [lens_cons, pads_cons] at *
      rw [List.pairwise_cons] at hsorted
      have hlen := x.le_len
      have hrecord := h.2.2.1
      rw [xattrAssertSane, hrecord.isLastEntry (by omega), bind_ok, if_neg (by simp)]
      simp only
      rw [hrecord.next]
      cases xs with
      | nil =>
          rw [lens_nil, pads_nil] at hroom
          have hlast := h.2.2.2.isLastEntry (show stop - x.pad ≤ limit by omega)
            (by rw [lens_nil, pads_nil]; omega)
          rw [lens_nil, Nat.add_zero] at hlast
          rw [hlast, bind_ok, if_pos rfl]
      | cons y ys =>
          have hnext := h.2.2.2.2.2.1
          have hroom' := h.2.2.2.room
          rw [lens_cons, pads_cons] at hroom'
          have hcmp : 0 < y.compare x := hsorted.1 y List.mem_cons_self
          rw [hnext.isLastEntry (by have := y.le_len; omega), bind_ok, if_neg (by simp),
            hrecord.compare hnext (by omega), bind_ok, if_neg (by omega), if_neg (by omega)]
          exact ih h.2.2.2 hsorted.2 (by omega) (by omega) (by simpa using hfuel)

end Walks

/-! ## Room for the last word -/

/-- Where the records of the attributes are. -/
def addresses (entry : ℕ) : List Xattr → List ℕ
  | [] => []
  | x :: xs => entry :: addresses (entry + x.len) xs

@[simp] theorem length_addresses (entry : ℕ) (xs : List Xattr) :
    (addresses entry xs).length = xs.length := by
  induction xs generalizing entry with
  | nil => rfl
  | cons x xs ih => simp [addresses, ih]

section Room

variable {start limit : ℕ} {m : Mem}

theorem Stored.walk : ∀ {entry stop fuel : ℕ} {xs : List Xattr},
    Stored start m entry stop xs → stop ≤ limit → entry + lens xs + pads xs + 4 ≤ stop →
    xs.length < fuel →
    xattrWalk limit m fuel entry = .ok (addresses entry xs, entry + lens xs) := by
  intro entry stop fuel xs
  induction xs generalizing entry stop fuel with
  | nil =>
      intro h hlimit hroom hfuel
      obtain ⟨fuel, rfl⟩ : ∃ f, fuel = f + 1 := ⟨fuel - 1, by omega⟩
      have hlast := h.isLastEntry hlimit hroom
      rw [lens_nil, Nat.add_zero] at hlast
      rw [xattrWalk, hlast, bind_ok, if_pos rfl, lens_nil, Nat.add_zero]
      rfl
  | cons x xs ih =>
      intro h hlimit hroom hfuel
      obtain ⟨fuel, rfl⟩ : ∃ f, fuel = f + 1 := ⟨fuel - 1, by omega⟩
      rw [lens_cons, pads_cons] at *
      have hlen := x.le_len
      have hrecord := h.2.2.1
      have hih := @ih (entry + x.len) (stop - x.pad) fuel h.2.2.2 (by omega) (by omega)
        (by simpa using hfuel)
      rw [xattrWalk, hrecord.isLastEntry (by omega), bind_ok, if_neg (by simp), hrecord.next, hih,
        bind_ok, Nat.add_assoc]
      rfl

/-- `xattr_get_last` stops where a walk does. -/
theorem xattrGetLast_of_walk {last : ℕ} (fuel : ℕ) : ∀ {entry : ℕ} {entries : List ℕ},
    xattrWalk limit m fuel entry = .ok (entries, last) →
    xattrGetLast limit m fuel entry = .ok last := by
  induction fuel with
  | zero =>
      intro entry entries hwalk
      cases hwalk
  | succ fuel ih =>
      intro entry entries hwalk
      rw [xattrWalk, bind_eq_ok] at hwalk
      obtain ⟨b, hlast, hwalk⟩ := hwalk
      rw [xattrGetLast, hlast, bind_ok]
      cases b with
      | true =>
          cases hwalk
          rfl
      | false =>
          rw [if_neg (by simp), bind_eq_ok] at hwalk
          obtain ⟨⟨rest, last'⟩, hrest, hwalk⟩ := hwalk
          cases hwalk
          exact ih hrest

theorem Stored.getLast {entry stop fuel : ℕ} {xs : List Xattr} (h : Stored start m entry stop xs)
    (hlimit : stop ≤ limit) (hroom : entry + lens xs + pads xs + 4 ≤ stop)
    (hfuel : xs.length < fuel) : xattrGetLast limit m fuel entry = .ok (entry + lens xs) :=
  xattrGetLast_of_walk fuel (h.walk hlimit hroom hfuel)

/-- A walk that finds as many entries as are stored has found them. -/
theorem Stored.walk_eq : ∀ {entry stop fuel : ℕ} {xs : List Xattr} {entries : List ℕ} {last : ℕ},
    Stored start m entry stop xs → stop ≤ limit →
    xattrWalk limit m fuel entry = .ok (entries, last) → entries.length = xs.length →
    entries = addresses entry xs ∧ last = entry + lens xs := by
  intro entry stop fuel xs
  induction xs generalizing entry stop fuel with
  | nil =>
      intro entries last _ _ hwalk hlength
      cases fuel with
      | zero => cases hwalk
      | succ fuel =>
          rw [xattrWalk, bind_eq_ok] at hwalk
          obtain ⟨b, -, hwalk⟩ := hwalk
          cases b with
          | true =>
              cases hwalk
              exact ⟨rfl, rfl⟩
          | false =>
              rw [if_neg (by simp), bind_eq_ok] at hwalk
              obtain ⟨r, -, hwalk⟩ := hwalk
              cases hwalk
              simp at hlength
  | cons x xs ih =>
      intro entries last h hlimit hwalk hlength
      cases fuel with
      | zero => cases hwalk
      | succ fuel =>
          have hlen := x.le_len
          have hx := h.2.1
          have hrecord := h.2.2.1
          rw [xattrWalk, hrecord.isLastEntry (by omega), bind_ok, if_neg (by simp), hrecord.next,
            bind_eq_ok] at hwalk
          obtain ⟨⟨rest, last'⟩, hwalk', hwalk⟩ := hwalk
          cases hwalk
          obtain ⟨rfl, rfl⟩ := ih h.2.2.2 (by omega) hwalk' (by simpa using hlength)
          exact ⟨rfl, by rw [lens_cons]; omega⟩

/-- The value of a record, found through the record. -/
theorem RecordAt.valueBytes_eq {entry stop : ℕ} {x : Xattr}
    (h : RecordAt start m entry (stop - x.pad) x) (hstart : start + x.pad ≤ stop)
    (hstop : stop ≤ start + 2 ^ 16) :
    valueBytes start m entry = List.range' (stop - x.pad) x.value.length ∧
      m.bytes (start + (eValueOffs.at_ entry).get m) x.value.length = x.value := by
  unfold valueBytes
  rw [h.valueSize, h.valueOffs]
  rcases Nat.eq_zero_or_pos x.value.length with hzero | hpos
  · rw [hzero, List.length_eq_zero_iff.mp hzero]
    exact ⟨rfl, rfl⟩
  · have hpad := x.le_pad
    rw [Nat.mod_eq_of_lt (by omega), show start + (stop - x.pad - start) = stop - x.pad by omega]
    exact ⟨rfl, h.value⟩

section Region

variable {entry stop : ℕ} {xs : List Xattr}

theorem Stored.records : ∀ {entry stop : ℕ} {xs : List Xattr}, Stored start m entry stop xs →
    (addresses entry xs).flatMap (recordBytes m) = List.range' entry (lens xs) := by
  intro entry stop xs
  induction xs generalizing entry stop with
  | nil => exact fun _ => rfl
  | cons x xs ih =>
      intro h
      have hhead : recordBytes m entry = List.range' entry x.len := by
        unfold recordBytes
        rw [h.2.2.1.nameLen, x.xattrLen_name]
      rw [addresses, List.flatMap_cons, hhead, ih h.2.2.2, lens_cons]
      exact List.range'_append_1 ..

/-- The walk reads the attributes back. -/
theorem Stored.triples : ∀ {entry stop : ℕ} {xs : List Xattr}, Stored start m entry stop xs →
    start ≤ entry → stop ≤ start + 2 ^ 16 →
    (addresses entry xs).map (xattrAt start m) =
      xs.map (fun x => (x.nameIndex, x.name, x.value)) := by
  intro entry stop xs
  induction xs generalizing entry stop with
  | nil => exact fun _ _ _ => rfl
  | cons x xs ih =>
      intro h hstart hstop
      have hx := h.2.1
      have hrecord := h.2.2.1
      rw [addresses, List.map_cons, List.map_cons, ih h.2.2.2 (by omega) (by omega)]
      congr 1
      unfold xattrAt
      rw [hrecord.nameIndex, hrecord.nameLen, hrecord.name, hrecord.valueSize,
        (hrecord.valueBytes_eq (by omega) hstop).2]

/-- The values lie at the end of the region, each in its own bytes. -/
theorem Stored.values : ∀ {entry stop : ℕ} {xs : List Xattr}, Stored start m entry stop xs →
    start ≤ entry → stop ≤ start + 2 ^ 16 →
    ((addresses entry xs).flatMap (valueBytes start m)).Nodup ∧
      ∀ b ∈ (addresses entry xs).flatMap (valueBytes start m), stop - pads xs ≤ b ∧ b < stop := by
  intro entry stop xs
  induction xs generalizing entry stop with
  | nil => exact fun _ _ _ => ⟨List.nodup_nil, by simp [addresses]⟩
  | cons x xs ih =>
      intro h hstart hstop
      have hx := h.2.1
      have hpad := x.le_pad
      have hroom := h.2.2.2.room
      obtain ⟨hnodup, hbounds⟩ := ih h.2.2.2 (by omega) (by omega)
      rw [addresses, List.flatMap_cons, (h.2.2.1.valueBytes_eq (by omega) hstop).1, pads_cons]
      have hhead : ∀ b ∈ List.range' (stop - x.pad) x.value.length,
          stop - x.pad ≤ b ∧ b < stop := by
        intro b hb
        rw [List.mem_range'_1] at hb
        omega
      refine ⟨List.nodup_append.mpr ⟨List.nodup_range' 1, hnodup, ?_⟩, ?_⟩
      · intro b hb c hc heq
        have h₁ := hhead b hb
        have h₂ := hbounds c hc
        omega
      · intro b hb
        rcases List.mem_append.mp hb with hb | hb
        · have := hhead b hb
          omega
        · have := hbounds b hb
          omega

/-- The lowest byte in use for values belongs to one. -/
theorem Stored.lowest : ∀ {entry stop : ℕ} {xs : List Xattr}, Stored start m entry stop xs →
    start ≤ entry → stop ≤ start + 2 ^ 16 → 0 < pads xs →
    stop - pads xs ∈ (addresses entry xs).flatMap (valueBytes start m) := by
  intro entry stop xs
  induction xs generalizing entry stop with
  | nil => exact fun _ _ _ hpos => absurd hpos (lt_irrefl 0)
  | cons x xs ih =>
      intro h hstart hstop hpos
      have hx := h.2.1
      rw [pads_cons] at hpos ⊢
      rw [addresses, List.flatMap_cons, (h.2.2.1.valueBytes_eq (by omega) hstop).1, List.mem_append]
      rcases Nat.eq_zero_or_pos (pads xs) with hzero | hrest
      · left
        rw [List.mem_range'_1]
        unfold Xattr.pad at hpos hx ⊢
        omega
      · right
        rw [show stop - (x.pad + pads xs) = stop - x.pad - pads xs by omega]
        exact ih h.2.2.2 (by omega) (by omega) hrest

end Region

end Room

/-- A region with attributes in it is walkable exactly if there is room for the
word that ends them. -/
theorem Stored.walkable_iff {home : XattrHome} {m : Mem} {added : List Xattr}
    (h : Stored home.start m home.first home.stop added) (hstart : home.start ≤ home.first)
    (hsize : home.stop ≤ home.start + 2 ^ 16) :
    Walkable home m added ↔ home.first + lens added + pads added + 4 ≤ home.stop := by
  have hroom := h.room
  obtain ⟨hnodup, hvalues⟩ := h.values hstart hsize
  constructor
  · rintro ⟨entries, last, hwalk, htriples, hnodup, hinside⟩
    have hlength : entries.length = added.length := by
      simpa using congrArg List.length htriples
    obtain ⟨rfl, rfl⟩ := h.walk_eq le_rfl hwalk hlength
    by_contra hlt
    -- the byte behind the free space would be part of the word
    have hword : home.stop - pads added ∈ List.range' (home.first + lens added) 4 := by
      rw [List.mem_range'_1]
      omega
    have hused : home.stop - pads added ∈ usedBytes home.start m
        (addresses home.first added) (home.first + lens added) :=
      List.mem_append_left _ (List.mem_append_right _ hword)
    rcases Nat.eq_zero_or_pos (pads added) with hzero | hpos
    · have := (hinside _ hused).2
      omega
    · have hvalue := h.lowest hstart hsize hpos
      exact (List.nodup_append.mp hnodup).2.2 _ (List.mem_append_right _ hword) _ hvalue rfl
  · intro hword
    have hlength := length_le_lens added
    have hbytes : ∀ b ∈ usedBytes home.start m (addresses home.first added)
        (home.first + lens added), home.first ≤ b ∧ b < home.stop := by
      intro b hb
      unfold usedBytes at hb
      rw [h.records, List.mem_append, List.mem_append, List.mem_range'_1, List.mem_range'_1] at hb
      rcases hb with (hb | hb) | hb
      · omega
      · omega
      · have := hvalues b hb
        omega
    refine ⟨_, _, h.walk le_rfl hword (by omega), h.triples hstart hsize, ?_, hbytes⟩
    unfold usedBytes
    rw [h.records, List.range'_append_1]
    refine List.nodup_append.mpr ⟨List.nodup_range' 1, hnodup, ?_⟩
    intro b hb c hc heq
    rw [List.mem_range'_1] at hb
    have := hvalues c hc
    omega

/-! ## One call -/

section Write

variable {start entry val : ℕ} {m : Mem} {x : Xattr}

/-- Only the record and the value are written. -/
theorem xattrWrite_frame {a : ℕ} (h₁ : a < entry ∨ entry + x.len ≤ a)
    (h₂ : a < val ∨ val + x.pad ≤ a) : xattrWrite start entry val x m a = m a := by
  have hlen := x.le_len
  have hpad := x.le_pad
  unfold xattrWrite
  simp only [x.xattrLen_name, x.xattrSize_value]
  rw [storeBytes_apply_of_not_mem (by omega), fill_apply_of_not_mem h₂, assign_apply_of_not_mem,
    storeBytes_apply_of_not_mem (by unfold size; omega), assign_apply_of_not_mem,
    fill_apply_of_not_mem h₁]
  · simp only [List.mem_cons, List.not_mem_nil, or_false, forall_eq_or_imp, forall_eq, Field.at_,
      eNameLen, eNameIndex]
    omega
  · simp only [List.mem_cons, List.not_mem_nil, or_false, forall_eq_or_imp, forall_eq, Field.at_,
      eValueBlock, eValueSize, eValueOffs]
    omega

/-- The record and the value are those of the call. -/
theorem xattrWrite_record (hval : entry + x.len ≤ val) (hname : x.name.length ≤ 255)
    (hvalue : x.value.length < 2 ^ 32) :
    RecordAt start (xattrWrite start entry val x m) entry val x := by
  have hlen := x.le_len
  have hindex := x.nameIndex_lt
  -- the record before the value is written, and before the second run of assignments
  set m₁ := (m.fill entry (xattrLen x.name.length) 0).assign
    [(eNameLen.at_ entry, x.name.length), (eNameIndex.at_ entry, x.nameIndex)] with hm₁
  set m₂ := (m₁.storeBytes (entry + size) x.name).assign [(eValueBlock.at_ entry, 0),
    (eValueSize.at_ entry, x.value.length), (eValueOffs.at_ entry, val - start)] with hm₂
  have hwrite : xattrWrite start entry val x m =
      (m₂.fill val (xattrSize 64 x.value.length) 0).storeBytes val x.value := rfl
  have hbelow : ∀ a < val, xattrWrite start entry val x m a = m₂ a := by
    intro a ha
    rw [hwrite, storeBytes_apply_of_not_mem (.inl ha), fill_apply_of_not_mem (.inl ha)]
  have hfield : ∀ f : Field, f.offset + f.width ≤ 16 →
      (f.at_ entry).get (xattrWrite start entry val x m) = (f.at_ entry).get m₂ := by
    intro f hf
    refine load_congr fun i hi => hbelow _ ?_
    simp only [Field.at_] at hi ⊢
    omega
  have hfirst : ∀ f : Field, f.offset + f.width ≤ 2 →
      (f.at_ entry).get m₂ = (f.at_ entry).get m₁ := by
    intro f hf
    rw [hm₂, Field.get_assign_of_disjoint]
    · refine load_congr fun i hi => storeBytes_apply_of_not_mem ?_
      simp only [Field.at_] at hi ⊢
      unfold size
      omega
    · simp only [List.mem_cons, List.not_mem_nil, or_false, forall_eq_or_imp, forall_eq,
        Field.Disjoint, Field.at_, eValueBlock, eValueSize, eValueOffs]
      omega
  have hdisjoint₁ : ([(eNameLen.at_ entry, x.name.length),
      (eNameIndex.at_ entry, x.nameIndex)].map Prod.fst).Pairwise Field.Disjoint := by
    simp [Field.Disjoint, Field.at_, eNameLen, eNameIndex]
  have hdisjoint₂ : ([(eValueBlock.at_ entry, 0), (eValueSize.at_ entry, x.value.length),
      (eValueOffs.at_ entry, val - start)].map Prod.fst).Pairwise Field.Disjoint := by
    simp [Field.Disjoint, Field.at_, eValueBlock, eValueSize, eValueOffs]
  refine ⟨?_, ?_, ?_, ?_, ?_, ?_⟩
  · rw [hfield _ (by decide), hfirst _ (by decide)]
    exact (Field.get_assign hdisjoint₁ 0 rfl _).trans
      (Nat.mod_eq_of_lt (show x.name.length < 256 ^ 1 by omega))
  · rw [hfield _ (by decide), hfirst _ (by decide)]
    exact (Field.get_assign hdisjoint₁ 1 rfl _).trans (Nat.mod_eq_of_lt hindex)
  · rw [hfield _ (by decide)]
    exact (Field.get_assign hdisjoint₂ 1 rfl _).trans (Nat.mod_eq_of_lt hvalue)
  · rw [hfield _ (by decide)]
    exact Field.get_assign hdisjoint₂ 2 rfl _
  · rw [bytes_congr fun i hi => hbelow _ (by unfold size; omega)]
    have hname₂ : ∀ i < x.name.length,
        m₂ (entry + size + i) = m₁.storeBytes (entry + size) x.name (entry + size + i) := by
      intro i hi
      rw [hm₂]
      refine assign_apply_of_not_mem ?_ _
      simp only [List.mem_cons, List.not_mem_nil, or_false, forall_eq_or_imp, forall_eq, Field.at_,
        eValueBlock, eValueSize, eValueOffs]
      unfold size
      omega
    rw [bytes_congr hname₂, bytes_storeBytes_self]
  · rw [hwrite, bytes_storeBytes_self]

end Write

section Call

variable {limit start first stop : ℕ} {m : Mem} {x : Xattr} {added : List Xattr}
  (h : Stored start m first stop added) (hstart : start ≤ first)
  (hsize : stop ≤ start + 2 ^ 16) (hlimit : stop ≤ limit)
  (hword : first + lens added + pads added + 4 ≤ stop)

include h hstart hsize hlimit hword

/-- An attribute that does not fit is turned down. -/
theorem Stored.addtoRange_none
    (hno : ¬ (x.name.length ≤ 255 ∧ x.len + x.pad ≤ stop - (first + lens added + pads added))) :
    xattrAddtoRange limit start stop first x m = .ok (none, m) := by
  unfold xattrAddtoRange
  by_cases hname : x.name.length > 255
  · rw [if_pos hname]
  · rw [if_neg hname, h.freeSpace hstart hsize hlimit hword, bind_ok]
    simp only
    rw [x.needed_eq, if_pos (by omega)]

/-- One that fits is written, and the entries are checked. -/
theorem Stored.addtoRange_some (hname : x.name.length ≤ 255)
    (hfits : x.len + x.pad ≤ stop - (first + lens added + pads added)) :
    xattrAddtoRange limit start stop first x m = (do
      let m' := xattrWrite start (first + lens added) (stop - pads added - x.pad) x m
      xattrAssertSane limit m' (limit + 1) first
      .ok (some (first + lens added), m')) := by
  have hlength := length_le_lens added
  have hval : first + lens added + (stop - (first + lens added + pads added)) -
      xattrSize 64 x.value.length = stop - pads added - x.pad := by
    rw [x.xattrSize_value]
    omega
  unfold xattrAddtoRange
  rw [if_neg (by omega), h.freeSpace hstart hsize hlimit hword, bind_ok]
  simp only
  rw [x.needed_eq, if_neg (by omega),
    h.getLast hlimit hword (show added.length < limit + 1 by omega),
    bind_ok, if_neg (by omega), hval]

omit hlimit hword in
/-- The attribute is stored, also when its hash is filled in. -/
theorem Stored.write (hname : x.name.length ≤ 255)
    (hfits : x.len + x.pad ≤ stop - (first + lens added + pads added)) {m' : Mem}
    (hsame : ∀ a, first ≤ a → a < stop →
      (a < first + lens added + 12 ∨ first + lens added + 16 ≤ a) →
      m' a = xattrWrite start (first + lens added) (stop - pads added - x.pad) x m a) :
    Stored start m' first stop (added ++ [x]) := by
  have hroom := h.room
  have hlen := x.le_len
  have hpad := x.le_pad
  refine h.snoc hname (by omega) ?_ ?_ ?_
  · intro a h₁ h₂ ha
    rw [hsame a h₁ h₂ (by omega)]
    exact xattrWrite_frame (by omega) (by omega)
  · refine RecordAt.congr (xattrWrite_record (m := m) (by omega) hname (by omega)) ?_ ?_
    · intro a h₁ h₂ ha
      exact hsame a (by omega) (by omega) ha
    · intro a h₁ h₂
      exact hsame a (by omega) (by omega) (by omega)
  · intro a h₁ h₂
    rw [hsame a (by omega) (by omega) (by omega), xattrWrite_frame (by omega) (by omega)]
    exact h.zero a (by omega) (by omega)

end Call

/-! ## Runs -/

namespace XattrHome

variable (home : XattrHome)

theorem start_le_first : home.start ≤ home.first := by
  cases home with
  | inode base inodeSize => exact le_rfl
  | block base blockSize => exact Nat.le_add_right _ _

/-- What the caller of `xattr_addto_range` does to the memory when an entry has
been added. -/
def finish (entry : ℕ) (m : Mem) : Mem :=
  match home with
  | inode base _ => m.assign [(⟨base + sizeofInode, 4⟩, EXT4_XATTR_MAGIC),
      (Inode.iExtraIsize.at_ base, sizeofInode - EXT4_GOOD_OLD_INODE_SIZE)]
  | block base _ => ext4XattrHashEntry base entry m

theorem addto_eq (limit : ℕ) (x : Xattr) (m : Mem) : home.addto limit x m = (do
    let (result, m) ← xattrAddtoRange limit home.start home.stop home.first x m
    match result with
    | none => .ok (false, m)
    | some entry => .ok (true, home.finish entry m)) := by
  cases home with
  | inode base inodeSize => rfl
  | block base blockSize => rfl

/-- Of the region, it changes at most the hash of the new entry. -/
theorem finish_apply {entry a : ℕ} {m : Mem} (ha : home.first ≤ a)
    (hhash : a < entry + 12 ∨ entry + 16 ≤ a) : home.finish entry m a = m a := by
  cases home with
  | inode base inodeSize =>
      refine assign_apply_of_not_mem ?_ m
      simp only [first] at ha
      simp only [List.mem_cons, List.not_mem_nil, or_false, forall_eq_or_imp, forall_eq, Field.at_,
        Inode.iExtraIsize]
      unfold sizeofInode sizeofXattrIbodyHeader at *
      omega
  | block base blockSize =>
      refine store_apply_of_not_mem ?_
      simp only [Field.at_, eHash]
      omega

end XattrHome

section Runs

variable {limit : ℕ} {home : XattrHome}

theorem KeepsRoom.four_le {free : ℕ} {calls : List Xattr} (h : KeepsRoom free calls) :
    4 ≤ free := by
  cases calls with
  | nil => exact h
  | cons x calls => exact h.1

/-- The run from a region with attributes in it. -/
theorem staysWalkable_iff_of_stored (hsize : home.stop ≤ home.start + 2 ^ 16)
    (hlimit : home.stop ≤ limit) : ∀ {calls added : List Xattr} {m : Mem},
      Stored home.start m home.first home.stop added →
      (added ++ calls).Pairwise (fun x y => 0 < y.compare x) →
      (StaysWalkable limit home added calls m ↔
        KeepsRoom (home.stop - (home.first + lens added + pads added)) calls) := by
  intro calls
  induction calls with
  | nil =>
      intro added m h _
      have hroom := h.room
      rw [StaysWalkable, KeepsRoom, h.walkable_iff home.start_le_first hsize]
      omega
  | cons x calls ih =>
      intro added m h hsorted
      have hroom := h.room
      rw [StaysWalkable, KeepsRoom, h.walkable_iff home.start_le_first hsize]
      have hfree : home.first + lens added + pads added + 4 ≤ home.stop ↔
          4 ≤ home.stop - (home.first + lens added + pads added) := by omega
      rw [hfree]
      refine and_congr_right fun hfour => ?_
      have hword := hfree.mpr hfour
      rw [home.addto_eq]
      by_cases hfit : x.name.length ≤ 255 ∧
          x.len + x.pad ≤ home.stop - (home.first + lens added + pads added)
      · have hleft : home.stop - (home.first + lens (added ++ [x]) + pads (added ++ [x])) =
            x.left (home.stop - (home.first + lens added + pads added)) := by
          unfold Xattr.left
          rw [if_pos hfit, lens_append_singleton, pads_append_singleton]
          omega
        have hsorted' : (added ++ [x] ++ calls).Pairwise fun x y => 0 < y.compare x := by
          simpa using hsorted
        rw [h.addtoRange_some home.start_le_first hsize hlimit hword hfit.1 hfit.2]
        simp only
        set m₁ := xattrWrite home.start (home.first + lens added) (home.stop - pads added - x.pad) x m
        have hstored₁ : Stored home.start m₁ home.first home.stop (added ++ [x]) :=
          h.write home.start_le_first hsize hfit.1 hfit.2 fun _ _ _ _ => rfl
        have hstored₂ : Stored home.start (home.finish (home.first + lens added) m₁) home.first
            home.stop (added ++ [x]) :=
          h.write home.start_le_first hsize hfit.1 hfit.2 fun a h₁ _ ha => home.finish_apply h₁ ha
        rw [← hleft, ← ih hstored₂ hsorted']
        constructor
        · rintro ⟨ok, m', hrun, -, hstays⟩
          rw [bind_eq_ok] at hrun
          obtain ⟨⟨result, m₂⟩, hrun, hfinish⟩ := hrun
          rw [bind_eq_ok] at hrun
          obtain ⟨-, -, hrun⟩ := hrun
          cases hrun
          cases hfinish
          simpa using hstays
        · intro hstays
          have hroom' := ((ih hstored₂ hsorted').mp hstays).four_le
          have hsane := hstored₁.assertSane (List.pairwise_append.mp hsorted').1 hlimit
            (by omega) (show (added ++ [x]).length < limit + 1 from ?_)
          · rw [hsane]
            exact ⟨true, _, rfl, by simp, by simpa using hstays⟩
          · have := length_le_lens (added ++ [x])
            omega
      · have hleft : x.left (home.stop - (home.first + lens added + pads added)) =
            home.stop - (home.first + lens added + pads added) := if_neg hfit
        have hsorted' : (added ++ calls).Pairwise fun x y => 0 < y.compare x :=
          hsorted.sublist ((List.sublist_cons_self x calls).append_left added)
        rw [h.addtoRange_none home.start_le_first hsize hlimit hword hfit, hleft, ← ih h hsorted']
        constructor
        · rintro ⟨ok, m', hrun, -, hstays⟩
          cases hrun
          simpa using hstays
        · intro hstays
          exact ⟨false, m, rfl, fun _ => rfl, by simpa using hstays⟩

theorem StaysWalkable.walkable {added calls : List Xattr} {m : Mem}
    (h : StaysWalkable limit home added calls m) : Walkable home m added := by
  cases calls with
  | nil => exact h
  | cons x calls => exact h.1

/-- **When a region of extended attributes stays walkable**: exactly if every
attribute that is accepted leaves four bytes free. -/
theorem staysWalkable_iff {m : Mem} {calls : List Xattr}
    (hsize : home.stop ≤ home.start + 2 ^ 16) (hlimit : home.stop ≤ limit)
    (hzero : ∀ a, home.first ≤ a → a < home.stop → m a = 0)
    (hsorted : calls.Pairwise fun x y => 0 < y.compare x) :
    StaysWalkable limit home [] calls m ↔ KeepsRoom (home.stop - home.first) calls := by
  rcases Nat.lt_or_ge home.stop home.first with hlt | hle
  · -- there is no region
    refine iff_of_false (fun h => ?_) fun h => ?_
    · obtain ⟨entries, last, hwalk, -⟩ := h.walkable
      rw [xattrWalk, isLastEntry, if_pos (by omega)] at hwalk
      cases hwalk
    · have := h.four_le
      omega
  · have h : Stored home.start m home.first home.stop [] := ⟨hle, hzero⟩
    simpa using staysWalkable_iff_of_stored hsize hlimit h (by simpa using hsorted)

end Runs

/-- The attribute `security.selinux` with a label of `n` bytes. -/
def selinux (n : ℕ) (h : n < 2 ^ 62 := by decide) : Xattr where
  nameIndex := 6
  name := [115, 101, 108, 105, 110, 117, 120]
  name_ne := by simp
  value := List.replicate n 97
  value_lt := by simpa using h

theorem staysWalkable_iff_label :
    StaysWalkable 256 (.inode 0 256) [] [selinux 30] Mem.zero :=
  (staysWalkable_iff (by decide) (by decide) (fun _ _ _ => rfl) (by simp)).mpr (by decide)

/-- A label of 72 bytes fills the 96 bytes behind an inode of 256. -/
theorem not_staysWalkable_label : [selinux 72].Pairwise (fun x y => 0 < y.compare x) ∧
    ¬ StaysWalkable 256 (.inode 0 256) [] [selinux 72] Mem.zero := by
  refine ⟨by simp, fun hstays => ?_⟩
  have h : Stored (XattrHome.inode 0 256).start Mem.zero (XattrHome.inode 0 256).first
      (XattrHome.inode 0 256).stop [] := ⟨by decide, fun _ _ _ => rfl⟩
  have hroom := (staysWalkable_iff_of_stored (by decide) (by decide) h (by simp)).mp hstays
  revert hroom
  decide

end SystemExtras.Ext4
