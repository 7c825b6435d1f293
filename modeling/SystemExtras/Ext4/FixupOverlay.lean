import SystemExtras.Lib.Lockstep
import SystemExtras.Ext4.FixupSearch

/-!
# Directories under an overlay

A `FixupImage` is cleaner than what the tool can work on.  Its directories are tiled by
records to the last byte, and all numbers in them are those of inodes, although the tool
never looks behind an entry that is neither a directory nor of unknown type, nor behind
`.` and `..`, and stops at the first number that is zero.

A `DirPlan` says what an overlay has to change in one directory to make it as clean as
that.  The number of an *idle* entry is replaced by that of the root, and the entry becomes
a `.`; the last record in use is extended to the end of its block; and every block behind
that becomes one record that is not in use.  `DirPlan.byte` is the overlay on the
directory, and `Shows` says that one buffer is the other one under it.

## Strategy

The overlay leaves a record alone unless it is idle or the last one (`Shows.recInum`,
`Shows.recName`, `Shows.recLength`); of an idle record it shows the root, marked if the
record is marked (`Shows.recInum_idle`).  Replacing the number of a record on both sides
keeps `Shows` (`Shows.set`).  `Fits` is what the tool relies on in the directory without the
overlay: the marking pass comes past the last record only if nothing is left there, or a
number that is zero.
-/

namespace SystemExtras.Ext4

/-! ## Plans -/

/-- What an overlay has to know about a directory. -/
structure DirPlan where
  blocks : List ℕ
  /-- The records in use. -/
  live : List ℕ
  /-- Those among them that the tool does not look behind. -/
  idle : List ℕ
  /-- Where the last of them ended at first. -/
  stop : ℕ
  /-- What is left there, if that is more than nothing or a number that is zero. -/
  tail : Option Mem

/-- What an idle entry turns into: a `.` that leads to the root. -/
def idleByte (i : ℕ) (y : UInt8) : UInt8 :=
  match i with
  | 0 => 2
  | 1 => 0
  | 2 => 0
  | 3 => y &&& 0x80
  | 6 => 1
  | 7 => 2
  | 8 => 46
  | _ => y

/-- What a block that is not in use turns into: one record with the number zero. -/
def deadByte (bs i : ℕ) (y : UInt8) : UInt8 :=
  if i < 4 then 0
  else if i < 6 then UInt8.ofNat (bs / 256 ^ (i - 4))
  else if i = 6 then 0
  else y

/-- The number that an idle entry shows: that of the root, marked if the entry is. -/
def rootNum (x : ℕ) : ℕ := if Marked x then EXT4_ROOT_INO ||| 0x80000000 else EXT4_ROOT_INO

namespace DirPlan

variable (D : DirPlan) (bs : ℕ)

def size : ℕ := bs * D.blocks.length

/-- Where byte `j` of the directory lies. -/
def addr (j : ℕ) : ℕ := D.blocks.getD (j / bs) 0 * bs + j % bs

/-- The end of the last block that holds a record in use. -/
def fill : ℕ := D.live.max?.elim 0 fun q => (q / bs + 1) * bs

/-- What becomes of byte `j` of the directory. -/
def byte (j : ℕ) (y : UInt8) : UInt8 :=
  if D.fill bs ≤ j then deadByte bs (j % bs) y
  else
    match D.live.max?.filter fun q => q + 4 ≤ j ∧ j < q + 6 with
    | some q => UInt8.ofNat ((D.fill bs - q) / 256 ^ (j - (q + 4)))
    | none =>
        match D.idle.find? fun r => r ≤ j ∧ j < r + 12 with
        | some r => idleByte (j - r) y
        | none => y

/-- What the overlay shows of the number `x` in record `r`. -/
def shown (r x : ℕ) : ℕ := if r ∈ D.idle then rootNum x else x

/-- The second buffer is the first one under the overlay. -/
def Shows (b b' : Mem) : Prop := ∀ j < D.size bs, b' j = D.byte bs j (b j)

/-- The records of the plan lie in the blocks as the buffer says, and share no byte. -/
structure Lies (m : Mem) : Prop where
  blockSize_pos : 0 < bs
  record : ∀ {r}, r ∈ D.live → RecordOk m bs r ∧ r + recLength m r ≤ D.size bs
  apart : ∀ {r r'}, r ∈ D.live → r' ∈ D.live → r ≠ r' →
    r + recLength m r ≤ r' ∨ r' + recLength m r' ≤ r
  idle : D.idle ⊆ D.live
  live_stop : ∀ r ∈ D.live, r + 12 ≤ D.stop
  stop_le : D.stop ≤ D.fill bs

/-- The plan is one for directory `n` of the image. -/
structure Of (p : Fixup) (T : DirTree) (d₀ : Device) (n : ℕ) : Prop where
  blocks : D.blocks = T.blocks n
  live : D.live = T.live p d₀ n
  idle : D.idle ⊆ D.live
  live_stop : ∀ r ∈ D.live, r + 12 ≤ D.stop
  stop_le : D.stop ≤ D.fill p.info.blockSize

variable {D bs} in
theorem Of.lies {p : Fixup} {T : DirTree} {d₀ : Device} {n : ℕ} (hD : D.Of p T d₀ n)
    (hI : DirImage p T d₀) (hn : n ∈ T.dirs) : D.Lies p.info.blockSize (T.buf p d₀ n) where
  blockSize_pos := hI.blockSize_pos
  record := by
    intro r hr
    rw [hD.live] at hr
    obtain ⟨-, hok, hle⟩ := (hI.tiles n hn).mem r (live_subset hr)
    refine ⟨hok, ?_⟩
    unfold DirPlan.size
    rwa [hD.blocks]
  apart := by
    intro r r' hr hr' hne
    rw [hD.live] at hr hr'
    exact (hI.tiles n hn).apart (live_subset hr) (live_subset hr') hne
  idle := hD.idle
  live_stop := hD.live_stop
  stop_le := hD.stop_le

end DirPlan

section RootNum

theorem rootNum_of_not_marked {x : ℕ} (h : ¬ Marked x) : rootNum x = EXT4_ROOT_INO := if_neg h

theorem rootNum_of_marked {x : ℕ} (h : Marked x) : rootNum x = EXT4_ROOT_INO ||| 0x80000000 :=
  if_pos h

/-- The top bit of a number is the only one that is left of it. -/
theorem top_byte (x : ℕ) : UInt8.ofNat (x / 256 ^ 3) &&& 0x80 = if Marked x then 0x80 else 0 := by
  have hbit : (x / 256 ^ 3 % 256).testBit 7 = x.testBit 31 := by
    rw [show (256 : ℕ) = 2 ^ 8 by rfl, Nat.testBit_mod_two_pow, ← pow_mul, Nat.testBit_div_two_pow]
    simp
  apply UInt8.toNat.inj
  rw [UInt8.toNat_and, UInt8.toNat_ofNat', show (0x80 : UInt8).toNat = 2 ^ 7 by rfl,
    show (2 ^ 8 : ℕ) = 256 by rfl, Nat.and_two_pow, hbit]
  by_cases h : Marked x
  · rw [if_pos h, marked_iff.mp h]
    rfl
  · rw [if_neg h, Bool.eq_false_iff.mpr fun hc => h (marked_iff.mpr hc)]
    rfl

theorem idleByte_num (x : ℕ) {i : ℕ} (hi : i < 4) :
    idleByte i (UInt8.ofNat (x / 256 ^ i)) = UInt8.ofNat (rootNum x / 256 ^ i) := by
  have htop := top_byte x
  have hcases : i = 0 ∨ i = 1 ∨ i = 2 ∨ i = 3 := by omega
  by_cases h : Marked x
  · rw [rootNum_of_marked h]
    rw [if_pos h] at htop
    rcases hcases with rfl | rfl | rfl | rfl
    · rfl
    · rfl
    · rfl
    · exact htop
  · rw [rootNum_of_not_marked h]
    rw [if_neg h] at htop
    rcases hcases with rfl | rfl | rfl | rfl
    · rfl
    · rfl
    · rfl
    · exact htop

theorem rootNum_lt (x : ℕ) : rootNum x < 2 ^ 32 := by
  unfold rootNum
  split <;> decide

/-- The numbers that a pass can replace, as they stand when it comes to them. -/
def NumOk (p : Fixup) (mode : Mode) (x : ℕ) : Prop :=
  x &&& 0x7fffffff ≠ 0 ∧
    ((mode = .updateInodeNums → Marked x) → p.newInum (x &&& 0x7fffffff) < 2 ^ 31)

section Process

variable {p : Fixup} {mode : Mode} {x : ℕ}

theorem low31_or (x : ℕ) : (x ||| 0x80000000) &&& 0x7fffffff = x &&& 0x7fffffff := by
  rw [Nat.and_or_distrib_right]
  simp

/-- A pass does the same to the number and to what it shows. -/
theorem processInum_rootNum (hroot : p.newInum EXT4_ROOT_INO = EXT4_ROOT_INO) (h : NumOk p mode x) :
    processInum p mode (rootNum x) = rootNum (processInum p mode x) ∧
      NumOk p mode (processInum p mode x) := by
  obtain ⟨hlow, hnew⟩ := h
  cases mode with
  | sanityCheckPass => exact ⟨rfl, hlow, hnew⟩
  | markInodeNums =>
      simp only [processInum]
      constructor
      · rw [rootNum_of_marked (marked_or_bit31 x)]
        unfold rootNum
        split
        · rfl
        · rfl
      · refine ⟨?_, fun _ => ?_⟩
        · rwa [low31_or]
        · rw [low31_or]
          exact hnew (by simp)
  | updateInodeNums =>
      by_cases hmark : Marked x
      · have hpos : 0 < x &&& 0x7fffffff := Nat.pos_of_ne_zero hlow
        have hlt : x &&& 0x7fffffff < 2 ^ 31 := by
          rw [and_low31]
          exact Nat.mod_lt _ (by decide)
        have hnew := hnew fun _ => hmark
        have hx : processInum p .updateInodeNums x = p.newInum (x &&& 0x7fffffff) := by
          simp only [processInum, if_pos hmark]
          exact computeNewInum_eq hpos hlt hnew
        have hne := not_marked_of_lt hnew
        rw [hx, rootNum_of_marked hmark, rootNum_of_not_marked hne]
        refine ⟨?_, ?_, fun h => absurd (h rfl) hne⟩
        · have hlow : (EXT4_ROOT_INO ||| 0x80000000) &&& 0x7fffffff = EXT4_ROOT_INO := by decide
          simp only [processInum, marked_or_bit31, if_true, hlow]
          rw [computeNewInum_eq (by decide) (by decide) (by rw [hroot]; decide), hroot]
        · rw [and_low31, Nat.mod_eq_of_lt hnew]
          exact Nat.ne_of_gt (newInum_pos p _)
      · have hx : processInum p .updateInodeNums x = x := by
          simp only [processInum, if_neg hmark]
        rw [hx, rootNum_of_not_marked hmark]
        refine ⟨?_, hlow, hnew⟩
        have hroot : ¬ Marked EXT4_ROOT_INO := by decide
        simp only [processInum, if_neg hroot]

theorem processInum_lt (hx : x < 2 ^ 32) : processInum p mode x < 2 ^ 32 := by
  cases mode with
  | sanityCheckPass => exact hx
  | markInodeNums => exact Nat.or_lt_two_pow hx (by decide)
  | updateInodeNums =>
      simp only [processInum]
      split
      · exact u32_lt _
      · exact hx

/-- What is asked before the numbers are replaced is enough for every pass. -/
theorem NumOk.anyMode (hmode : mode ≠ .updateInodeNums) (h : NumOk p mode x) (mode' : Mode) :
    NumOk p mode' x := ⟨h.1, fun _ => h.2 fun hc => absurd hc hmode⟩

end Process

end RootNum

/-- A pass does the same to a number and to what the overlay shows of it. -/
theorem DirPlan.processInum_shown {D : DirPlan} {p : Fixup} {mode : Mode} {r x : ℕ}
    (hroot : p.newInum EXT4_ROOT_INO = EXT4_ROOT_INO) (hnum : r ∈ D.idle → NumOk p mode x) :
    processInum p mode (D.shown r x) = D.shown r (processInum p mode x) ∧
      (r ∈ D.idle → NumOk p mode (processInum p mode x)) := by
  unfold DirPlan.shown
  split
  · rename_i hidle
    obtain ⟨h₁, h₂⟩ := processInum_rootNum hroot (hnum hidle)
    exact ⟨h₁, fun _ => h₂⟩
  · rename_i hplain
    exact ⟨rfl, fun h => absurd h hplain⟩

/-! ## What the overlay leaves alone -/

section Bytes

variable {D : DirPlan} {bs r : ℕ} {m : Mem}

variable (hL : D.Lies bs m)

include hL

namespace DirPlan.Lies

/-- The end of the block of a record. -/
theorem le_block_end (hr : r ∈ D.live) :
    r + recLength m r ≤ (r / bs + 1) * bs := by
  have hin := (hL.record hr).1.inBlock
  have hdiv := Nat.div_add_mod r bs
  rw [Nat.mul_comm] at hdiv
  rw [Nat.add_mul, Nat.one_mul]
  omega

omit hL in
theorem fill_of_max {bs q : ℕ} (hq : D.live.max? = some q) : D.fill bs = (q / bs + 1) * bs := by
  unfold DirPlan.fill
  rw [hq]
  rfl

theorem le_fill (hr : r ∈ D.live) :
    r + recLength m r ≤ D.fill bs := by
  obtain ⟨q, hq⟩ : ∃ q, D.live.max? = some q := by
    rw [← Option.isSome_iff_exists, List.isSome_max?_iff]
    exact List.ne_nil_of_mem hr
  rw [fill_of_max hq]
  refine (hL.le_block_end hr).trans (Nat.mul_le_mul_right _ (Nat.succ_le_succ ?_))
  exact Nat.div_le_div_right ((List.max?_eq_some_iff.mp hq).2 r hr)

theorem block_end_le (hr : r ∈ D.live) :
    (r / bs + 1) * bs ≤ D.size bs := by
  obtain ⟨hok, hle⟩ := hL.record hr
  have hmin := hok.minLength
  have hlt : r / bs < D.blocks.length := by
    apply Nat.div_lt_of_lt_mul
    unfold DirPlan.size at hle
    omega
  rw [DirPlan.size, Nat.mul_comm]
  exact Nat.mul_le_mul_left _ hlt

/-- A byte of a record in use, but not of the length of the last one. -/
theorem byte_eq {j : ℕ} (hr : r ∈ D.live) (h₁ : r ≤ j) (h₂ : j < r + recLength m r)
    (hlen : D.live.max? = some r → j < r + 4 ∨ r + 6 ≤ j) (y : UInt8) :
    D.byte bs j y = match D.idle.find? fun r => r ≤ j ∧ j < r + 12 with
      | some r => idleByte (j - r) y
      | none => y := by
  have hfill := hL.le_fill hr
  have hfilter : D.live.max?.filter (fun q => q + 4 ≤ j ∧ j < q + 6) = none := by
    rw [Option.filter_eq_none_iff]
    intro q hq hc
    have hc : q + 4 ≤ j ∧ j < q + 6 := by simpa using hc
    have hmem := (List.max?_eq_some_iff.mp hq).1
    by_cases hqr : r = q
    · subst hqr
      have := hlen hq
      omega
    · have hmin := (hL.record hmem).1.minLength
      rcases hL.apart hr hmem hqr with h | h <;> omega
  unfold DirPlan.byte
  rw [if_neg (by omega), hfilter]

theorem find_idle {j : ℕ} (hr : r ∈ D.live) (h₁ : r ≤ j) (h₂ : j < r + recLength m r) :
    (D.idle.find? fun r => r ≤ j ∧ j < r + 12) =
      if r ∈ D.idle ∧ j < r + 12 then some r else none := by
  have hother : ∀ r' ∈ D.idle, r' ≤ j → j < r' + 12 → r' = r := by
    intro r' hr' h₁' h₂'
    by_contra hne
    have hmin := (hL.record (hL.idle hr')).1.minLength
    rcases hL.apart (hL.idle hr') hr hne with h | h <;> omega
  cases hfind : D.idle.find? fun r => r ≤ j ∧ j < r + 12 with
  | none =>
      rw [List.find?_eq_none] at hfind
      rw [if_neg]
      rintro ⟨hmem, hlt⟩
      exact hfind r hmem (by simp [h₁, hlt])
  | some r' =>
      have hmem := List.mem_of_find?_eq_some hfind
      have hx : r' ≤ j ∧ j < r' + 12 := by simpa using List.find?_some hfind
      have heq := hother r' hmem hx.1 hx.2
      rw [if_pos ⟨heq ▸ hmem, heq ▸ hx.2⟩, heq]

theorem byte_plain {j : ℕ} (hr : r ∈ D.live) (hplain : r ∉ D.idle) (h₁ : r ≤ j)
    (h₂ : j < r + recLength m r)
    (hlen : D.live.max? = some r → j < r + 4 ∨ r + 6 ≤ j) (y : UInt8) :
    D.byte bs j y = y := by
  rw [hL.byte_eq hr h₁ h₂ hlen, hL.find_idle hr h₁ h₂,
    if_neg fun h => hplain h.1]

theorem byte_idle {i : ℕ} (hr : r ∈ D.idle) (hi : i < 12)
    (hlen : D.live.max? = some r → i < 4 ∨ 6 ≤ i) (y : UInt8) :
    D.byte bs (r + i) y = idleByte i y := by
  have hmin := (hL.record (hL.idle hr)).1.minLength
  rw [hL.byte_eq (hL.idle hr) (Nat.le_add_right _ _) (by omega) fun h => by
      have := hlen h
      omega,
    hL.find_idle (hL.idle hr) (Nat.le_add_right _ _) (by omega), if_pos ⟨hr, by omega⟩]
  change idleByte (r + i - r) y = _
  rw [Nat.add_sub_cancel_left]

omit hL in
/-- The length of the last record in use is that of the rest of its block. -/
theorem byte_last {bs q i : ℕ} (hq : D.live.max? = some q) (hi : i < 2) (hfill : q + 6 ≤ D.fill bs)
    (y : UInt8) : D.byte bs (q + 4 + i) y = UInt8.ofNat ((D.fill bs - q) / 256 ^ i) := by
  have hfilter : D.live.max?.filter (fun q' => q' + 4 ≤ q + 4 + i ∧ q + 4 + i < q' + 6) =
      some q := by
    rw [hq, Option.filter_some, if_pos]
    simp only [decide_eq_true_eq]
    omega
  unfold DirPlan.byte
  rw [if_neg (by omega), hfilter]
  simp only
  rw [show q + 4 + i - (q + 4) = i by omega]

end DirPlan.Lies

/-! ## What one reads under it -/

namespace DirPlan.Shows

variable {b b' : Mem} (hb : D.Shows bs b b')

include hb

/-- A record that is not idle, but for its length. -/
theorem sameOn (hr : r ∈ D.live) (hplain : r ∉ D.idle) :
    b'.SameOn b r (r + 4) ∧ b'.SameOn b (r + 6) (r + recLength m r) := by
  obtain ⟨hok, hle⟩ := hL.record hr
  have hmin := hok.minLength
  constructor
  · intro j h₁ h₂
    rw [hb j (by omega), hL.byte_plain hr hplain h₁ (by omega) fun _ => Or.inl h₂]
  · intro j h₁ h₂
    rw [hb j (by omega), hL.byte_plain hr hplain (by omega) h₂ fun _ => Or.inr h₁]

theorem recInum (hr : r ∈ D.live) (hplain : r ∉ D.idle) : recInum b' r = recInum b r :=
  Field.get_congr (hb.sameOn hL hr hplain).1 (Nat.le_refl _) (Nat.le_refl _)

theorem recFileType (hr : r ∈ D.live) (hplain : r ∉ D.idle) :
    recFileType b' r = recFileType b r := by
  have hmin := (hL.record hr).1.minLength
  refine Field.get_congr (hb.sameOn hL hr hplain).2 ?_ ?_ <;>
    simp only [DirEntry.fileType, Field.at_] <;> omega

theorem nameLen (hr : r ∈ D.live) (hplain : r ∉ D.idle) :
    (DirEntry.nameLen.at_ r).get b' = (DirEntry.nameLen.at_ r).get b := by
  have hmin := (hL.record hr).1.minLength
  refine Field.get_congr (hb.sameOn hL hr hplain).2 ?_ ?_ <;>
    simp only [DirEntry.nameLen, Field.at_] <;> omega

/-- The name of a record that has room for it. -/
theorem recName (hr : r ∈ D.live) (hplain : r ∉ D.idle)
    (hroom : DirEntry.nameOffset + (DirEntry.nameLen.at_ r).get b' ≤
      Ext4.recLength m r) : recName b' r = Ext4.recName b r := by
  have hoff : DirEntry.nameOffset = 8 := rfl
  have hlen := hb.nameLen hL hr hplain
  unfold Ext4.recName
  rw [← hlen, Mem.bytes_congr fun i hi => (hb.sameOn hL hr hplain).2 _ (by omega) (by omega)]

/-- The length of any record but the last. -/
theorem recLength (hr : r ∈ D.live) (hnot : D.live.max? ≠ some r) :
    Ext4.recLength b' r = Ext4.recLength b r := by
  obtain ⟨hok, hle⟩ := hL.record hr
  have hmin := hok.minLength
  apply Mem.load_congr
  intro i hi
  have hi : i < 2 := hi
  change b' (r + 4 + i) = b (r + 4 + i)
  rw [hb _ (by omega)]
  by_cases hidle : r ∈ D.idle
  · rw [Nat.add_assoc, hL.byte_idle hidle (by omega) fun h => absurd h hnot]
    rcases show i = 0 ∨ i = 1 by omega with rfl | rfl
    · rfl
    · rfl
  · exact hL.byte_plain hr hidle (by omega) (by omega) (fun h => absurd h hnot) _

/-- The byte of an idle record that is not one of its length. -/
theorem idle_byte {i : ℕ} (hr : r ∈ D.idle) (hi : i < 12) (hlen : i < 4 ∨ 6 ≤ i) :
    b' (r + i) = idleByte i (b (r + i)) := by
  obtain ⟨hok, hle⟩ := hL.record (hL.idle hr)
  have hmin := hok.minLength
  rw [hb _ (by omega), hL.byte_idle hr hi fun _ => hlen]

theorem recInum_idle (hr : r ∈ D.idle) : Ext4.recInum b' r = rootNum (Ext4.recInum b r) := by
  have hload : Ext4.recInum b' r = rootNum (Ext4.recInum b r) % 256 ^ 4 := by
    apply Mem.load_eq_of_bytes
    intro i hi
    have hi : i < 4 := hi
    change b' (r + i) = _
    have hbyte : b (r + i) = UInt8.ofNat (Ext4.recInum b r / 256 ^ i) := Mem.byte_of_load b r 4 hi
    rw [hb.idle_byte hL hr (by omega) (Or.inl hi), hbyte, idleByte_num _ hi]
  rw [hload]
  exact Nat.mod_eq_of_lt (rootNum_lt _)

/-- An idle record looks like a `.`. -/
theorem idle_entry (hr : r ∈ D.idle) :
    Ext4.recFileType b' r = EXT4_FT_DIR ∧ (DirEntry.nameLen.at_ r).get b' = 1 ∧
      Ext4.recName b' r = [46] := by
  have hlen : (DirEntry.nameLen.at_ r).get b' = 1 := by
    change (b' (r + 6)).toNat + 256 * 0 = 1
    rw [hb.idle_byte hL hr (by decide) (Or.inr le_rfl)]
    rfl
  refine ⟨?_, hlen, ?_⟩
  · change (b' (r + 7)).toNat + 256 * 0 = 2
    rw [hb.idle_byte hL hr (by decide) (Or.inr (by decide))]
    rfl
  · unfold Ext4.recName
    rw [hlen]
    change List.takeWhile _ [b' (r + 8 + 0)] = [46]
    rw [Nat.add_zero, hb.idle_byte hL hr (by decide) (Or.inr (by decide))]
    rfl

/-- The number in any record. -/
theorem recInum_shown (hr : r ∈ D.live) : Ext4.recInum b' r = D.shown r (Ext4.recInum b r) := by
  unfold DirPlan.shown
  split
  · rename_i hidle
    exact hb.recInum_idle hL hidle
  · rename_i hplain
    exact hb.recInum hL hr hplain

/-- Assigning to the number of a record on both sides. -/
theorem set (hr : r ∈ D.live) (x : ℕ) : D.Shows bs
    ((DirEntry.inode.at_ r).set b x) ((DirEntry.inode.at_ r).set b' (D.shown r x)) := by
  have hmin := (hL.record hr).1.minLength
  intro j hj
  by_cases hin : r ≤ j ∧ j < r + 4
  · obtain ⟨i, rfl⟩ : ∃ i, j = r + i := ⟨j - r, by omega⟩
    have hi : i < 4 := by omega
    have hset : ∀ (c : Mem) v,
        (DirEntry.inode.at_ r).set c v (r + i) = UInt8.ofNat (v / 256 ^ i) := by
      intro c v
      refine (Mem.store_apply_of_mem (Nat.le_add_right _ _) (Nat.add_lt_add_left hi r)).trans ?_
      exact congrArg (fun k => UInt8.ofNat (v / 256 ^ k)) (Nat.add_sub_cancel_left _ _)
    rw [hset, hset]
    unfold DirPlan.shown
    split
    · rename_i hidle
      rw [hL.byte_idle hidle (by omega) fun _ => Or.inl hi, idleByte_num _ hi]
    · rename_i hplain
      rw [hL.byte_plain hr hplain hin.1 (by omega) fun _ => Or.inl hin.2]
  · have hset : ∀ (c : Mem) v, (DirEntry.inode.at_ r).set c v j = c j := fun c v =>
      Mem.store_apply_of_not_mem (by
        simp only [DirEntry.inode, Field.at_]
        omega)
    rw [hset, hset, hb j hj]

omit hL in
/-- The length of the last record does not show. -/
theorem set_recLen {q : ℕ} (hq : D.live.max? = some q) (hfill : q + 6 ≤ D.fill bs)
    (v : ℕ) : D.Shows bs ((DirEntry.recLen.at_ q).set b v) b' := by
  intro j hj
  by_cases hin : q + 4 ≤ j ∧ j < q + 6
  · obtain ⟨i, rfl⟩ : ∃ i, j = q + 4 + i := ⟨j - (q + 4), by omega⟩
    rw [hb _ hj, DirPlan.Lies.byte_last hq (by omega) hfill,
      DirPlan.Lies.byte_last hq (by omega) hfill]
  · have hset : (DirEntry.recLen.at_ q).set b v j = b j := Mem.store_apply_of_not_mem (by
      simp only [DirEntry.recLen, Field.at_]
      omega)
    rw [hset, hb j hj]

end DirPlan.Shows

end Bytes

/-! ## Buffers that fit a plan -/

namespace DirPlan

variable (D : DirPlan) (bs : ℕ)

/-- An idle record: one that the tool does not look behind, with room for its name. -/
structure IdleAt (b : Mem) (r : ℕ) : Prop where
  inBlock : r % bs + DirEntry.nameOffset + (DirEntry.nameLen.at_ r).get b ≤ bs
  name_le : ∀ r' ∈ D.live, r < r' → r + DirEntry.nameOffset + (DirEntry.nameLen.at_ r).get b ≤ r'
  entry : IdleEntry (recFileType b r) (recName b r)

/-- What the overlay relies on in a directory.  `N` is what is known of the numbers of idle
records. -/
structure Fits (N : ℕ → Prop) (b : Mem) : Prop where
  idle : ∀ r ∈ D.idle, D.IdleAt bs b r
  num : ∀ r ∈ D.idle, N (recInum b r)
  /-- The tool may extend the last record to the end of the directory. -/
  last : ∀ q, D.live.max? = some q → q + recLength b q = D.stop ∨
    D.tail = none ∧ q + recLength b q = D.size bs
  /-- Behind the last record the number is zero. -/
  stop : D.tail = none →
    D.stop = D.size bs ∨ D.stop + 4 ≤ D.size bs ∧ ∀ i < 4, b (D.stop + i) = 0
  tail : ∀ m, D.tail = some m → D.stop < D.size bs ∧ b.SameOn m D.stop (D.size bs)

variable {D bs} {N N' : ℕ → Prop} {b b' : Mem} {r : ℕ}

/-- Only the record itself matters. -/
theorem IdleAt.congr (h : D.IdleAt bs b r) (hsame : b'.SameOn b (r + 6)
    (r + DirEntry.nameOffset + (DirEntry.nameLen.at_ r).get b)) : D.IdleAt bs b' r := by
  have hoff : DirEntry.nameOffset = 8 := rfl
  have hlen : (DirEntry.nameLen.at_ r).get b' = (DirEntry.nameLen.at_ r).get b := by
    refine Field.get_congr hsame ?_ ?_ <;> simp only [DirEntry.nameLen, Field.at_] <;> omega
  have htype : recFileType b' r = recFileType b r := by
    refine Field.get_congr hsame ?_ ?_ <;> simp only [DirEntry.fileType, Field.at_] <;> omega
  have hname : recName b' r = recName b r := by
    unfold recName
    rw [hlen, Mem.bytes_congr fun i hi => hsame _ (by omega) (by omega)]
  refine ⟨?_, ?_, ?_⟩
  · rw [hlen]
    exact h.inBlock
  · rw [hlen]
    exact h.name_le
  · rw [htype, hname]
    exact h.entry

theorem Fits.mono (h : D.Fits bs N b) (hN : ∀ x, N x → N' x) : D.Fits bs N' b :=
  ⟨h.idle, fun r hr => hN _ (h.num r hr), h.last, h.stop, h.tail⟩

section FitsSet

variable {m : Mem} {q x : ℕ}

variable (hL : D.Lies bs m)

include hL

/-- Replacing the number of a record. -/
theorem Fits.set (h : D.Fits bs N b) (hr : r ∈ D.live) (hx : r ∈ D.idle → N x)
    (hlt : x < 2 ^ 32) : D.Fits bs N ((DirEntry.inode.at_ r).set b x) := by
  have hset : ∀ j, j < r ∨ r + 4 ≤ j → (DirEntry.inode.at_ r).set b x j = b j := fun j hj =>
    Mem.store_apply_of_not_mem hj
  have hoff : DirEntry.nameOffset = 8 := rfl
  have hstop := hL.live_stop r hr
  have hother : ∀ r' ∈ D.live, r' ≠ r → r + 12 ≤ r' ∨ r' + 12 ≤ r := by
    intro r' hr' hne
    have hmin := (hL.record hr).1.minLength
    have hmin' := (hL.record hr').1.minLength
    rcases hL.apart hr hr' (Ne.symm hne) with h | h <;> omega
  refine ⟨fun r' hr' => ?_, fun r' hr' => ?_, fun q hq => ?_, fun htail => ?_, fun a ha => ?_⟩
  · refine (h.idle r' hr').congr fun j h₁ h₂ => hset j ?_
    by_cases hne : r' = r
    · omega
    · rcases Nat.lt_or_gt_of_ne hne with hlt | hlt
      · have := (h.idle r' hr').name_le r hr hlt
        omega
      · have := hother r' (hL.idle hr') hne
        omega
  · by_cases hne : r' = r
    · subst hne
      have hget : recInum ((DirEntry.inode.at_ r').set b x) r' = x % 256 ^ 4 :=
        Field.get_set_self _ _ _
      rw [hget, Nat.mod_eq_of_lt (by omega)]
      exact hx hr'
    · have hget : recInum ((DirEntry.inode.at_ r).set b x) r' = recInum b r' := by
        apply Mem.load_congr
        intro i hi
        have hi : i < 4 := hi
        have := hother r' (hL.idle hr') hne
        exact hset (r' + i) (by omega)
      rw [hget]
      exact h.num r' hr'
  · have hget : recLength ((DirEntry.inode.at_ r).set b x) q = recLength b q := by
      apply Mem.load_congr
      intro i hi
      have hi : i < 2 := hi
      apply hset (q + 4 + i)
      by_cases hne : q = r
      · omega
      · have := hother q (List.max?_eq_some_iff.mp hq).1 hne
        omega
    rw [hget]
    exact h.last q hq
  · refine (h.stop htail).imp id fun ⟨h₁, h₂⟩ => ⟨h₁, fun i hi => ?_⟩
    rw [hset _ (by omega)]
    exact h₂ i hi
  · obtain ⟨hlt, hsame⟩ := h.tail a ha
    exact ⟨hlt, fun j h₁ h₂ => (hset j (by omega)).trans (hsame j h₁ h₂)⟩

/-- Extending the last record to the end of the directory. -/
theorem Fits.set_recLen (h : D.Fits bs N b) (htail : D.tail = none)
    (hq : D.live.max? = some q) (hlt : D.size bs - q < 2 ^ 16) : D.Fits bs N
      ((DirEntry.recLen.at_ q).set b (D.size bs - q)) := by
  have hmem := (List.max?_eq_some_iff.mp hq).1
  have hset : ∀ j, j < q + 4 ∨ q + 6 ≤ j →
      (DirEntry.recLen.at_ q).set b (D.size bs - q) j = b j := fun j hj =>
    Mem.store_apply_of_not_mem hj
  have hoff : DirEntry.nameOffset = 8 := rfl
  have hstop := hL.live_stop q hmem
  have hsize := (hL.record hmem).2
  have hother : ∀ r' ∈ D.live, r' ≠ q → r' + 12 ≤ q := by
    intro r' hr' hne
    have hle := (List.max?_eq_some_iff.mp hq).2 r' hr'
    have hmin' := (hL.record hr').1.minLength
    have hmin := (hL.record hmem).1.minLength
    rcases hL.apart hmem hr' (Ne.symm hne) with h | h <;> omega
  refine ⟨fun r' hr' => ?_, fun r' hr' => ?_, fun q' hq' => Or.inr ⟨htail, ?_⟩, fun _ => ?_,
    fun a ha => ?_⟩
  · refine (h.idle r' hr').congr fun j h₁ h₂ => hset j ?_
    by_cases hne : r' = q
    · omega
    · have := (h.idle r' hr').name_le q hmem (by
        have := hother r' (hL.idle hr') hne
        omega)
      omega
  · have hget : recInum ((DirEntry.recLen.at_ q).set b (D.size bs - q)) r' =
        recInum b r' := by
      apply Mem.load_congr
      intro i hi
      have hi : i < 4 := hi
      apply hset (r' + i)
      by_cases hne : r' = q
      · omega
      · have := hother r' (hL.idle hr') hne
        omega
    rw [hget]
    exact h.num r' hr'
  · obtain rfl : q = q' := Option.some.inj (hq.symm.trans hq')
    have hget : recLength ((DirEntry.recLen.at_ q).set b (D.size bs - q)) q =
        (D.size bs - q) % 256 ^ 2 := Field.get_set_self _ _ _
    rw [hget, Nat.mod_eq_of_lt (by omega)]
    omega
  · refine (h.stop htail).imp id fun ⟨h₁, h₂⟩ => ⟨h₁, fun i hi => ?_⟩
    rw [hset _ (by omega)]
    exact h₂ i hi
  · rw [htail] at ha
    cases ha

/-- A buffer whose blocks are those of two buffers that fit. -/
theorem Fits.splice {c : Mem} {k : ℕ} (h : D.Fits bs N b)
    (h' : D.Fits bs N b')
    (hc : ∀ j, c j = if j / bs = k then b' j else b j) :
    D.Fits bs N c := by
  have hpos := hL.blockSize_pos
  -- what a block of `c` is a block of
  have hblock : ∀ r, ∃ a, D.Fits bs N a ∧ ∀ j, r ≤ j →
      j < r - r % bs + bs → c j = a j := by
    intro r
    have hdiv := Nat.div_add_mod r bs
    have hsame : ∀ j, r ≤ j → j < r - r % bs + bs →
        j / bs = r / bs := by
      intro j h₁ h₂
      apply Nat.div_eq_of_lt_le
      · rw [Nat.mul_comm]
        omega
      · rw [Nat.add_mul, Nat.one_mul, Nat.mul_comm]
        omega
    by_cases hrk : r / bs = k
    · refine ⟨b', h', fun j h₁ h₂ => ?_⟩
      rw [hc, if_pos ((hsame j h₁ h₂).trans hrk)]
    · refine ⟨b, h, fun j h₁ h₂ => ?_⟩
      rw [hc, if_neg (by rwa [hsame j h₁ h₂])]
  have hin : ∀ r ∈ D.live, r % bs ≤ r ∧ r % bs + 12 ≤ bs := by
    intro r hr
    have hok := (hL.record hr).1
    have hmin := hok.minLength
    have hblk := hok.inBlock
    exact ⟨Nat.mod_le _ _, by omega⟩
  refine ⟨fun r hr => ?_, fun r hr => ?_, fun q hq => ?_, fun htail => ?_, fun a ha => ?_⟩
  · obtain ⟨a, ha, hca⟩ := hblock r
    have hle := hin r (hL.idle hr)
    have hblk := (ha.idle r hr).inBlock
    exact (ha.idle r hr).congr fun j h₁ h₂ => hca j (by omega) (by omega)
  · obtain ⟨a, ha, hca⟩ := hblock r
    have hle := hin r (hL.idle hr)
    have hget : recInum c r = recInum a r := by
      apply Mem.load_congr
      intro i hi
      have hi : i < 4 := hi
      exact hca (r + i) (by omega) (by omega)
    rw [hget]
    exact ha.num r hr
  · obtain ⟨a, ha, hca⟩ := hblock q
    have hle := hin q (List.max?_eq_some_iff.mp hq).1
    have hget : recLength c q = recLength a q := by
      apply Mem.load_congr
      intro i hi
      have hi : i < 2 := hi
      exact hca (q + 4 + i) (by omega) (by omega)
    rw [hget]
    exact ha.last q hq
  · rcases h.stop htail with hstop | ⟨h₁, h₂⟩
    · exact Or.inl hstop
    · refine Or.inr ⟨h₁, fun i hi => ?_⟩
      rw [hc]
      split
      · rcases h'.stop htail with hstop | ⟨-, h₂'⟩
        · omega
        · exact h₂' i hi
      · exact h₂ i hi
  · obtain ⟨hlt, hsame⟩ := h.tail a ha
    refine ⟨hlt, fun j h₁ h₂ => ?_⟩
    rw [hc]
    split
    · exact (h'.tail a ha).2 j h₁ h₂
    · exact hsame j h₁ h₂

end FitsSet

end DirPlan

end SystemExtras.Ext4
