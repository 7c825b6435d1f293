import SystemExtras.Ext4.Indirect

/-!
# Counting pointer blocks

`indirect_blocks_needed` says how many pointer blocks a file needs before any of them
is reserved, with three divisions that are rounded up, and `reserve_all_indirect_blocks`
reserves them one by one in nested loops.  The functions that reserve are written over
any calls in place of the ones that reach an allocation (`ReserveCalls`), and with a
counter beside the calls (`ReserveCalls.counted`) they count them.

As long as a file needs no third level, the number of calls is what
`indirect_blocks_needed` returns and what the format needs
(`indirectBlocksNeeded_eq_reserved`).
-/

namespace SystemExtras.Ext4

/-! ## Counting calls -/

namespace ReserveCalls

variable {σ : Type} (c : ReserveCalls σ)

/-- The same calls with a counter of the calls of `reserve_oob_blocks`. -/
def counted : ReserveCalls (σ × ℕ) where
  reserveOobBlocks := fun (s, k) => do
    let (ok, s) ← c.reserveOobBlocks s
    .ok (ok, (s, k + 1))
  advanceBlocks := fun (s, k) len => do
    let (ok, s) ← c.advanceBlocks s len
    .ok (ok, (s, k))

/-- No call fails. -/
def Succeeds : Prop :=
  (∀ s, ∃ s', c.reserveOobBlocks s = .ok (true, s')) ∧
    ∀ s len, ∃ s', c.advanceBlocks s len = .ok (true, s')

end ReserveCalls

/-! ## How often a block is reserved -/

section Counting

variable {σ : Type} {c : ReserveCalls σ} {f g : σ × ℕ → Except Stop (σ × ℕ)} {m n : ℕ}

/-- A function over the counted calls makes `n` calls of `reserve_oob_blocks` whenever it ends well,
and it does so if no call fails. -/
def Counts (c : ReserveCalls σ) (f : σ × ℕ → Except Stop (σ × ℕ)) (n : ℕ) : Prop :=
  ∀ s k, (∀ r, f (s, k) = .ok r → r.2 = k + n) ∧ (c.Succeeds → ∃ s', f (s, k) = .ok (s', k + n))

namespace Counts

theorem ok : Counts c .ok 0 :=
  fun s _ => ⟨fun r hr => by obtain rfl := Except.ok.inj hr; rfl, fun _ => ⟨s, rfl⟩⟩

theorem bind (hf : Counts c f m) (hg : Counts c g n) : Counts c (fun s => f s >>= g) (m + n) := by
  intro s k
  obtain ⟨hf₁, hf₂⟩ := hf s k
  constructor
  · intro r hr
    obtain ⟨⟨s', k'⟩, hfrun, hgrun⟩ := bind_eq_ok.mp hr
    obtain rfl : k' = k + m := hf₁ _ hfrun
    rw [(hg s' (k + m)).1 r hgrun, Nat.add_assoc]
  · intro hsucceeds
    obtain ⟨s', hfrun⟩ := hf₂ hsucceeds
    obtain ⟨s'', hgrun⟩ := (hg s' (k + m)).2 hsucceeds
    refine ⟨s'', ?_⟩
    change f (s, k) >>= g = _
    rw [hfrun, bind_ok, hgrun, Nat.add_assoc]

theorem reserveOobBlocks (msg : String) (hf : Counts c f n) :
    Counts c (fun s => do
      let (ok, s) ← c.counted.reserveOobBlocks s
      orError msg ok
      f s) (n + 1) := by
  intro s k
  constructor
  · intro r hr
    cases hcall : c.reserveOobBlocks s with
    | error e => simp [ReserveCalls.counted, hcall] at hr
    | ok a =>
        obtain ⟨ok, s'⟩ := a
        cases ok with
        | false => simp [ReserveCalls.counted, hcall, orError] at hr
        | true =>
            simp only [ReserveCalls.counted, hcall, bind_ok, orError, if_true] at hr
            rw [(hf s' (k + 1)).1 r hr]
            omega
  · intro hsucceeds
    obtain ⟨s', hcall⟩ := hsucceeds.1 s
    obtain ⟨s'', hrun⟩ := (hf s' (k + 1)).2 hsucceeds
    refine ⟨s'', ?_⟩
    simp only [ReserveCalls.counted, hcall, bind_ok, orError, if_true]
    rw [hrun, Nat.add_right_comm, Nat.add_assoc]

theorem advanceBlocks (msg : String) (len : ℤ) (hf : Counts c f n) :
    Counts c (fun s => do
      let (ok, s) ← c.counted.advanceBlocks s len
      orError msg ok
      f s) n := by
  intro s k
  constructor
  · intro r hr
    cases hcall : c.advanceBlocks s len with
    | error e => simp [ReserveCalls.counted, hcall] at hr
    | ok a =>
        obtain ⟨ok, s'⟩ := a
        cases ok with
        | false => simp [ReserveCalls.counted, hcall, orError] at hr
        | true =>
            simp only [ReserveCalls.counted, hcall, bind_ok, orError, if_true] at hr
            exact (hf s' k).1 r hr
  · intro hsucceeds
    obtain ⟨s', hcall⟩ := hsucceeds.2 s len
    obtain ⟨s'', hrun⟩ := (hf s' k).2 hsucceeds
    exact ⟨s'', by simpa only [ReserveCalls.counted, hcall, bind_ok, orError, if_true] using hrun⟩

/-- The first step, of which nobody looks at the result. -/
theorem advanceBlocks_unchecked (len : ℤ) (hf : Counts c f n) :
    Counts c (fun s => do
      let (_, s) ← c.counted.advanceBlocks s len
      f s) n := by
  intro s k
  constructor
  · intro r hr
    cases hcall : c.advanceBlocks s len with
    | error e => simp [ReserveCalls.counted, hcall] at hr
    | ok a =>
        simp only [ReserveCalls.counted, hcall, bind_ok] at hr
        exact (hf a.2 k).1 r hr
  · intro hsucceeds
    obtain ⟨s', hcall⟩ := hsucceeds.2 s len
    obtain ⟨s'', hrun⟩ := (hf s' k).2 hsucceeds
    exact ⟨s'', by simpa only [ReserveCalls.counted, hcall, bind_ok] using hrun⟩

theorem reserveIndirectBlock (len : ℤ) : Counts c (c.counted.reserveIndirectBlock len) 1 :=
  (ok.advanceBlocks "failed to advance %d blocks" len).reserveOobBlocks "failed to reserve oob block"

theorem ceilDiv_of_le {per len : ℕ} (hpos : 0 < len) (hle : len ≤ per) : len ⌈/⌉ per = 1 := by
  rw [Nat.ceilDiv_eq_add_pred_div]
  exact Nat.div_eq_of_lt_le (by omega) (by omega)

theorem ceilDiv_of_ge {per len : ℕ} (hper : 0 < per) (hle : per ≤ len) :
    len ⌈/⌉ per = 1 + (len - per) ⌈/⌉ per := by
  rw [Nat.ceilDiv_eq_add_pred_div, Nat.ceilDiv_eq_add_pred_div, Nat.add_comm 1,
    ← Nat.add_div_right _ hper]
  congr 1
  omega

/-- One round of the loop for every `per` blocks. -/
theorem reserveLoop {per : ℕ} {reserve : ℤ → σ × ℕ → Except Stop (σ × ℕ)} (hper : 0 < per)
    (hreserve : ∀ len, Counts c (reserve len) 1) : ∀ (fuel len : ℕ), len ≤ fuel →
      Counts c (ReserveCalls.reserveLoop per reserve fuel len) (len ⌈/⌉ per) := by
  intro fuel
  induction fuel with
  | zero =>
      intro len hle
      obtain rfl := Nat.le_zero.mp hle
      rw [zero_ceilDiv]
      exact ok
  | succ fuel ih =>
      intro len hle
      obtain rfl | hpos := Nat.eq_zero_or_pos len
      · rw [zero_ceilDiv]
        exact ok
      · have hround : len ⌈/⌉ per = 1 + (len - min per len) ⌈/⌉ per := by
          rcases Nat.le_total per len with hlong | hshort
          · rw [Nat.min_eq_left hlong, ceilDiv_of_ge hper hlong]
          · rw [Nat.min_eq_right hshort, Nat.sub_self, zero_ceilDiv, ceilDiv_of_le hpos hshort,
              Nat.add_zero]
        have hgo : ¬ (len : ℤ) ≤ 0 := by omega
        have hrest : (len : ℤ) - min (per : ℤ) len = (len - min per len : ℕ) := by omega
        have hstep := (hreserve (min (per : ℤ) len)).bind (ih (len - min per len) (by omega))
        rw [hround]
        intro s k
        rw [ReserveCalls.reserveLoop, if_neg hgo, hrest]
        exact hstep s k

theorem reserveDindirectBlock {aux : FsAuxInfo} (hpos : 0 < aux.blocksPerInd)
    (hlt : aux.blocksPerInd < 2 ^ 31) (len : ℕ) :
    Counts c (c.counted.reserveDindirectBlock aux len) (len ⌈/⌉ aux.blocksPerInd + 1) := by
  unfold ReserveCalls.reserveDindirectBlock
  rw [s32_of_lt hlt]
  have hloop := reserveLoop (c := c) hpos reserveIndirectBlock len len le_rfl
  exact hloop.reserveOobBlocks "failed to reserve oob block"

end Counts

/-- How many pointer blocks the format needs for the first `len` blocks of a file, when `n` pointers
fit in one of them and the third level is not used. -/
def mapPointerBlocks (n len : ℕ) : ℕ :=
  if len ≤ EXT4_NDIR_BLOCKS then 0
  else if len ≤ EXT4_NDIR_BLOCKS + n then 1
  else 1 + (1 + (len - EXT4_NDIR_BLOCKS - n) ⌈/⌉ n)

/-- `reserve_all_indirect_blocks` behind the direct blocks, of which there are `len`. -/
def ReserveCalls.reservePointed (c : ReserveCalls σ) (aux : FsAuxInfo) (len : ℕ) (s : σ) :
    Except Stop σ := do
  let s ← c.reserveIndirectBlock (s32 (min aux.blocksPerInd len)) s
  if len - min aux.blocksPerInd len = 0 then .ok s
  else do
    let len := len - min aux.blocksPerInd len
    let s ← c.reserveDindirectBlock aux (s32 (min aux.blocksPerDind len)) s
    if len - min aux.blocksPerDind len = 0 then .ok s
    else do
      let len := len - min aux.blocksPerDind len
      let s ← c.reserveTindirectBlock aux (s32 (min aux.blocksPerTind len)) s
      if len - min aux.blocksPerTind len = 0 then .ok s
      else .error (.error "%d blocks remaining")

theorem reserveAllIndirectBlocks_of_lt {aux : FsAuxInfo} {L : ℕ} (hL : ¬ L ≤ EXT4_NDIR_BLOCKS) :
    c.reserveAllIndirectBlocks aux L = fun s => (do
      let (_, s) ← c.advanceBlocks s EXT4_NDIR_BLOCKS
      c.reservePointed aux (L - EXT4_NDIR_BLOCKS) s) := by
  funext s
  rw [ReserveCalls.reserveAllIndirectBlocks, if_neg hL]
  rfl

section Lengths

variable {aux : FsAuxInfo} {len L : ℕ} (hind : aux.blocksPerInd = n)
    (hdind : aux.blocksPerDind = n * n)

include hind in
theorem counts_reservePointed_one (hlen : len ≤ n) :
    Counts c (c.counted.reservePointed aux len) 1 := by
  have hdone : len - min n len = 0 := by omega
  unfold ReserveCalls.reservePointed
  rw [hind]
  simp only [if_pos hdone]
  exact (Counts.reserveIndirectBlock _).bind Counts.ok

include hind hdind in
theorem counts_reservePointed_two (hn : 0 < n) (hsquare : n * n < 2 ^ 31) (hlt : n < len)
    (hlen : len ≤ n + n * n) :
    Counts c (c.counted.reservePointed aux len) (1 + ((len - n) ⌈/⌉ n + 1)) := by
  have hn' : n < 2 ^ 31 := (Nat.le_mul_self n).trans_lt hsquare
  have hfirst : min n len = n := by omega
  have hmore : ¬ (len - n = 0) := by omega
  have hall : min (n * n) (len - n) = len - n := by omega
  have hsmall : len - n < 2 ^ 31 := by omega
  have hdindCounts := Counts.reserveDindirectBlock (c := c) (hind ▸ hn) (hind ▸ hn') (len - n)
  rw [hind] at hdindCounts
  unfold ReserveCalls.reservePointed
  simp only [hind, hdind, hfirst, if_neg hmore, hall, Nat.sub_self, if_true, s32_of_lt hsmall]
  exact (Counts.reserveIndirectBlock _).bind (hdindCounts.bind Counts.ok)

include hind hdind in
/-- The functions of `indirect.c` reserve as many blocks as the format needs. -/
theorem counts_reserveAllIndirectBlocks (hn : 0 < n) (hsquare : n * n < 2 ^ 31)
    (hL : L ≤ EXT4_NDIR_BLOCKS + n + n * n) :
    Counts c (c.counted.reserveAllIndirectBlocks aux L) (mapPointerBlocks n L) := by
  unfold mapPointerBlocks
  by_cases hdirect : L ≤ EXT4_NDIR_BLOCKS
  · rw [if_pos hdirect]
    unfold ReserveCalls.reserveAllIndirectBlocks
    simp only [if_pos hdirect]
    exact Counts.ok
  · rw [if_neg hdirect, reserveAllIndirectBlocks_of_lt hdirect]
    refine Counts.advanceBlocks_unchecked _ ?_
    by_cases hone : L ≤ EXT4_NDIR_BLOCKS + n
    · rw [if_pos hone]
      exact counts_reservePointed_one hind (by omega)
    · rw [if_neg hone, Nat.add_comm 1 (_ ⌈/⌉ n)]
      exact counts_reservePointed_two hind hdind hn hsquare (by omega) (by omega)

end Lengths

end Counting

/-! ## What is needed -/

section Needed

variable {aux : FsAuxInfo} {n L : ℕ}

/-- The numbers of blocks behind a pointer block of the second and of the third level. -/
theorem blocksPer_of_create {info : FsInfo} (h : ext4CreateFsAuxInfo info = some aux) :
    aux.blocksPerDind = u32 (info.blockSize / 4 * (info.blockSize / 4)) ∧
      aux.blocksPerTind = u32 (aux.blocksPerDind * aux.blocksPerDind) := by
  unfold ext4CreateFsAuxInfo at h
  split at h
  · cases h
  · cases h
    exact ⟨rfl, rfl⟩

/-- Both divisions of `indirect_blocks_needed` count to the end of the file, the second one behind
the blocks of the first level. -/
theorem indirectBlocksNeeded_eq (hind : aux.blocksPerInd = n) (hdind : aux.blocksPerDind = n * n)
    (hn : 0 < n) (hsquare : n * n < 2 ^ 30) (hL : L ≤ EXT4_NDIR_BLOCKS + n + n * n) :
    indirectBlocksNeeded aux L = .ok (mapPointerBlocks n L) := by
  have hn' : n ≤ n * n := Nat.le_mul_self n
  unfold EXT4_NDIR_BLOCKS at hL
  unfold indirectBlocksNeeded mapPointerBlocks EXT4_NDIR_BLOCKS
  by_cases hdirect : L ≤ 12
  · rw [if_pos hdirect, if_pos hdirect]
  · rw [if_neg hdirect, if_neg hdirect, hind, hdind]
    have hdiv : divRoundUpBy (L - 12) n = .ok ((L - 12) ⌈/⌉ n) := by
      rw [divRoundUpBy, if_neg (by omega), divRoundUp32_eq (by omega)]
    dsimp only
    rw [hdiv, bind_ok]
    by_cases hone : L ≤ 12 + n
    · rw [if_pos hone, if_pos (by omega), Counts.ceilDiv_of_le (by omega) (by omega)]
    · have hdiv' : divRoundUpBy (L - 12 - n) (n * n) = .ok 1 := by
        rw [divRoundUpBy, if_neg (by omega), divRoundUp32_eq (by omega),
          Counts.ceilDiv_of_le (by omega) (by omega)]
      have hceil : (L - 12 - n) ⌈/⌉ n ≤ L - 12 - n := by
        rw [ceilDiv_le_iff_le_mul hn]
        exact Nat.le_mul_of_pos_left _ hn
      rw [if_neg hone, if_neg (by omega), hdiv', bind_ok, if_pos (by omega),
        Counts.ceilDiv_of_ge hn (by omega), u32_of_lt (by omega)]
      congr 1
      omega

/-- **Pointer blocks.**  For a file that needs no third level, `indirect_blocks_needed` returns the
number of pointer blocks of the format, and that is how many `reserve_all_indirect_blocks` reserves:
in every run that ends well, and every run does in which no call fails. -/
theorem indirectBlocksNeeded_eq_reserved {info : FsInfo} {k : ℕ} (hk : 10 ≤ k) (hk' : k ≤ 16)
    (hsize : info.blockSize = 2 ^ k) (haux : ext4CreateFsAuxInfo info = some aux)
    (hL : L ≤ 12 + info.blockSize / 4 + info.blockSize / 4 * (info.blockSize / 4)) :
    indirectBlocksNeeded aux L = .ok (mapPointerBlocks (info.blockSize / 4) L) ∧
      ∀ {σ : Type} (c : ReserveCalls σ) (s : σ),
        (∀ r, c.counted.reserveAllIndirectBlocks aux L (s, 0) = .ok r →
          r.2 = mapPointerBlocks (info.blockSize / 4) L) ∧
        (c.Succeeds → ∃ s', c.counted.reserveAllIndirectBlocks aux L (s, 0) =
          .ok (s', mapPointerBlocks (info.blockSize / 4) L)) := by
  obtain ⟨hpos, hsquare⟩ : 0 < info.blockSize / 4 ∧
      info.blockSize / 4 * (info.blockSize / 4) < 2 ^ 30 := by
    rw [hsize]
    interval_cases k <;> decide
  have hind : aux.blocksPerInd = info.blockSize / 4 := (FsAuxInfo.of_create haux).blocksPerInd
  have hdind : aux.blocksPerDind = info.blockSize / 4 * (info.blockSize / 4) := by
    rw [(blocksPer_of_create haux).1, u32_of_lt (by omega)]
  refine ⟨indirectBlocksNeeded_eq hind hdind hpos hsquare hL, fun c s => ?_⟩
  have hcounts := counts_reserveAllIndirectBlocks (c := c) hind hdind hpos (by omega) hL s 0
  rwa [Nat.zero_add] at hcounts

end Needed

/-- Calls that all succeed. -/
def succeedingCalls : ReserveCalls Unit where
  reserveOobBlocks := fun _ => .ok (true, ())
  advanceBlocks := fun _ _ => .ok (true, ())

/-- A file of 300 blocks of 1024 bytes. -/
theorem indirectBlocksNeeded_eq_reserved_tiny : indirectBlocksNeeded tiny.aux 300 = .ok 3 ∧
    ∃ s', succeedingCalls.counted.reserveAllIndirectBlocks tiny.aux 300 ((), 0) = .ok (s', 3) := by
  have hcreate : ext4CreateFsAuxInfo tinyInfo = some tiny.aux := tiny.create
  obtain ⟨hneeded, hreserved⟩ := indirectBlocksNeeded_eq_reserved (k := 10) (L := 300) le_rfl
    (by decide) rfl hcreate (by decide)
  exact ⟨hneeded, (hreserved succeedingCalls ()).2 ⟨fun _ => ⟨(), rfl⟩, fun _ _ => ⟨(), rfl⟩⟩⟩

end SystemExtras.Ext4
