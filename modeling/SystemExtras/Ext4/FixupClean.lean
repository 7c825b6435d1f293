import SystemExtras.Ext4.FixupShadow

/-!
# The image under the overlay

Where no directory is faulty, an overlay makes an image of the device, and the plans of its
directories can be read off the device.

## Strategy

Every directory has its own plan (`DirTree.plan`), whose records lie where those of the
directory do (`SoundDir.lies`) and which the directory fits (`SoundDir.fits`).  Since no
block belongs to two directories, there is one overlay that acts on all of them as planned
(`exists_overlay`).

Under it the records of a directory tile its blocks: those in use up to the end of the last
block that holds one, and one record that is not in use in each block behind
(`Cleans.tiles_clean`).  An entry shows what it was, or a `.` of the root
(`Cleans.entry_clean`).  So the overlay is an image (`Cleans.image`).
-/

namespace SystemExtras.Ext4

open DevM

/-! ## Records one behind the other -/

namespace Tiles

variable {buf buf' : Mem} {bs size stop o r : ℕ} {rs rs' rest : List ℕ}

/-- The last record is the largest one. -/
theorem max?_cons (h : Tiles buf bs size o (r :: rest)) (hne : rest ≠ []) :
    (r :: rest).max? = rest.max? := by
  obtain ⟨rfl, hok, hrest⟩ := h
  obtain ⟨q, hq⟩ : ∃ q, rest.max? = some q := by
    rw [← Option.isSome_iff_exists, List.isSome_max?_iff]
    exact hne
  obtain ⟨hmem, hmax⟩ := List.max?_eq_some_iff.mp hq
  rw [hq, List.max?_eq_some_iff]
  refine ⟨List.mem_cons_of_mem _ hmem, fun b hb => ?_⟩
  rcases List.mem_cons.mp hb with rfl | hb
  · exact (Nat.le_add_right _ _).trans (hrest.mem q hmem).1
  · exact hmax b hb

theorem end_eq : ∀ {o : ℕ}, Tiles buf bs size o rs → ∀ q, rs.max? = some q →
    q + recLength buf q = size := by
  induction rs with
  | nil =>
      intro _ _ q hq
      cases hq
  | cons r rest ih =>
      intro o h q hq
      by_cases hne : rest = []
      · subst hne
        obtain ⟨rfl, -, hrest⟩ := h
        cases hq
        exact hrest
      · rw [h.max?_cons hne] at hq
        obtain ⟨-, -, hrest⟩ := h
        exact ih hrest q hq

/-- The same records up to another end, with another length of the last one. -/
theorem extend : ∀ {o : ℕ}, Tiles buf bs size o rs → (∀ r ∈ rs, RecordOk buf' bs r) →
    (∀ r ∈ rs, rs.max? ≠ some r → recLength buf' r = recLength buf r) →
    (∀ q, rs.max? = some q → q + recLength buf' q = stop) → (rs = [] → o = stop) →
    Tiles buf' bs stop o rs := by
  induction rs with
  | nil => exact fun _ _ _ _ h => h rfl
  | cons r rest ih =>
      intro o h hok hlen hlast _
      have hmax := h.max?_cons
      obtain ⟨rfl, -, hrest⟩ := id h
      refine ⟨rfl, hok r List.mem_cons_self, ?_⟩
      by_cases hne : rest = []
      · subst hne
        exact hlast r rfl
      · have hmax := hmax hne
        have hnot : (r :: rest).max? ≠ some r := by
          rw [hmax]
          intro hr
          have := (hrest.mem r (List.max?_eq_some_iff.mp hr).1).1
          have := h.2.1.minLength
          omega
        rw [hlen r List.mem_cons_self hnot]
        rw [hmax] at hlen hlast
        exact ih hrest (fun r' hr' => hok r' (List.mem_cons_of_mem _ hr'))
          (fun r' hr' => hlen r' (List.mem_cons_of_mem _ hr')) hlast fun h => absurd h hne

theorem append : ∀ {o : ℕ}, Tiles buf bs stop o rs → Tiles buf bs size stop rs' →
    Tiles buf bs size o (rs ++ rs') := by
  induction rs with
  | nil =>
      rintro o h h'
      obtain rfl : o = stop := h
      exact h'
  | cons r rest ih => exact fun ⟨ho, hok, hrest⟩ h' => ⟨ho, hok, ih hrest h'⟩

end Tiles

/-! ## The plan of a directory -/

/-- The plan of a directory. -/
def DirTree.plan (T : DirTree) (p : Fixup) (d : Device) (n : ℕ) : DirPlan where
  blocks := T.blocks n
  live := T.records n
  idle := (T.records n).filter fun r => T.Idle p d n r
  stop := T.stop p d n
  tail := if T.Clear p d n then none else some (T.buf p d n)

section Plan

variable {p : Fixup} {T : DirTree} {d : Device} {n r : ℕ}

theorem mem_idle : r ∈ (T.plan p d n).idle ↔ r ∈ T.records n ∧ T.Idle p d n r := by
  unfold DirTree.plan
  rw [List.mem_filter, decide_eq_true_iff]

theorem tail_eq_some {m : Mem} :
    (T.plan p d n).tail = some m ↔ ¬ T.Clear p d n ∧ T.buf p d n = m := by
  change (if T.Clear p d n then none else some (T.buf p d n)) = some m ↔ _
  by_cases h : T.Clear p d n
  · simp [h]
  · simp [h]

variable (hpos : 0 < p.info.blockSize) (hS : SoundDir p T d n)

include hpos hS

/-- The records lie where the plan says. -/
theorem SoundDir.lies : (T.plan p d n).Lies p.info.blockSize (T.buf p d n) where
  blockSize_pos := hpos
  record := by
    intro r hr
    obtain ⟨-, hok, hle⟩ := hS.tiles.mem r hr
    exact ⟨hok, hle.trans hS.stop_le⟩
  apart := fun hr hr' hne => hS.tiles.apart hr hr' hne
  idle := fun r hr => (mem_idle.mp hr).1
  live_stop := by
    intro r hr
    obtain ⟨-, hok, hle⟩ := hS.tiles.mem r hr
    exact (Nat.add_le_add_left hok.minLength r).trans hle
  stop_le := by
    change T.stop p d n ≤ _
    cases hmax : (T.records n).max? with
    | none =>
        have hnil := List.max?_eq_none_iff.mp hmax
        have htiles := hS.tiles
        rw [hnil] at htiles
        exact (Nat.le_of_eq (Eq.symm htiles)).trans (Nat.zero_le _)
    | some q =>
        have hmem := (List.max?_eq_some_iff.mp hmax).1
        have hin := (hS.tiles.mem q hmem).2.1.inBlock
        have hdiv := Nat.div_add_mod q p.info.blockSize
        have hfill : (T.plan p d n).fill p.info.blockSize =
            (q / p.info.blockSize + 1) * p.info.blockSize := DirPlan.Lies.fill_of_max hmax
        rw [← hS.tiles.end_eq q hmax, hfill, Nat.add_mul, Nat.one_mul]
        rw [Nat.mul_comm] at hdiv
        omega

omit hpos in
/-- The directory fits its plan. -/
theorem SoundDir.fits :
    (T.plan p d n).Fits p.info.blockSize (NumOk p .markInodeNums) (T.buf p d n) where
  idle := by
    intro r hr
    obtain ⟨hmem, hidle⟩ := mem_idle.mp hr
    obtain ⟨-, hok, hle⟩ := hS.tiles.mem r hmem
    have hname := hok.name
    have hin := hok.inBlock
    have hmin := hok.minLength
    refine ⟨by omega, fun r' hr' hlt => ?_, hidle⟩
    rcases hS.tiles.apart hmem hr' hlt.ne with h | h
    · omega
    · omega
  num := by
    intro r hr
    have hentry := hS.entry r (mem_idle.mp hr).1
    have hlow : recInum (T.buf p d n) r &&& 0x7fffffff = recInum (T.buf p d n) r :=
      (and_low31 _).trans (Nat.mod_eq_of_lt hentry.inum_lt)
    unfold NumOk
    rw [hlow]
    exact ⟨hentry.used, fun _ => hentry.newInum_lt⟩
  last := fun q hq => Or.inl (hS.tiles.end_eq q hq)
  stop := by
    intro htail
    have hclear : T.Clear p d n := by
      by_contra h
      rw [tail_eq_some.mpr ⟨h, rfl⟩] at htail
      cases htail
    refine hclear.imp id fun ⟨hle, hzero⟩ => ⟨hle, fun i hi => ?_⟩
    have hbyte := Mem.byte_of_load (T.buf p d n) (T.stop p d n) 4 hi
    have hzero : (T.buf p d n).load (T.stop p d n) 4 = 0 := hzero
    rw [hzero, Nat.zero_div] at hbyte
    exact hbyte
  tail := by
    intro m htail
    obtain ⟨hclear, rfl⟩ := tail_eq_some.mp htail
    exact ⟨(hS.leftover.resolve_left hclear).stop_lt, fun _ _ _ => rfl⟩

end Plan

/-! ## The overlay -/

/-- No byte belongs to two places of directories, so there is an overlay for any plan. -/
theorem exists_overlay {p : Fixup} {T : DirTree} (hpos : 0 < p.info.blockSize)
    (hnodup : (T.dirs.flatMap T.blocks).Nodup) (g : ℕ → ℕ → UInt8 → UInt8) :
    ∃ f : Overlay, (∀ x ∉ T.bytes p, ∀ y, f x y = y) ∧ ∀ n ∈ T.dirs, ∀ j < T.size p n, ∀ y,
      f ((T.blocks n).getD (j / p.info.blockSize) 0 * p.info.blockSize +
        j % p.info.blockSize) y = g n j y := by
  classical
  have hblock : ∀ n j, j < T.size p n → ∃ h : j / p.info.blockSize < (T.blocks n).length,
      (T.blocks n).getD (j / p.info.blockSize) 0 = (T.blocks n)[j / p.info.blockSize] := by
    intro n j hj
    have h := Nat.div_lt_of_lt_mul hj
    exact ⟨h, List.getD_eq_getElem _ _ h⟩
  let addr := fun n j => (T.blocks n).getD (j / p.info.blockSize) 0 * p.info.blockSize +
    j % p.info.blockSize
  have hinj : ∀ n m j k, n ∈ T.dirs → m ∈ T.dirs → j < T.size p n → k < T.size p m →
      addr n j = addr m k → n = m ∧ j = k := by
    intro n m j k hn hm hj hk heq
    have hdiv : ∀ c j, (c * p.info.blockSize + j % p.info.blockSize) / p.info.blockSize = c ∧
        (c * p.info.blockSize + j % p.info.blockSize) % p.info.blockSize =
          j % p.info.blockSize := by
      intro c j
      have hlt := Nat.mod_lt j hpos
      rw [Nat.mul_comm]
      exact ⟨by rw [Nat.mul_add_div hpos, Nat.div_eq_of_lt hlt, Nat.add_zero],
        by rw [Nat.mul_add_mod, Nat.mod_eq_of_lt hlt]⟩
    obtain ⟨hlt, hget⟩ := hblock n j hj
    obtain ⟨hlt', hget'⟩ := hblock m k hk
    have hquot := congrArg (· / p.info.blockSize) heq
    have hrem := congrArg (· % p.info.blockSize) heq
    simp only [addr, (hdiv _ _).1, (hdiv _ _).2] at hquot hrem
    rw [hget, hget'] at hquot
    obtain ⟨hnm, hjk⟩ := DirTree.block_inj hnodup hn hm hlt hlt' hquot
    refine ⟨hnm, ?_⟩
    rw [← Nat.div_add_mod j p.info.blockSize, ← Nat.div_add_mod k p.info.blockSize, hjk, hrem]
  refine ⟨fun x y => if h : ∃ c : ℕ × ℕ, c.1 ∈ T.dirs ∧ c.2 < T.size p c.1 ∧ addr c.1 c.2 = x
    then g h.choose.1 h.choose.2 y else y, fun x hx y => ?_, fun n hn j hj y => ?_⟩
  · refine dif_neg ?_
    rintro ⟨⟨n, j⟩, hn, hj, rfl⟩
    obtain ⟨hlt, hget⟩ := hblock n j hj
    refine hx ⟨n, hn, _, List.getElem_mem hlt, ?_⟩
    simp only [addr, hget]
    exact ⟨Nat.le_add_right _ _, Nat.add_lt_add_left (Nat.mod_lt _ hpos) _⟩
  · have hex : ∃ c : ℕ × ℕ, c.1 ∈ T.dirs ∧ c.2 < T.size p c.1 ∧ addr c.1 c.2 = addr n j :=
      ⟨(n, j), hn, hj, rfl⟩
    obtain ⟨h₁, h₂, h₃⟩ := hex.choose_spec
    obtain ⟨hn', hj'⟩ := hinj _ _ _ _ h₁ hn h₂ hj h₃
    have hval : (fun x y => if h : ∃ c : ℕ × ℕ, c.1 ∈ T.dirs ∧ c.2 < T.size p c.1 ∧
        addr c.1 c.2 = x then g h.choose.1 h.choose.2 y else y) (addr n j) y =
        g hex.choose.1 hex.choose.2 y := dif_pos hex
    rw [hn', hj'] at hval
    exact hval

/-! ## Reading records under the overlay -/

namespace DirPlan

variable (D : DirPlan) (bs : ℕ)

/-- The blocks behind the records in use, each of them one record. -/
def rest : List ℕ :=
  (List.range' (D.fill bs / bs) (D.blocks.length - D.fill bs / bs)).map fun k => k * bs

variable {D bs} {b b' : Mem} {q r k : ℕ}

variable (hL : D.Lies bs b) (hb : D.Shows bs b b')

include hL

namespace Lies

theorem fill_eq : D.fill bs / bs * bs = D.fill bs ∧ D.fill bs / bs ≤ D.blocks.length := by
  cases hmax : D.live.max? with
  | none =>
      unfold DirPlan.fill
      rw [hmax]
      simp
  | some q =>
      have hle := hL.block_end_le (List.max?_eq_some_iff.mp hmax).1
      rw [DirPlan.Lies.fill_of_max hmax, Nat.mul_div_cancel _ hL.blockSize_pos]
      refine ⟨rfl, ?_⟩
      unfold DirPlan.size at hle
      rw [Nat.mul_comm bs] at hle
      exact Nat.le_of_mul_le_mul_right hle hL.blockSize_pos

theorem fill_sub_le (hq : D.live.max? = some q) :
    q + recLength b q ≤ D.fill bs ∧ D.fill bs ≤ D.size bs ∧ q % bs + (D.fill bs - q) = bs := by
  have hmem := (List.max?_eq_some_iff.mp hq).1
  have hle := hL.le_fill hmem
  have hend := hL.block_end_le hmem
  have hdiv := Nat.div_add_mod q bs
  have hlt := Nat.mod_lt q hL.blockSize_pos
  rw [DirPlan.Lies.fill_of_max hq] at hle ⊢
  refine ⟨hle, hend, ?_⟩
  rw [Nat.add_mul, Nat.one_mul, Nat.mul_comm]
  omega

end Lies

namespace Shows

include hb

/-- The last record in use fills its block. -/
theorem recLength_last (hq : D.live.max? = some q) (hbs : bs < 2 ^ 16) :
    Ext4.recLength b' q = D.fill bs - q := by
  have hmin := (hL.record (List.max?_eq_some_iff.mp hq).1).1.minLength
  obtain ⟨h₁, h₂, h₃⟩ := hL.fill_sub_le hq
  have hload : Ext4.recLength b' q = (D.fill bs - q) % 256 ^ 2 := by
    apply Mem.load_eq_of_bytes
    intro i hi
    have hi : i < 2 := hi
    change b' (q + 4 + i) = _
    rw [hb _ (by omega), DirPlan.Lies.byte_last hq hi (by omega)]
  rw [hload]
  exact Nat.mod_eq_of_lt (by omega)

/-- A record in use stays one. -/
theorem recordOk (hr : r ∈ D.live) (hbs : bs < 2 ^ 16) : RecordOk b' bs r := by
  obtain ⟨⟨hmin, hname, hin⟩, -⟩ := hL.record hr
  have hoff : DirEntry.nameOffset = 8 := rfl
  have hlen : Ext4.recLength b r ≤ Ext4.recLength b' r ∧ r % bs + Ext4.recLength b' r ≤ bs := by
    by_cases hq : D.live.max? = some r
    · obtain ⟨h₁, -, h₃⟩ := hL.fill_sub_le hq
      rw [hb.recLength_last hL hq hbs]
      exact ⟨by omega, h₃.le⟩
    · rw [hb.recLength hL hr hq]
      exact ⟨le_rfl, hin⟩
  refine ⟨hmin.trans hlen.1, ?_, hlen.2⟩
  by_cases hidle : r ∈ D.idle
  · rw [(hb.idle_entry hL hidle).2.1]
    omega
  · rw [hb.nameLen hL hr hidle]
    exact hname.trans hlen.1

omit hL in
/-- A block behind the records in use. -/
theorem dead (hk : D.fill bs ≤ k * bs) (hlt : k < D.blocks.length) (hbs : 12 ≤ bs)
    (hbs' : bs < 2 ^ 16) :
    RecordOk b' bs (k * bs) ∧ Ext4.recLength b' (k * bs) = bs ∧ Ext4.recInum b' (k * bs) = 0 := by
  have hbyte : ∀ i < 8, b' (k * bs + i) = deadByte bs i (b (k * bs + i)) := by
    intro i hi
    have hsize : k * bs + i < D.size bs := by
      calc k * bs + i < k * bs + bs := by omega
        _ = bs * (k + 1) := by ring
        _ ≤ D.size bs := Nat.mul_le_mul_left _ hlt
    have hmod : (k * bs + i) % bs = i := by
      rw [Nat.mul_comm, Nat.mul_add_mod, Nat.mod_eq_of_lt (by omega)]
    rw [hb _ hsize]
    unfold DirPlan.byte
    rw [if_pos (by omega), hmod]
  have hinum : Ext4.recInum b' (k * bs) = 0 % 256 ^ 4 := by
    apply Mem.load_eq_of_bytes
    intro i hi
    have hi : i < 4 := hi
    change b' (k * bs + i) = _
    rw [hbyte i (by omega), Nat.zero_div]
    unfold deadByte
    rw [if_pos hi]
    rfl
  have hlen : Ext4.recLength b' (k * bs) = bs % 256 ^ 2 := by
    apply Mem.load_eq_of_bytes
    intro i hi
    have hi : i < 2 := hi
    change b' (k * bs + 4 + i) = _
    rw [Nat.add_assoc, hbyte (4 + i) (by omega)]
    unfold deadByte
    rw [if_neg (by omega), if_pos (by omega), Nat.add_sub_cancel_left]
  have hname : (DirEntry.nameLen.at_ (k * bs)).get b' = 0 := by
    change (b' (k * bs + 6)).toNat + 256 * 0 = 0
    rw [hbyte 6 (by decide)]
    rfl
  have hlen : Ext4.recLength b' (k * bs) = bs := hlen.trans (Nat.mod_eq_of_lt hbs')
  refine ⟨⟨?_, ?_, ?_⟩, hlen, hinum⟩
  · rwa [hlen]
  · rw [hlen, hname]
    exact le_trans (by decide) hbs
  · rw [hlen, Nat.mul_mod_left, Nat.zero_add]

omit hL in
/-- The blocks from the `k`-th on. -/
theorem tiles_blocks (hbs : 12 ≤ bs) (hbs' : bs < 2 ^ 16) (len : ℕ) : ∀ k, D.fill bs ≤ k * bs →
    k + len = D.blocks.length →
    Tiles b' bs (D.size bs) (k * bs) ((List.range' k len).map fun k => k * bs) := by
  induction len with
  | zero =>
      intro k _ hk
      change k * bs = bs * D.blocks.length
      rw [← hk, Nat.add_zero, Nat.mul_comm]
  | succ len ih =>
      intro k hfill hk
      obtain ⟨hok, hlen, -⟩ := hb.dead hfill (by omega) hbs hbs'
      rw [List.range'_succ, List.map_cons]
      refine ⟨rfl, hok, ?_⟩
      rw [hlen, show k * bs + bs = (k + 1) * bs by ring]
      exact ih (k + 1) (hfill.trans (Nat.mul_le_mul_right _ (Nat.le_succ k))) (by omega)

/-- The records in use and the blocks behind them tile the directory. -/
theorem tiles {stop : ℕ} (h : Tiles b bs stop 0 D.live) (hbs : 12 ≤ bs) (hbs' : bs < 2 ^ 16) :
    Tiles b' bs (D.size bs) 0 (D.live ++ D.rest bs) := by
  obtain ⟨hfill, hle⟩ := hL.fill_eq
  have hrest := hb.tiles_blocks hbs hbs' (D.blocks.length - D.fill bs / bs) (D.fill bs / bs)
    hfill.ge (by omega)
  rw [hfill] at hrest
  refine Tiles.append (h.extend (fun r hr => hb.recordOk hL hr hbs')
    (fun r hr hq => hb.recLength hL hr hq) (fun q hq => ?_) fun hnil => ?_) hrest
  · obtain ⟨h₁, -⟩ := hL.fill_sub_le hq
    rw [hb.recLength_last hL hq hbs']
    omega
  · unfold DirPlan.fill
    rw [hnil]
    rfl

/-- Only the records in front are in use. -/
theorem recInum_rest (hr : r ∈ D.rest bs) (hbs : 12 ≤ bs) (hbs' : bs < 2 ^ 16) :
    Ext4.recInum b' r = 0 := by
  obtain ⟨k, hk, rfl⟩ := List.mem_map.mp hr
  obtain ⟨h₁, h₂⟩ := List.mem_range'_1.mp hk
  obtain ⟨hfill, hle⟩ := hL.fill_eq
  have hfill' := Nat.mul_le_mul_right bs h₁
  exact (hb.dead (by omega) (by omega) hbs hbs').2.2

end Shows

end DirPlan

/-! ## The image -/

/-- The tree with the blocks behind the records in use. -/
def DirTree.clean (T : DirTree) (p : Fixup) (d : Device) : DirTree :=
  { T with records := fun n => T.records n ++ (T.plan p d n).rest p.info.blockSize }

/-- The overlay acts on the sound directories of a tree as planned. -/
structure Cleans (f : Overlay) (p : Fixup) (T : DirTree) (d : Device) : Prop where
  sound : ∀ n ∈ T.dirs, SoundDir p T d n
  rest : ∀ x ∉ T.bytes p, ∀ y, f x y = y
  byte : ∀ n ∈ T.dirs, ∀ j < T.size p n, ∀ y, f ((T.plan p d n).addr p.info.blockSize j) y =
    (T.plan p d n).byte p.info.blockSize j y

/-- A block holds a directory record, and its size fits the length of one. -/
theorem Migratable.blockSize_bounds {p : Fixup} {T : DirTree} {d : Device} (hT : Searchable p T d)
    (hM : Migratable p T d) : 12 ≤ p.info.blockSize ∧ p.info.blockSize < 2 ^ 16 :=
  ⟨le_trans (by decide) (readExt_eq_ok.mp hT.readExt).blockSize_ge,
    hM.blockSize_le.trans_lt (by decide)⟩

section Image

variable {f : Overlay} {p : Fixup} {T : DirTree} {d : Device} {n r v x : ℕ}

variable (hT : Searchable p T d) (hM : Migratable p T d) (hC : Cleans f p T d)

include hC

theorem Cleans.shows (hn : n ∈ T.dirs) : (T.plan p d n).Shows p.info.blockSize
    (T.buf p d n) (T.buf p (d.overlay f) n) := DirPlan.shows_of_byte rfl (hC.byte n hn)

theorem Cleans.bytes_eq (hx : x ∉ T.bytes p) : (d.overlay f).bytes x = d.bytes x := hC.rest x hx _

include hM

theorem Cleans.search_eq (hx : x ∈ T.searchBytes p d) : (d.overlay f).bytes x = d.bytes x :=
  hC.bytes_eq fun hmem => Set.disjoint_left.mp hM.dirs_search hmem hx

theorem Cleans.copies_eq (hx : x ∈ copyBytes p) : (d.overlay f).bytes x = d.bytes x :=
  hC.bytes_eq fun hmem => Set.disjoint_left.mp hM.dirs_copies hmem hx

/-- The tool finds the same inodes under the overlay. -/
theorem Cleans.readInode {inode : Mem} (hv : T.Consults p d v)
    (hread : Ext4.readInode p v d = .ok inode) : ∃ inode',
      Ext4.readInode p v (d.overlay f) = .ok inode' ∧
        inode'.SameOn inode 0 DirTree.inodeBytes := by
  have hsame : (d.overlay f).bytes.SameOn d.bytes (inodeOffset p v)
      (inodeOffset p v + DirTree.inodeBytes) :=
    fun _ h₁ h₂ => hC.search_eq hM (Or.inl ⟨v, hv, h₁, h₂⟩)
  have hsize : (d.overlay f).size = d.size := rfl
  exact readInode_congr hsize hsame hread

theorem Cleans.sbOf_eq : sbOf (d.overlay f) = sbOf d :=
  Device.slice_congr fun _ h₁ h₂ =>
    hC.copies_eq hM ((hasCopy_zero hM.groups_pos).primarySb_subset ⟨h₁, h₂⟩)

include hT

theorem Cleans.readExt : Ext4.readExt (d.overlay f) = .ok p := by
  have hparams := readExt_eq_ok.mp hT.readExt
  refine readExt_eq_ok.mpr (hparams.congr rfl ?_ fun x h₁ h₂ => hC.copies_eq hM ?_)
  · rw [hC.sbOf_eq hM]
    exact SbLike.refl _
  · refine ⟨0, hasCopy_zero hM.groups_pos, Or.inr ?_⟩
    rw [hparams.descOffset_zero]
    exact ⟨h₁, h₂⟩

omit hM in
/-- What the overlay shows of an idle record. -/
theorem Cleans.idle_clean (hn : n ∈ T.dirs) (hr : r ∈ T.records n) (hidle : T.Idle p d n r) :
    recInum (T.buf p (d.overlay f) n) r = EXT4_ROOT_INO ∧
      recFileType (T.buf p (d.overlay f) n) r = EXT4_FT_DIR ∧
      recName (T.buf p (d.overlay f) n) r = [46] := by
  have hS := hC.sound n hn
  have hL := hS.lies hT.blockSize_pos
  have hmem : r ∈ (T.plan p d n).idle := mem_idle.mpr ⟨hr, hidle⟩
  obtain ⟨htype, -, hname⟩ := (hC.shows hn).idle_entry hL hmem
  refine ⟨?_, htype, hname⟩
  rw [(hC.shows hn).recInum_idle hL hmem]
  exact rootNum_of_not_marked (not_marked_of_lt (hS.entry r hr).inum_lt)

omit hM in
/-- Any other record is what it was. -/
theorem Cleans.plain_clean (hn : n ∈ T.dirs) (hr : r ∈ T.records n) (hidle : ¬ T.Idle p d n r) :
    recInum (T.buf p (d.overlay f) n) r = recInum (T.buf p d n) r ∧
      recFileType (T.buf p (d.overlay f) n) r = recFileType (T.buf p d n) r ∧
      recName (T.buf p (d.overlay f) n) r = recName (T.buf p d n) r := by
  have hS := hC.sound n hn
  have hL := hS.lies hT.blockSize_pos
  have hplain : r ∉ (T.plan p d n).idle := fun h => hidle (mem_idle.mp h).2
  have hb := hC.shows hn
  refine ⟨hb.recInum hL hr hplain, hb.recFileType hL hr hplain, hb.recName hL hr hplain ?_⟩
  rw [hb.nameLen hL hr hplain]
  exact (hS.tiles.mem r hr).2.1.name

theorem Cleans.tiles_clean (hn : n ∈ T.dirs) : Tiles (T.buf p (d.overlay f) n) p.info.blockSize
    (T.size p n) 0 ((T.clean p d).records n) := by
  obtain ⟨h₁, h₂⟩ := hM.blockSize_bounds hT
  have hS := hC.sound n hn
  exact (hC.shows hn).tiles (hS.lies hT.blockSize_pos) hS.tiles h₁ h₂

omit hM in
theorem Cleans.front_ne_zero (hn : n ∈ T.dirs) (hr : r ∈ T.records n) :
    recInum (T.buf p (d.overlay f) n) r ≠ 0 := by
  by_cases hidle : T.Idle p d n r
  · rw [(hC.idle_clean hT hn hr hidle).1]
    decide
  · rw [(hC.plain_clean hT hn hr hidle).1]
    exact ((hC.sound n hn).entry r hr).used

theorem Cleans.behind_eq_zero (hn : n ∈ T.dirs)
    (hr : r ∈ (T.plan p d n).rest p.info.blockSize) :
    recInum (T.buf p (d.overlay f) n) r = 0 := by
  obtain ⟨h₁, h₂⟩ := hM.blockSize_bounds hT
  have hL := (hC.sound n hn).lies hT.blockSize_pos
  exact (hC.shows hn).recInum_rest hL hr h₁ h₂

/-- The records in use are the same. -/
theorem Cleans.live_clean (hn : n ∈ T.dirs) :
    (T.clean p d).live p (d.overlay f) n = T.records n := by
  have hfront : ∀ r ∈ T.records n, recInum (T.buf p (d.overlay f) n) r ≠ 0 :=
    fun _ hr => hC.front_ne_zero hT hn hr
  have hbehind : ∀ r ∈ (T.plan p d n).rest p.info.blockSize,
      recInum (T.buf p (d.overlay f) n) r = 0 := fun _ hr => hC.behind_eq_zero hT hM hn hr
  change List.filter (fun r => decide (recInum (T.buf p (d.overlay f) n) r ≠ 0))
    (T.records n ++ _) = _
  rw [List.filter_append, List.filter_eq_self.mpr fun r hr => decide_eq_true (hfront r hr),
    List.filter_eq_nil_iff.mpr fun r hr h => absurd (hbehind r hr) (of_decide_eq_true h),
    List.append_nil]

/-- The inode of a directory. -/
theorem Cleans.inode_clean (hn : n ∈ T.dirs) : ∃ inode,
    Ext4.readInode p n (d.overlay f) = .ok inode ∧
      DirInode p (T.blocks n) inode (d.overlay f) := by
  obtain ⟨inode, hread, hdir⟩ := (hC.sound n hn).inode
  obtain ⟨inode', hread', hsame⟩ := hC.readInode hM (Or.inl hn) hread
  exact ⟨inode', hread', hdir.congr hsame rfl hT.size_lt fun b hb x h₁ h₂ =>
    hC.search_eq hM (Or.inr ⟨n, hn, inode, hread, b, hb, h₁, h₂⟩)⟩

theorem Cleans.entry_clean (hn : n ∈ T.dirs) (hr : r ∈ T.records n) :
    EntryOk p (T.clean p d) n (recInum (T.buf p (d.overlay f) n) r)
      (recFileType (T.buf p (d.overlay f) n) r) (recName (T.buf p (d.overlay f) n) r)
      (d.overlay f) := by
  have hentry := (hC.sound n hn).entry r hr
  by_cases hidle : T.Idle p d n r
  · -- a `.` that leads to the root
    obtain ⟨hinum, htype, hname⟩ := hC.idle_clean hT hn hr hidle
    obtain ⟨inode, hread, hdir⟩ := hC.inode_clean hT hM hT.root_mem
    rw [hinum, htype, hname]
    refine ⟨by decide, ?_, inode, hread, Or.inr (iff_of_true rfl hdir.isDir), fun _ =>
      ⟨hT.root_mem, fun h => absurd rfl h⟩⟩
    rw [hM.steady.root]
    decide
  · obtain ⟨hinum, htype, hname⟩ := hC.plain_clean hT hn hr hidle
    rw [hinum, htype, hname]
    refine ⟨hentry.inum_lt, hentry.newInum_lt, ?_⟩
    rcases hentry.leads hidle with ⟨hunknown, inode, hread, hfile⟩ | ⟨hmem, -, hdepth⟩
    · obtain ⟨inode', hread', hsame⟩ :=
        hC.readInode hM (Or.inr (Or.inl ⟨n, hn, r, hr, hidle, rfl⟩)) hread
      refine ⟨inode', hread', Or.inl hunknown, fun hdir => ?_⟩
      rw [isDirInode_congr hsame, hfile] at hdir
      cases hdir
    · obtain ⟨inode, hread, hdir⟩ := hC.inode_clean hT hM hmem
      refine ⟨inode, hread, ?_, fun _ => ⟨hmem, hdepth⟩⟩
      by_cases hunknown : recFileType (T.buf p d n) r = EXT4_FT_UNKNOWN
      · exact Or.inl hunknown
      · refine Or.inr (iff_of_true ?_ hdir.isDir)
        by_contra hne
        exact hidle ⟨hunknown, fun h => absurd h hne⟩

/-- The tree is reached in the same way. -/
theorem Cleans.reachable_clean (hn : n ∈ T.dirs) :
    Relation.ReflTransGen ((T.clean p d).IsSub p (d.overlay f)) EXT4_ROOT_INO n := by
  have hboth : ∀ m, Relation.ReflTransGen (T.Searches p d) EXT4_ROOT_INO m → m ∈ T.dirs ∧
      Relation.ReflTransGen ((T.clean p d).IsSub p (d.overlay f)) EXT4_ROOT_INO m := by
    intro m hm
    induction hm with
    | refl => exact ⟨hT.root_mem, .refl⟩
    | @tail a b _ hstep ih =>
        obtain ⟨r, hr, hidle, hinum, hmem, hdot, hdotdot, -⟩ := hstep
        obtain ⟨hinum', -, hname⟩ := hC.plain_clean hT ih.1 hr hidle
        have hlive : r ∈ (T.clean p d).live p (d.overlay f) a :=
          (hC.live_clean hT hM ih.1).symm ▸ hr
        refine ⟨hmem, ih.2.tail ⟨r, ⟨hlive, ?_, ?_, ?_⟩, hinum'.trans hinum⟩⟩
        · exact (hinum'.trans hinum).symm ▸ hmem
        · exact hname.symm ▸ hdot
        · exact hname.symm ▸ hdotdot
  exact (hboth n (hT.reachable n hn)).2

theorem Cleans.nav_clean :
    (T.clean p d).navBytes p (d.overlay f) ⊆ T.searchBytes p d := by
  rintro x (⟨v, hv, hx⟩ | ⟨n, hn, inode, hread, b, hb, hx⟩)
  · refine Or.inl ⟨v, ?_, hx⟩
    rcases hv with hv | ⟨n, hn, r, hr, rfl⟩
    · exact Or.inl hv
    · have hn : n ∈ T.dirs := hn
      rw [hC.live_clean hT hM hn] at hr
      by_cases hidle : T.Idle p d n r
      · exact Or.inl ((hC.idle_clean hT hn hr hidle).1.symm ▸ hT.root_mem)
      · exact Or.inr (Or.inl ⟨n, hn, r, hr, hidle, (hC.plain_clean hT hn hr hidle).1⟩)
  · have hn : n ∈ T.dirs := hn
    obtain ⟨inode₀, hread₀, -⟩ := (hC.sound n hn).inode
    obtain ⟨inode', hread', hsame⟩ := hC.readInode hM (Or.inl hn) hread₀
    rw [hread] at hread'
    cases hread'
    rw [mapBlocks_congr hsame] at hb
    exact Or.inr ⟨n, hn, inode₀, hread₀, b, hb, hx⟩

/-- **The overlay is an image.** -/
theorem Cleans.image : FixupImage p (T.clean p d) (d.overlay f) where
  readExt := hC.readExt hT hM
  size_lt := hT.size_lt
  groups_pos := hM.groups_pos
  blockSize_le := hM.blockSize_le
  root_mem := hT.root_mem
  reachable _ hn := hC.reachable_clean hT hM hn
  inode _ hn := hC.inode_clean (T := T) hT hM hn
  blocks_nodup := hM.blocks_nodup
  blocks_le n hn := (hC.sound n hn).blocks_le
  tiles _ hn := hC.tiles_clean hT hM hn
  live_first := by
    intro n hn
    have hn : n ∈ T.dirs := hn
    have hfront : ∀ r ∈ T.records n, recInum (T.buf p (d.overlay f) n) r ≠ 0 :=
      fun _ hr => hC.front_ne_zero hT hn hr
    have hbehind : ∀ r ∈ (T.plan p d n).rest p.info.blockSize,
        recInum (T.buf p (d.overlay f) n) r = 0 := fun _ hr => hC.behind_eq_zero hT hM hn hr
    refine List.pairwise_append.mpr ⟨?_, ?_, fun _ _ r' hr' _ => hbehind r' hr'⟩
    · exact List.pairwise_of_forall_mem_list fun r hr _ _ h => absurd h (hfront r hr)
    · exact List.pairwise_of_forall_mem_list fun _ _ r' hr' _ => hbehind r' hr'
  entry := by
    intro n hn r hr
    have hn : n ∈ T.dirs := hn
    rw [hC.live_clean hT hM hn] at hr
    exact hC.entry_clean hT hM hn hr
  copies := hM.copies
  copies_le := hM.copies_le
  dirs_state := hM.dirs_state
  dirs_copies := hM.dirs_copies
  dirs_bitmaps := hM.dirs_bitmaps
  dirs_nav := hM.dirs_search.mono_right (hC.nav_clean hT hM)
  nav_state := hM.search_state.mono_left (hC.nav_clean hT hM)
  nav_copies := hM.search_copies.mono_left (hC.nav_clean hT hM)
  nav_bitmaps := hM.search_bitmaps.mono_left (hC.nav_clean hT hM)

/-- The overlay acts as planned on the image. -/
theorem Cleans.draws : Draws f (T.plan p d) p (T.clean p d) (d.overlay f) where
  rest := hC.rest
  ofImage n hn := by
    have hn : n ∈ T.dirs := hn
    have hL := (hC.sound n hn).lies hT.blockSize_pos
    exact ⟨rfl, (hC.live_clean hT hM hn).symm, hL.idle, hL.live_stop, hL.stop_le⟩
  byte := hC.byte

omit hT hM in
theorem Cleans.bare : Bare (T.plan p d) p (T.clean p d) (NumOk p .markInodeNums) d :=
  fun n hn => (hC.sound n hn).fits

omit hT in
/-- What the trial run looks at is the same. -/
theorem Cleans.trialOk (h : TrialOk p d) : TrialOk p (d.overlay f) := by
  refine ⟨h.bitmaps, ?_, h.aligned, h.seekable⟩
  rw [hC.sbOf_eq hM]
  exact h.count

omit hC in
/-- There is an overlay for sound directories. -/
theorem exists_cleans (hsound : ∀ n ∈ T.dirs, SoundDir p T d n) : ∃ f, Cleans f p T d := by
  obtain ⟨f, hrest, hbyte⟩ := exists_overlay hT.blockSize_pos hM.blocks_nodup
    fun n j y => (T.plan p d n).byte p.info.blockSize j y
  exact ⟨f, hsound, hrest, hbyte⟩

end Image

end SystemExtras.Ext4
