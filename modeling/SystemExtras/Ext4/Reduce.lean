import SystemExtras.Ext4.AllocateOutcomes

/-!
# `reduce_allocation`

`reduce_allocation` is meant to give back the last blocks of an allocation.  It
starts at `list.last`, and `allocate_blocks` points `list.last` at the first
region it got, because the regions behind it are only reachable through `next`.
An allocation of one region is truncated (`truncates_of_single`).  With more
regions the blocks that go are those at the end of the first: what is left has a
hole in it, or is nothing at all, or the loop follows the null pointer it has
just stored (`not_truncates_of_cons`).

`free_blocks` takes no block number.  It clears downwards from the cursor of the
group, so that it gives back the end of a region depends on the cursor being
there (`TakesMany.cursor_of_head`).
-/

namespace SystemExtras.Ext4

open Mem

/-! ## `free_blocks` -/

section Free

variable {g : Geometry} {i : ℕ} {bg : BlockGroupInfo}

/-- The loop clears the bits below `hi`. -/
theorem freeBlocksLoop_spec (cap left : ℕ) : ∀ (hi : ℕ) (m : Mem), left ≤ hi →
    hi ≤ 8 * cap → hi < 2 ^ 32 →
    ∃ m', freeBlocksLoop cap left (sub32 hi 1) m = .ok m' ∧ ClearsRange m m' (hi - left) hi := by
  induction left with
  | zero =>
      intro hi m _ _ _
      exact ⟨m, rfl, ClearsRange.refl m hi⟩
  | succ left ih =>
      intro hi m hleft hcap hlt
      have hsub : sub32 hi 1 = hi - 1 := sub32_of_le (by omega) hlt
      obtain ⟨m', hrun, hclears⟩ := ih (hi - 1) (m.andNotBit (hi - 1)) (by omega) (by omega)
        (by omega)
      have hfirst := ClearsRange.andNotBit m (hi - 1)
      rw [show hi - 1 + 1 = hi by omega] at hfirst
      rw [show hi - 1 - left = hi - (left + 1) by omega] at hclears
      refine ⟨m', ?_, hfirst.trans hclears (by omega) (by omega)⟩
      rw [hsub, freeBlocksLoop, if_neg (by omega)]
      exact hrun

/-- Group `bg` after the `len` blocks below its cursor have been given back. -/
def BlockGroupInfo.release (bg : BlockGroupInfo) (len : ℕ) (bitmap : Mem) : BlockGroupInfo :=
  { bg with
    bitmaps := bitmap
    freeBlocks := bg.freeBlocks + len
    firstFreeBlock := bg.firstFreeBlock - len }

theorem GroupInv.freeBlocks_eq (hg : g.Fits) (h : GroupInv g i bg) {len : ℕ}
    (hlen : len ≤ bg.firstFreeBlock) :
    ∃ bitmap, freeBlocks g.bitmapsSize bg len = .ok (bg.release len bitmap) ∧
      ClearsRange bg.bitmaps bitmap (bg.firstFreeBlock - len) bg.firstFreeBlock := by
  have hend := h.end_le
  have hbpg := hg.blocksPerGroup_le
  have hlt := g.info.blocksPerGroup_lt
  obtain ⟨bitmap, hrun, hclears⟩ := freeBlocksLoop_spec g.bitmapsSize len
    bg.firstFreeBlock bg.bitmaps hlen (by unfold Geometry.bitmapsSize; omega) (by omega)
  refine ⟨bitmap, ?_, hclears⟩
  rw [freeBlocks, hrun, bind_ok, u32_of_lt (by omega), sub32_of_le hlen (by omega)]
  rfl

end Free

/-! ## The rounds of `reduce_allocation` -/

section Rounds

variable {g : Geometry} {s : State} {alloc : BlockAllocation} {a k : ℕ} {p : Piece}
  {next : Option ℕ}

theorem reduceLoop_zero (fuel : ℕ) : reduceLoop g fuel 0 alloc s = .ok (alloc, s) := by
  cases fuel <;> simp [reduceLoop]

/-- A longer region is shortened. -/
theorem reduceAllocation_of_lt (hlast : alloc.list.last = some a)
    (hnode : s.regions.node a = some (p.region next none)) (hpos : 0 < k) (hlt : k < p.len)
    {bg : BlockGroupInfo} (hfree : freeBlocks g.bitmapsSize (s.bgs p.bg) k = .ok bg) :
    reduceAllocation g alloc k s = .ok (alloc, { s.setBg p.bg bg with
      regions := s.regions.write a (Piece.region ⟨p.block, p.len - k, p.bg⟩ next none) }) := by
  have hderef : s.regions.deref alloc.list.last = .ok (p.region next none) :=
    RegionHeap.deref_eq_ok.mpr ⟨a, hlast, hnode⟩
  have hmore : (p.region next none).len > k := hlt
  rw [reduceAllocation, reduceLoop, if_neg (by omega), hderef, bind_ok, if_pos hmore]
  simp only [Piece.region]
  rw [hfree, bind_ok, reduceLoop_zero, hlast]
  rfl

/-- A region of just that length is freed, and with it the list. -/
theorem reduceAllocation_of_eq (hlast : alloc.list.last = some a)
    (hnode : s.regions.node a = some (p.region next none)) (hpos : 0 < k) (heq : p.len = k)
    {bg : BlockGroupInfo} (hfree : freeBlocks g.bitmapsSize (s.bgs p.bg) k = .ok bg) :
    reduceAllocation g alloc k s = .ok ({ alloc with list := ⟨none, none, none, 0⟩ },
      { s.setBg p.bg bg with regions := s.regions.free a }) := by
  have hderef : s.regions.deref alloc.list.last = .ok (p.region next none) :=
    RegionHeap.deref_eq_ok.mpr ⟨a, hlast, hnode⟩
  have hall : ¬ (p.region next none).len > k := by
    show ¬ p.len > k
    omega
  rw [reduceAllocation, reduceLoop, if_neg (by omega), hderef, bind_ok, if_neg hall]
  simp only [Piece.region, heq]
  rw [hfree, bind_ok]
  simp only [Nat.sub_self, reduceLoop_zero, hlast]
  rfl

/-- A shorter region is freed, and the second round follows the null pointer. -/
theorem reduceAllocation_of_gt (hlast : alloc.list.last = some a)
    (hnode : s.regions.node a = some (p.region next none)) (hgt : p.len < k) :
    ∃ e, reduceAllocation g alloc k s = .error e := by
  have hderef : s.regions.deref alloc.list.last = .ok (p.region next none) :=
    RegionHeap.deref_eq_ok.mpr ⟨a, hlast, hnode⟩
  have hall : ¬ (p.region next none).len > k := by
    show ¬ p.len > k
    omega
  obtain ⟨fuel, rfl⟩ : ∃ fuel, k = fuel + 1 := ⟨k - 1, by omega⟩
  rw [reduceAllocation, reduceLoop, if_neg (by omega), hderef, bind_ok, if_neg hall]
  simp only [Piece.region]
  cases hfree : freeBlocks g.bitmapsSize (s.bgs p.bg) p.len with
  | error e => exact ⟨e, rfl⟩
  | ok bg =>
      refine ⟨.undefined, ?_⟩
      rw [bind_ok]
      simp only [reduceLoop]
      rw [if_neg (by omega)]
      rfl

end Rounds

/-! ## Truncation -/

/-- What cutting `k` blocks off the end of an allocation of `n` blocks amounts
to: the other blocks keep their places, and the cut ones are clear in the bitmaps
and counted as free, each in its own group, with no other bit changed. -/
structure Truncated (g : Geometry) (n k : ℕ) (alloc : BlockAllocation) (s : State)
    (alloc' : BlockAllocation) (s' : State) : Prop where
  length : (alloc'.blocks s').length = n - k
  same : ∀ i < n - k, (alloc'.blocks s')[i]? = (alloc.blocks s)[i]?
  bits : ∀ i < g.aux.groups, ∀ c, (s'.bgs i).bitmaps.bit c =
    ((s.bgs i).bitmaps.bit c && !decide (c < g.info.blocksPerGroup ∧
      g.start i + c ∈ (alloc.blocks s).drop (n - k)))
  free : ∀ i < g.aux.groups, (s'.bgs i).freeBlocks = (s.bgs i).freeBlocks +
    ((alloc.blocks s).drop (n - k)).countP fun b =>
      decide (g.start i ≤ b ∧ b < g.start i + g.info.blocksPerGroup)

/-- `reduce_allocation` returns and has truncated. -/
def Truncates (g : Geometry) (n k : ℕ) (alloc : BlockAllocation) (s : State) : Prop :=
  ∃ alloc' s', reduceAllocation g alloc k s = .ok (alloc', s') ∧ Truncated g n k alloc s alloc' s'

section Truncation

variable {g : Geometry} {s s' : State} {alloc : BlockAllocation} {n k a : ℕ} {p : Piece}
  {rest : List (ℕ × Piece)}

theorem truncates_zero (hlen : (alloc.blocks s).length = n) : Truncates g n 0 alloc s := by
  refine ⟨alloc, s, reduceLoop_zero _, hlen, fun i _ => rfl, ?_, ?_⟩
  · intro i _ c
    simp [List.drop_of_length_le hlen.le]
  · intro i _
    simp [List.drop_of_length_le hlen.le]

/-- The last blocks of a piece. -/
theorem Piece.mem_drop_blocks {b : ℕ} (hk : k ≤ p.len) :
    b ∈ p.blocks.drop (p.len - k) ↔ p.block + p.len - k ≤ b ∧ b < p.block + p.len := by
  rw [Piece.blocks, List.drop_range', List.mem_range'_1]
  omega

theorem Piece.getElem?_blocks {i : ℕ} (hi : i < p.len) : p.blocks[i]? = some (p.block + i) := by
  rw [Piece.blocks, List.getElem?_range' hi, Nat.one_mul]

/-- The blocks given back at the cursor of a group are the last ones of the piece
that was taken there, and of no other group. -/
theorem bits_release (hinv : GroupsInv g s.bgs) (hp : p.bg < g.aux.groups)
    (hcursor : g.start p.bg + (s.bgs p.bg).firstFreeBlock = p.block + p.len)
    (hlen : p.len ≤ (s.bgs p.bg).firstFreeBlock) (hk : k ≤ p.len) {bitmap : Mem}
    (hclears : ClearsRange (s.bgs p.bg).bitmaps bitmap ((s.bgs p.bg).firstFreeBlock - k)
      (s.bgs p.bg).firstFreeBlock) (i : ℕ) (c : ℕ) :
    (Function.update s.bgs p.bg ((s.bgs p.bg).release k bitmap) i).bitmaps.bit c =
      ((s.bgs i).bitmaps.bit c && !decide (c < g.info.blocksPerGroup ∧
        g.start i + c ∈ p.blocks.drop (p.len - k))) := by
  have hend := (hinv p.bg hp).end_le
  simp only [Piece.mem_drop_blocks hk]
  by_cases hi : i = p.bg
  · subst hi
    have hsame : (c < g.info.blocksPerGroup ∧ p.block + p.len - k ≤ g.start p.bg + c ∧
        g.start p.bg + c < p.block + p.len) ↔
        ((s.bgs p.bg).firstFreeBlock - k ≤ c ∧ c < (s.bgs p.bg).firstFreeBlock) := by omega
    rw [Function.update_self]
    simp only [hsame]
    exact hclears c
  · have hnone : ¬ (c < g.info.blocksPerGroup ∧ p.block + p.len - k ≤ g.start i + c ∧
        g.start i + c < p.block + p.len) := by
      rintro ⟨hc, hlo, hhi⟩
      have heq : g.start i + c = g.start p.bg + (g.start i + c - g.start p.bg) := by omega
      exact hi (Geometry.group_unique hc (by omega) heq).1
    rw [Function.update_of_ne hi, decide_eq_false hnone, Bool.not_false, Bool.and_true]

theorem free_release (hinv : GroupsInv g s.bgs) (hp : p.bg < g.aux.groups)
    (hcursor : g.start p.bg + (s.bgs p.bg).firstFreeBlock = p.block + p.len)
    (hlen : p.len ≤ (s.bgs p.bg).firstFreeBlock) (hk : k ≤ p.len) (bitmap : Mem) (i : ℕ) :
    (Function.update s.bgs p.bg ((s.bgs p.bg).release k bitmap) i).freeBlocks =
      (s.bgs i).freeBlocks + (p.blocks.drop (p.len - k)).countP fun b =>
        decide (g.start i ≤ b ∧ b < g.start i + g.info.blocksPerGroup) := by
  have hend := (hinv p.bg hp).end_le
  by_cases hi : i = p.bg
  · subst hi
    have hall : (p.blocks.drop (p.len - k)).countP (fun b =>
        decide (g.start p.bg ≤ b ∧ b < g.start p.bg + g.info.blocksPerGroup)) =
        (p.blocks.drop (p.len - k)).length := by
      rw [List.countP_eq_length]
      intro b hb
      rw [Piece.mem_drop_blocks hk] at hb
      rw [decide_eq_true_iff]
      omega
    rw [Function.update_self, hall, List.length_drop, Piece.blocks, List.length_range']
    show (s.bgs p.bg).freeBlocks + k = _
    omega
  · have hnone : (p.blocks.drop (p.len - k)).countP (fun b =>
        decide (g.start i ≤ b ∧ b < g.start i + g.info.blocksPerGroup)) = 0 := by
      rw [List.countP_eq_zero]
      intro b hb hin
      rw [Piece.mem_drop_blocks hk] at hb
      rw [decide_eq_true_iff] at hin
      have heq : g.start i + (b - g.start i) = g.start p.bg + (b - g.start p.bg) := by omega
      exact hi (Geometry.group_unique (by omega) (by omega) heq).1
    rw [Function.update_of_ne hi, hnone, Nat.add_zero]

/-- The region under `last` was taken at the cursor that `free_blocks` starts
from. -/
theorem TakesMany.head_le {bgs : Groups} {ps : List Piece}
    (h : TakesMany g n bgs (p :: ps) s.bgs) (hpos : 0 < p.len) :
    p.bg < g.aux.groups ∧ p.len ≤ (s.bgs p.bg).firstFreeBlock := by
  have hcursor := h.cursor_of_head hpos
  cases h with
  | cons _ head _ _ =>
      have hfirst := head.block_eq hpos
      exact ⟨head.bg_lt, by omega⟩

/-- The blocks of an allocation whose first region has been shortened. -/
theorem blocks_write {h : RegionHeap} (hext : Extends h s.regions none ((a, p) :: rest))
    (q : Piece) (bgs : Groups) : BlockAllocation.blocks (freshAllocation a) { s with
      bgs := bgs
      regions := s.regions.write a (q.region (headAddr rest) none) } =
      q.blocks ++ blocksOf (rest.map Prod.snd) := by
  have hfresh : ∀ m ∈ rest, m.1 ≠ a := by
    intro m hm heq
    refine (List.nodup_cons.mp hext.nodup).1 (List.mem_map.mpr ⟨m, hm, heq⟩)
  have hlink : Linked (s.regions.write a (q.region (headAddr rest) none)) none
      ((a, q) :: rest) := by
    refine ⟨RegionHeap.write_node_self _ _ _, hext.linked.2.congr ?_⟩
    intro m hm
    exact RegionHeap.write_node_of_ne _ _ (hfresh m hm)
  exact hlink.regionBlocks_eq hext.length_le

/-- An emptied allocation has no blocks. -/
theorem blocks_emptied (alloc : BlockAllocation) (s : State) :
    BlockAllocation.blocks { alloc with list := ⟨none, none, none, 0⟩ } s = [] := by
  show regionBlocks _ _ none = []
  cases s.regions.brk <;> rfl

/-- An allocation of one region is truncated. -/
theorem truncates_of_single {h : RegionHeap} {bgs : Groups} (hg : g.Fits)
    (hinv : GroupsInv g bgs) (hext : Extends h s.regions none [(a, p)])
    (hmany : TakesMany g n bgs [p] s.bgs) (hk : k ≤ n) :
    Truncates g n k (freshAllocation a) s := by
  have hlen : p.len = n := by simpa using hmany.lenOf_eq
  have hblocks : (freshAllocation a).blocks s = p.blocks :=
    (blocks_of_extends hext).trans (List.append_nil _)
  rcases Nat.eq_zero_or_pos k with rfl | hpos
  · exact truncates_zero (by rw [hblocks, Piece.blocks, List.length_range', hlen])
  have hcursor := hmany.cursor_of_head (by omega)
  have hinv' := hmany.takesAll.inv hinv
  obtain ⟨hgroup, hle⟩ := hmany.head_le (by omega)
  obtain ⟨bitmap, hfree, hclears⟩ := (hinv' p.bg hgroup).freeBlocks_eq hg
    (show k ≤ _ by omega)
  have hbits := bits_release hinv' hgroup hcursor hle (by omega) hclears
  have hfrees := free_release hinv' hgroup hcursor hle (k := k) (by omega) bitmap
  rcases Nat.lt_or_ge k p.len with hlt | hge
  · have hafter := blocks_write hext ⟨p.block, p.len - k, p.bg⟩
      (Function.update s.bgs p.bg ((s.bgs p.bg).release k bitmap))
    refine ⟨_, _, reduceAllocation_of_lt rfl hext.linked.1 hpos hlt hfree, ?_, ?_, ?_, ?_⟩
    · refine (congrArg List.length hafter).trans ?_
      simp [Piece.blocks, hlen]
    · intro i hi
      refine (congrArg (·[i]?) hafter).trans ?_
      show (Piece.blocks ⟨p.block, p.len - k, p.bg⟩ ++ [])[i]? = _
      rw [List.append_nil, hblocks, Piece.getElem?_blocks (by show i < p.len - k; omega),
        Piece.getElem?_blocks (by omega)]
    · intro i _ c
      rw [hblocks, ← hlen]
      exact hbits i c
    · intro i _
      rw [hblocks, ← hlen]
      exact hfrees i
  · have heq : p.len = k := by omega
    refine ⟨_, _, reduceAllocation_of_eq rfl hext.linked.1 hpos heq hfree, ?_, ?_, ?_, ?_⟩
    · rw [blocks_emptied, List.length_nil]
      omega
    · intro i hi
      omega
    · intro i _ c
      rw [hblocks, ← hlen]
      exact hbits i c
    · intro i _
      rw [hblocks, ← hlen]
      exact hfrees i

/-- With a second region the blocks that go are not the last ones. -/
theorem not_truncates_of_cons {h : RegionHeap} {bgs : Groups} (hg : g.Fits)
    (hinv : GroupsInv g bgs) (hext : Extends h s.regions none ((a, p) :: rest))
    (hmany : TakesMany g n bgs (p :: rest.map Prod.snd) s.bgs) (hrest : rest ≠ []) (hpos : 0 < k) :
    ¬ Truncates g n k (freshAllocation a) s := by
  rintro ⟨alloc', s', hrun, htrunc⟩
  have hlen : p.len + lenOf (rest.map Prod.snd) = n := by simpa using hmany.lenOf_eq
  have hblocks : (freshAllocation a).blocks s = p.blocks ++ blocksOf (rest.map Prod.snd) :=
    blocks_of_extends hext
  -- the request was not met when the second region was taken
  have hmore : 0 < lenOf (rest.map Prod.snd) := by
    cases hmany with
    | cons _ _ _ tail =>
        rw [tail.lenOf_eq]
        cases rest with
        | nil => exact absurd rfl hrest
        | cons q rest =>
            by_contra hzero
            rw [Nat.eq_zero_of_not_pos hzero] at tail
            exact List.cons_ne_nil _ _ tail.eq_nil.1
  rcases Nat.lt_or_ge p.len k with hlt | hge
  · obtain ⟨e, herror⟩ := reduceAllocation_of_gt (g := g) (k := k)
      (show (freshAllocation a).list.last = some a from rfl) hext.linked.1 hlt
    rw [herror] at hrun
    cases hrun
  obtain ⟨hgroup, hle⟩ := hmany.head_le (by omega)
  obtain ⟨bitmap, hfree, -⟩ := (hmany.takesAll.inv hinv p.bg hgroup).freeBlocks_eq hg
    (show k ≤ _ by omega)
  rcases Nat.eq_or_lt_of_le hge with heq | hgt
  · -- nothing is left of the allocation
    rw [reduceAllocation_of_eq rfl hext.linked.1 hpos heq.symm hfree, Except.ok.injEq,
      Prod.mk.injEq] at hrun
    obtain ⟨rfl, rfl⟩ := hrun
    have hlength := htrunc.length
    rw [blocks_emptied, List.length_nil] at hlength
    omega
  · -- the first block of the second region takes the place of one that went
    rw [reduceAllocation_of_lt rfl hext.linked.1 hpos hgt hfree, Except.ok.injEq,
      Prod.mk.injEq] at hrun
    obtain ⟨rfl, rfl⟩ := hrun
    have hafter := blocks_write hext ⟨p.block, p.len - k, p.bg⟩
      (Function.update s.bgs p.bg ((s.bgs p.bg).release k bitmap))
    have hsame := htrunc.same (p.len - k) (by omega)
    have hnew := congrArg (·[p.len - k]?) hafter
    have hplace : (blocksOf (rest.map Prod.snd))[0]? = some (p.block + (p.len - k)) := by
      calc (blocksOf (rest.map Prod.snd))[0]?
          = ((Piece.mk p.block (p.len - k) p.bg).blocks ++
              blocksOf (rest.map Prod.snd))[p.len - k]? := by
            rw [List.getElem?_append_right (by simp [Piece.blocks])]
            simp [Piece.blocks]
        _ = ((freshAllocation a).blocks s)[p.len - k]? := hnew.symm.trans hsame
        _ = some (p.block + (p.len - k)) := by
            have hlt : p.len - k < p.blocks.length := by
              rw [Piece.blocks, List.length_range']
              omega
            rw [hblocks, List.getElem?_append_left hlt, Piece.getElem?_blocks (by omega)]
    have hmem : p.block + (p.len - k) ∈ blocksOf (rest.map Prod.snd) :=
      List.mem_of_getElem? hplace
    have hnodup := hmany.takesAll.nodup hinv
    rw [blocksOf_cons, List.nodup_append] at hnodup
    exact hnodup.2.2 _ (Piece.mem_blocks.mpr ⟨by omega, by omega⟩) _ hmem rfl

/-- `reduce_allocation` right after `allocate_blocks` truncates just when it has
nothing to give back or the allocation has a single region. -/
theorem truncates_iff (hg : g.Fits) (hreach : Reachable g s)
    (hrun : allocateBlocks g n s = .ok (some alloc, s')) (hk : k ≤ n) :
    Truncates g n k alloc s' ↔
      k = 0 ∨ blockAllocationNumRegions alloc s'.regions = .ok 1 := by
  have hinv := (hreach.inv hg).1
  rcases Nat.eq_zero_or_pos n with rfl | hn
  · obtain ⟨a, block, bg, rfl, ha, hlink⟩ := allocateBlocks_zero hrun
    have hzero : k = 0 := by omega
    subst hzero
    refine iff_of_true (truncates_zero ?_) (Or.inl rfl)
    have hone : [(a, (⟨block, 0, bg⟩ : Piece))].length ≤ s'.regions.brk := by
      simp only [List.length_singleton]
      omega
    exact congrArg List.length (hlink.regionBlocks_eq hone)
  obtain ⟨-, ns, hext, ⟨a, p, rest, rfl, halloc, hmany⟩ | ⟨hnone, -⟩⟩ :=
    allocateBlocks_cases hg hinv hn hrun
  · cases halloc
    have hcount : blockAllocationNumRegions (freshAllocation a) s'.regions =
        .ok (0 + ((a, p) :: rest).length) := numRegionsLoop_eq hext.linked.listed hext.length_le
    constructor
    · intro htrunc
      by_contra hnot
      rw [not_or] at hnot
      refine not_truncates_of_cons hg hinv hext hmany ?_ (Nat.pos_of_ne_zero hnot.1) htrunc
      rintro rfl
      exact hnot.2 hcount
    · rintro (rfl | hone)
      · refine truncates_zero ?_
        rw [blocks_of_extends hext, length_blocksOf, hmany.lenOf_eq]
      · have hrest : rest = [] := by
          have heq : (.ok (0 + ((a, p) :: rest).length) : Except Stop ℕ) = .ok 1 :=
            hcount.symm.trans hone
          rw [Except.ok.injEq, List.length_cons] at heq
          exact List.length_eq_zero_iff.mp (by omega)
        subst hrest
        exact truncates_of_single hg hinv hext hmany hk
  · cases hnone

end Truncation

/-- An allocation on the fresh tiny device, with the number of its regions. -/
theorem exists_tinyAllocation (n count : ℕ)
    (h : (match allocatorRun tiny [] with
      | .ok r => decide ((allocateBlocks tiny n r.st).toOption.map (fun x => x.1.map fun alloc =>
          (blockAllocationNumRegions alloc x.2.regions).toOption) = some (some (some count)))
      | .error _ => false) = true) :
    ∃ s alloc s', Reachable tiny s ∧ allocateBlocks tiny n s = .ok (some alloc, s') ∧
      blockAllocationNumRegions alloc s'.regions = .ok count := by
  obtain ⟨r, hreach, hcall⟩ := exists_tinyRun [] (fun r =>
    (allocateBlocks tiny n r.st).toOption.map (fun x => x.1.map fun alloc =>
      (blockAllocationNumRegions alloc x.2.regions).toOption) = some (some (some count)))
    (by simp) h
  cases hrun : allocateBlocks tiny n r.st with
  | error e => simp [hrun, Except.toOption] at hcall
  | ok x =>
      obtain ⟨alloc, s'⟩ := x
      cases alloc with
      | none => simp [hrun, Except.toOption] at hcall
      | some alloc =>
          cases hcount : blockAllocationNumRegions alloc s'.regions with
          | error e => simp [hrun, hcount, Except.toOption] at hcall
          | ok m =>
              simp only [hrun, hcount, Except.toOption, Option.map_some, Option.some.injEq] at hcall
              subst hcall
              exact ⟨r.st, alloc, s', hreach, hrun, hcount⟩

/-- On the tiny device ten blocks are one region, and three of them can go. -/
theorem truncates_iff_tiny : ∃ s alloc s', Reachable tiny s ∧
    allocateBlocks tiny 10 s = .ok (some alloc, s') ∧ Truncates tiny 10 3 alloc s' := by
  obtain ⟨s, alloc, s', hreach, hrun, hone⟩ := exists_tinyAllocation 10 1 (by decide)
  exact ⟨s, alloc, s', hreach, hrun,
    (truncates_iff roomy_tiny.fits hreach hrun (by decide)).mpr (Or.inr hone)⟩

/-- Fifteen blocks are two regions, and the three that go are not the last. -/
theorem not_truncates_tiny : ∃ s alloc s', Reachable tiny s ∧
    allocateBlocks tiny 15 s = .ok (some alloc, s') ∧ ¬ Truncates tiny 15 3 alloc s' := by
  obtain ⟨s, alloc, s', hreach, hrun, htwo⟩ := exists_tinyAllocation 15 2 (by decide)
  refine ⟨s, alloc, s', hreach, hrun, fun htrunc => ?_⟩
  have hinv := (hreach.inv roomy_tiny.fits).1
  obtain ⟨-, ns, hext, ⟨a, p, rest, rfl, halloc, hmany⟩ | ⟨hnone, -⟩⟩ :=
    allocateBlocks_cases roomy_tiny.fits hinv (by decide) hrun
  · cases halloc
    refine not_truncates_of_cons roomy_tiny.fits hinv hext hmany ?_ (by decide) htrunc
    rintro rfl
    have hcount : blockAllocationNumRegions (freshAllocation a) s'.regions = .ok (0 + 1) :=
      numRegionsLoop_eq hext.linked.listed hext.length_le
    rw [show blockAllocationNumRegions (freshAllocation a) s'.regions = .ok 2 from htwo] at hcount
    cases hcount
  · cases hnone

end SystemExtras.Ext4
