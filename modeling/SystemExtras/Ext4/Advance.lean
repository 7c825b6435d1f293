import SystemExtras.Ext4.Indirect
import SystemExtras.Ext4.ReserveOob

/-!
# Moving the cursor of a list

`advance_list_ptr` moves the cursor of a list by some blocks, and the readers count from the cursor.
The cursor is a region, `iter`, and an offset into it, `partial_iter`.  The loop follows the regions
in a variable of its own and never stores it in `iter`, as `get_next_region` does, so that after a
region has been passed the offset is one into a later region than `iter`.

What comes out of the loop is therefore an offset that is read from the region the call started at.
It is the sum of the old offset and the blocks only when the cursor stays in that region; a region
without blocks is passed at no cost, as it adds nothing to the offset.  The three cases of the loop
are: it has no blocks left to pass (`advanceLoop_done`), it ends in a region
(`advanceLoop_within`), or it goes past one (`advanceLoop_past`).
-/

namespace SystemExtras.Ext4

open RegionHeap

/-- The regions `as` follow one another up to the end of a list, and may have no blocks. -/
structure RegionChain (h : RegionHeap) (as : List ℕ) : Prop where
  threaded : Threaded h.nextOf as none
  length_le : as.length ≤ h.brk
  fits : ∀ a ∈ as, ∃ r, h.node a = some r ∧ r.block + r.len ≤ 2 ^ 32

theorem IsList.regionChain {h : RegionHeap} {as : List ℕ} (hl : IsList h as) :
    RegionChain h as where
  threaded := hl.threaded
  length_le := hl.length_le_brk
  fits a ha := by
    obtain ⟨r, hr⟩ := (hl.holds a ha).node
    exact ⟨r, hr, ((holds_iff hr).mp (hl.holds a ha)).2.2⟩

/-- Offset `x` lies in the first region that has blocks.  Where regions without blocks come before
it, the offset has to be an `int` as well. -/
def InFirst (h : RegionHeap) (x : ℕ) : List ℕ → Prop
  | [] => False
  | a :: as => x < (h.blocksAt a).length ∨
      (h.blocksAt a).length = 0 ∧ x < 2 ^ 31 ∧ InFirst h x as

theorem InFirst.mono {h : RegionHeap} {as : List ℕ} {x y : ℕ} (hx : InFirst h x as) (hle : y ≤ x) :
    InFirst h y as := by
  induction as with
  | nil => exact hx
  | cons a as ih =>
      rcases hx with hin | ⟨hempty, hint, hrest⟩
      · exact Or.inl (by omega)
      · exact Or.inr ⟨hempty, by omega, ih hrest⟩

section Loops

variable {h : RegionHeap} {as : List ℕ} {a q n fuel : ℕ} {r : Region}

theorem RegionChain.tail (hc : RegionChain h (a :: as)) : RegionChain h as where
  threaded := hc.threaded.2
  length_le := (Nat.le_succ _).trans hc.length_le
  fits b hb := hc.fits b (List.mem_cons_of_mem a hb)

theorem RegionChain.next (hc : RegionChain h (a :: as)) (hr : h.node a = some r) :
    r.next = as.head? := by
  rw [← nextOf_eq hr, hc.threaded.1, Option.or_none]

/-- Where the loop ends.  The offset is the sum of the old one and the blocks only in the first
region that has blocks. -/
theorem advanceLoop_spec (hc : RegionChain h as) (hfuel : as.length ≤ fuel) (hn : n < 2 ^ 31)
    (hlt : q + n < 2 ^ 32) (hle : q + n ≤ (blocksOn h as).length) :
    ∃ o ≤ q + n, advanceLoop h fuel as.head? q n = .ok (true, o) ∧
      (o = q + n ↔ n = 0 ∨ InFirst h (q + n) as) := by
  rcases Nat.eq_zero_or_pos n with rfl | hpos
  · exact ⟨q, le_rfl, advanceLoop_done _ le_rfl, iff_of_true rfl (Or.inl rfl)⟩
  induction as generalizing fuel q n with
  | nil =>
      rw [blocksOn_nil, List.length_nil] at hle
      omega
  | cons a as ih =>
      obtain ⟨fuel, rfl⟩ : ∃ m, fuel = m + 1 :=
        ⟨fuel - 1, by rw [List.length_cons] at hfuel; omega⟩
      obtain ⟨r, hr, -⟩ := hc.fits a List.mem_cons_self
      have hlen : (h.blocksAt a).length = r.len := by rw [blocksAt_eq hr, List.length_range']
      rw [blocksOn_cons, List.length_append, hlen] at hle
      simp only [List.head?_cons, InFirst, hlen]
      by_cases hin : q + n < r.len
      · exact ⟨q + n, le_rfl, advanceLoop_within hr hpos hlt hin,
          iff_of_true rfl (Or.inr (Or.inl hin))⟩
      rw [advanceLoop_past hr hpos hlt (not_lt.mp hin), hc.next hr]
      by_cases hint : q + n - r.len < 2 ^ 31
      · rw [s32_of_lt hint]
        rcases Nat.eq_zero_or_pos (q + n - r.len) with hzero | hleft
        · rw [hzero]
          exact ⟨0, Nat.zero_le _, advanceLoop_done _ le_rfl, iff_of_false (by omega) (by omega)⟩
        · obtain ⟨o, hbound, hrun, hiff⟩ := @ih 0 (q + n - r.len) fuel hc.tail
            (Nat.le_of_succ_le_succ hfuel) hint (by omega) (by omega) hleft
          rw [Nat.zero_add] at hbound hiff
          refine ⟨o, hbound.trans (Nat.sub_le _ _), hrun, ?_⟩
          by_cases hempty : r.len = 0
          · rw [hempty, Nat.sub_zero] at hint hiff
            have hsum : q + n ≠ 0 := by omega
            rw [hiff]
            simp only [hempty, hint, hsum, hpos.ne', Nat.not_lt_zero, false_or, true_and]
          · exact iff_of_false (by omega) (by omega)
      · have hnegative : s32 (q + n - r.len) ≤ 0 := by
          unfold s32 u32
          rw [Nat.mod_eq_of_lt (by omega), if_neg hint]
          omega
        exact ⟨0, Nat.zero_le _, advanceLoop_done _ hnegative, iff_of_false (by omega) (by omega)⟩

/-- The readers return the block at an offset, counted from the region they start at. -/
theorem getBlockLoop_head (hc : RegionChain h as) (hfuel : as.length ≤ fuel) (x : ℕ) :
    getBlockLoop h fuel as.head? x = .ok ((blocksOn h as).getD x EXT4_ALLOCATE_FAILED) := by
  induction as generalizing fuel x with
  | nil => cases fuel <;> rfl
  | cons a as ih =>
      obtain ⟨fuel, rfl⟩ : ∃ m, fuel = m + 1 :=
        ⟨fuel - 1, by rw [List.length_cons] at hfuel; omega⟩
      obtain ⟨r, hr, hfits⟩ := hc.fits a List.mem_cons_self
      rw [List.head?_cons, getBlockLoop, deref_some.mpr hr, bind_ok, blocksOn_cons, blocksAt_eq hr]
      by_cases hin : x < r.len
      · rw [if_pos hin, u32_of_lt (by omega), List.getD_append _ _ _ _ (by simpa using hin),
          List.getD_eq_getElem _ _ (by simpa using hin), List.getElem_range', one_mul]
      · rw [if_neg hin, hc.next hr, ih hc.tail (Nat.le_of_succ_le_succ hfuel),
          List.getD_append_right _ _ _ _ (by simpa using hin), List.length_range']

end Loops

/-- Moving a cursor by `n` blocks: the call returns 0, block `k` is what block `n + k` was, and the
way can be taken in two steps. -/
def Additive {α : Type} (get : α → ℕ → RegionHeap → Except Stop ℕ)
    (advance : α → ℤ → RegionHeap → Except Stop (Bool × α)) (h : RegionHeap) (c : α) (n : ℕ) :
    Prop :=
  ∃ c', advance c n h = .ok (true, c') ∧ (∀ k, get c' k h = get c (n + k) h) ∧
    ∀ a b, a + b = n → ∃ c₁, advance c a h = .ok (true, c₁) ∧ advance c₁ b h = .ok (true, c')

/-- An offset in the first region that has blocks is below the length of all. -/
theorem InFirst.lt {h : RegionHeap} {as : List ℕ} {x : ℕ} (hc : RegionChain h as)
    (hx : InFirst h x as) : x < 2 ^ 32 ∧ x < (blocksOn h as).length := by
  induction as with
  | nil => exact hx.elim
  | cons a as ih =>
      obtain ⟨r, hr, hfits⟩ := hc.fits a List.mem_cons_self
      have hlen : (h.blocksAt a).length = r.len := by rw [blocksAt_eq hr, List.length_range']
      rw [blocksOn_cons, List.length_append]
      rcases hx with hin | ⟨hempty, hint, hrest⟩
      · exact ⟨by omega, by omega⟩
      · exact ⟨by omega, by have := (ih hc.tail hrest).2; omega⟩

theorem RegionChain.lt_of_mem {h : RegionHeap} {as : List ℕ} {x : ℕ} (hc : RegionChain h as)
    (hx : x ∈ blocksOn h as) : x < 2 ^ 32 := by
  obtain ⟨a, ha, hxa⟩ := List.mem_flatMap.mp hx
  obtain ⟨r, hr, hfits⟩ := hc.fits a ha
  rw [blocksAt_eq hr, List.mem_range'_1] at hxa
  omega

/-- Blocks that are different and are not the value for a failure are less than there are words. -/
theorem RegionChain.length_lt {h : RegionHeap} {as : List ℕ} (hc : RegionChain h as)
    (hdistinct : (blocksOn h as ++ [EXT4_ALLOCATE_FAILED]).Nodup) :
    (blocksOn h as).length < 2 ^ 32 := by
  have hlt : ∀ x ∈ blocksOn h as ++ [EXT4_ALLOCATE_FAILED], x < 2 ^ 32 := by
    intro x hx
    rcases List.mem_append.mp hx with hblock | hfailed
    · exact hc.lt_of_mem hblock
    · rw [List.mem_singleton.mp hfailed]
      decide
  have hle := length_le_of_nodup hdistinct hlt
  rw [List.length_append, List.length_singleton] at hle
  omega

/-- A list of different entries is read at two places, one of which may be its end. -/
theorem eq_of_getD_eq {l : List ℕ} {d i j : ℕ} (hdistinct : (l ++ [d]).Nodup) (hi : i ≤ l.length)
    (hj : j ≤ l.length) (heq : l.getD i d = l.getD j d) : i = j := by
  have hget : ∀ k ≤ l.length, (l ++ [d])[k]? = some (l.getD k d) := by
    intro k hk
    rcases hk.lt_or_eq with hin | rfl
    · rw [List.getElem?_append_left hin, List.getD_eq_getElem _ _ hin, List.getElem?_eq_getElem hin]
    · simp
  have hlt : i < (l ++ [d]).length := by
    rw [List.length_append, List.length_singleton]
    omega
  exact (List.getElem?_inj hlt hdistinct).mp (by rw [hget i hi, hget j hj, heq])

section Cursor

variable {h : RegionHeap} {as : List ℕ} {list : RegionList} {n : ℕ} {α : Type}
  {get : α → ℕ → RegionHeap → Except Stop ℕ}
  {advance : α → ℤ → RegionHeap → Except Stop (Bool × α)} {ofList : RegionList → α}

/-- The blocks are passed as they should when the cursor stays in the first region with blocks. -/
theorem advanceListPtr_of_inFirst (hc : RegionChain h as) (hiter : list.iter = as.head?)
    (hn : n < 2 ^ 31) (hin : n = 0 ∨ InFirst h (list.partialIter + n) as) :
    advanceListPtr list n h =
      .ok (true, { list with partialIter := list.partialIter + n }) := by
  unfold advanceListPtr
  rcases hin with rfl | hin
  · rw [Nat.cast_zero, advanceLoop_done _ le_rfl]
    rfl
  · obtain ⟨hlt, hle⟩ := hin.lt hc
    obtain ⟨o, -, hrun, hiff⟩ := advanceLoop_spec hc hc.length_le hn hlt hle.le
    rw [hiter, hrun, hiff.mpr (Or.inr hin)]
    rfl

/-- The cursor of a list that is one of the fields of an `α`. -/
structure CursorOf (get : α → ℕ → RegionHeap → Except Stop ℕ)
    (advance : α → ℤ → RegionHeap → Except Stop (Bool × α)) (ofList : RegionList → α)
    (h : RegionHeap) : Prop where
  get : ∀ list k, get (ofList list) k h =
    getBlockLoop h h.brk list.iter (u32 (k + list.partialIter))
  advance : ∀ list z, advance (ofList list) z h =
    advanceListPtr list z h >>= fun r => .ok (r.1, ofList r.2)

theorem CursorOf.additive (hf : CursorOf get advance ofList h) (hc : RegionChain h as)
    (hiter : list.iter = as.head?) (hn : n < 2 ^ 31)
    (hin : n = 0 ∨ InFirst h (list.partialIter + n) as) :
    Additive get advance h (ofList list) n := by
  have hreach : ∀ a ≤ n, a = 0 ∨ InFirst h (list.partialIter + a) as :=
    fun a ha => hin.imp (fun hzero => by omega) fun hin => hin.mono (by omega)
  refine ⟨ofList { list with partialIter := list.partialIter + n }, ?_, fun k => ?_, ?_⟩
  · rw [hf.advance, advanceListPtr_of_inFirst hc hiter hn hin, bind_ok]
  · rw [hf.get, hf.get]
    have hsum : k + (list.partialIter + n) = n + k + list.partialIter := by omega
    rw [hsum]
  · rintro a b rfl
    refine ⟨ofList { list with partialIter := list.partialIter + a }, ?_, ?_⟩
    · rw [hf.advance, advanceListPtr_of_inFirst hc hiter (by omega) (hreach a (by omega)), bind_ok]
    · have hrest : b = 0 ∨ InFirst h (list.partialIter + a + b) as := by
        rcases hin with hzero | hin
        · exact Or.inl (by omega)
        · exact Or.inr (by rwa [← Nat.add_assoc] at hin)
      have hstep : advanceListPtr { list with partialIter := list.partialIter + a } b h = _ :=
        advanceListPtr_of_inFirst hc hiter (by omega) hrest
      rw [hf.advance, hstep, bind_ok]
      simp only [Nat.add_assoc]

/-- Elsewhere the cursor is left at another block. -/
theorem CursorOf.inFirst_of_additive (hf : CursorOf get advance ofList h) (hc : RegionChain h as)
    (hiter : list.iter = as.head?) (hn : n < 2 ^ 31)
    (hle : list.partialIter + n ≤ (blocksOn h as).length)
    (hdistinct : (blocksOn h as ++ [EXT4_ALLOCATE_FAILED]).Nodup)
    (hadd : Additive get advance h (ofList list) n) :
    n = 0 ∨ InFirst h (list.partialIter + n) as := by
  have hlength := hc.length_lt hdistinct
  obtain ⟨c', hrun, hget, -⟩ := hadd
  obtain ⟨o, hbound, hloop, hiff⟩ := advanceLoop_spec hc hc.length_le hn (by omega) hle
  have hadvance : advanceListPtr list n h = .ok (true, { list with partialIter := o }) := by
    rw [advanceListPtr, hiter, hloop, bind_ok]
  rw [hf.advance, hadvance, bind_ok] at hrun
  obtain rfl : ofList { list with partialIter := o } = c' := (Prod.mk.inj (Except.ok.inj hrun)).2
  have hfirst := hget 0
  rw [hf.get, hf.get] at hfirst
  dsimp only at hfirst
  rw [hiter, getBlockLoop_head hc hc.length_le, getBlockLoop_head hc hc.length_le,
    u32_of_lt (by omega), u32_of_lt (by omega)] at hfirst
  have hsame := eq_of_getD_eq hdistinct (by omega) (by omega) (Except.ok.inj hfirst)
  exact hiff.mp (by omega)

end Cursor

/-- **Where the cursor of an allocation moves as it should.**  As long as it stays in the first
region that has blocks. -/
theorem advance_additive_iff {h : RegionHeap} {list : RegionList} {as : List ℕ}
    (hc : RegionChain h as) (hiter : list.iter = as.head?) {n : ℕ} (hn : n < 2 ^ 31)
    (hle : list.partialIter + n ≤ (blocksOn h as).length) (other : RegionList) :
    ((n = 0 ∨ InFirst h (list.partialIter + n) as) →
      Additive getBlock advanceBlocks h ⟨list, other⟩ n ∧
      Additive getOobBlock advanceOobBlocks h ⟨other, list⟩ n) ∧
    ((blocksOn h as ++ [EXT4_ALLOCATE_FAILED]).Nodup →
      (Additive getBlock advanceBlocks h ⟨list, other⟩ n ↔
        n = 0 ∨ InFirst h (list.partialIter + n) as) ∧
      (Additive getOobBlock advanceOobBlocks h ⟨other, list⟩ n ↔
        n = 0 ∨ InFirst h (list.partialIter + n) as)) := by
  have hmain : CursorOf getBlock advanceBlocks (fun l => ⟨l, other⟩) h :=
    ⟨fun _ _ => rfl, fun _ _ => rfl⟩
  have hoob : CursorOf getOobBlock advanceOobBlocks (fun l => ⟨other, l⟩) h :=
    ⟨fun _ _ => rfl, fun _ _ => rfl⟩
  refine ⟨fun hin => ⟨hmain.additive hc hiter hn hin, hoob.additive hc hiter hn hin⟩,
    fun hdistinct => ⟨⟨?_, hmain.additive hc hiter hn⟩, ?_, hoob.additive hc hiter hn⟩⟩
  · exact hmain.inFirst_of_additive hc hiter hn hle hdistinct
  · exact hoob.inFirst_of_additive hc hiter hn hle hdistinct

/-! ### Two regions -/

theorem regionChain_pair : RegionChain pairHeap [0, 1] := by
  have hl : IsList pairHeap ([] ++ [0, 1]) := atCursor_pair.toHasLists.isList
  exact hl.regionChain

/-- Two blocks on, the cursor is still in the first region. -/
theorem advance_additive_iff_pair : Additive getBlock advanceBlocks pairHeap pairAllocation 2 :=
  ((advance_additive_iff regionChain_pair rfl (by decide)
    (by decide) pairAllocation.oobList).1 (Or.inr (Or.inl (by decide)))).1

/-- Three blocks on is the second region, but the cursor is back at the first block. -/
theorem not_additive_pair : RegionChain pairHeap [0, 1] ∧
    pairAllocation.list.iter = [0, 1].head? ∧
    pairAllocation.list.partialIter + 3 ≤ (blocksOn pairHeap [0, 1]).length ∧
    getBlock pairAllocation 3 pairHeap = .ok 20 ∧
    (∃ alloc', advanceBlocks pairAllocation 3 pairHeap = .ok (true, alloc') ∧
      getBlock alloc' 0 pairHeap = .ok 10) ∧
    ¬ Additive getBlock advanceBlocks pairHeap pairAllocation 3 := by
  have hbefore : getBlock pairAllocation 3 pairHeap = .ok 20 := rfl
  have hadvance : advanceBlocks pairAllocation (3 : ℕ) pairHeap =
      .ok (true, ⟨⟨some 0, some 1, some 0, 0⟩, pairAllocation.oobList⟩) := rfl
  refine ⟨regionChain_pair, rfl, by decide, hbefore, ⟨_, hadvance, rfl⟩, fun hadd => ?_⟩
  obtain ⟨alloc', hrun, hget, -⟩ := hadd
  obtain ⟨-, rfl⟩ := Prod.mk.inj (Except.ok.inj (hadvance.symm.trans hrun))
  have hfirst : (.ok 10 : Except Stop ℕ) = .ok 20 := (hget 0).trans hbefore
  exact absurd (Except.ok.inj hfirst) (by decide)

end SystemExtras.Ext4
