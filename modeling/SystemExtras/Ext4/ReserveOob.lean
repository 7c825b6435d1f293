import SystemExtras.Ext4.RegionSplits

/-!
# Reserving blocks out of an allocation

`reserve_oob_blocks` takes the blocks behind the cursor of an allocation out of its list and puts
them at the end of a second one.  It splits the list at the cursor, splits it again behind the
blocks, and moves regions from the first split on until it meets the cursor, which the second
split has put behind the blocks.

Where the blocks end with a region there is nothing to split.  `do_split_allocation` then returns
the region behind the blocks instead of the first one, and leaves the cursor where it is: the
regions behind the blocks are moved, or the call fails at the end of the list.
`reserveOobBlocks_iff` says that this is the only case in which the call does not do its work.
-/

namespace SystemExtras.Ext4

open RegionHeap

/-! ## Reserving inside a region -/

section Reserve

variable {h h' : RegionHeap} {alloc alloc' : BlockAllocation} {as os pre passed rest : List ℕ}
  {skipped after : List ℕ} {a c k n : ℕ} {r : Region}

theorem blocksOn_of_piece (hpiece : h'.piece = h.piece) : blocksOn h' as = blocksOn h as :=
  blocksOn_congr fun a _ => congrFun (blocksAt_of_piece hpiece) a

theorem Moving.regroup (hm : Moving h alloc pre [] (skipped ++ after) os) :
    HasLists h alloc ((pre ++ skipped) ++ after) os := by
  have hall := hm.toHasLists
  rwa [List.nil_append, ← List.append_assoc] at hall

/-- The second split, inside the region `a`. -/
theorem Moving.splitRegion (hm : Moving h alloc pre [] (skipped ++ a :: after) os)
    (hr : h.node a = some r) (hk : 0 < k) (hlen : k < r.len) (offset : ℕ) :
    Moving (splitOff h a r k)
      { alloc with list := { alloc.list with iter := some h.brk, partialIter := offset } }
      pre (skipped ++ [a]) (h.brk :: after) os := by
  obtain ⟨hmain, hfirst, hoob, hoobFirst, hoobLast, hnodup, hholds⟩ :=
    hm.regroup.splitRegion hr hk hlen (some h.brk)
  have heq : pre ++ (skipped ++ [a] ++ h.brk :: after) =
      (pre ++ skipped) ++ a :: h.brk :: after := by
    simp only [List.append_assoc, List.singleton_append]
  have hhead : (skipped ++ [a] ++ h.brk :: after).head? =
      ([] ++ (skipped ++ a :: after)).head? := by
    cases skipped <;> rfl
  refine ⟨?_, fun b hb => ?_⟩
  · rw [heq]
    exact ⟨hmain, hfirst, hoob, hoobFirst, hoobLast, hnodup, hholds⟩
  · rw [hhead] at hb
    have hmem : b ∈ [] ++ (skipped ++ a :: after) := List.mem_of_head? hb
    have hbrk := (hm.holds b (List.mem_append_left _ (List.mem_append_right _ hmem))).1
    rw [splitOff_prevOf hr hbrk.ne]
    exact hm.prev b hb

/-- Where the blocks do not end with a region the call moves them, and the cursor is behind them. -/
theorem AtCursor.reserve (hc : AtCursor h alloc passed c rest os) (hn : 0 < n)
    (hle : cursor h alloc passed + n ≤ (blocksOn h (passed ++ c :: rest)).length)
    (hends : ¬ EndsRegion h (passed ++ c :: rest) (cursor h alloc passed + n)) :
    ∃ alloc' h' passed' c' rest' os', reserveOobBlocks alloc n h = .ok (true, alloc', h') ∧
      AtCursor h' alloc' passed' c' rest' os' ∧ alloc'.list.partialIter = 0 ∧
      blocksOn h' passed' = (blocksOn h (passed ++ c :: rest)).take (cursor h alloc passed) ∧
      blocksOn h' (c' :: rest') =
        (blocksOn h (passed ++ c :: rest)).drop (cursor h alloc passed + n) ∧
      blocksOn h' os' = blocksOn h os ++
        ((blocksOn h (passed ++ c :: rest)).drop (cursor h alloc passed)).take n := by
  obtain ⟨o, alloc₁, h₁, pre, tail, hsplit, hcut⟩ := hc.split
  have hends₁ : ¬ EndsRegion h₁ tail n := by rwa [hcut.ends n hn]
  have hle₁ : n ≤ (blocksOn h₁ tail).length := by
    rw [hcut.behind, List.length_drop]
    omega
  obtain ⟨skipped, a, after, k, rfl, rfl, hk, hlen⟩ := exists_inside hle₁ hends₁
  obtain ⟨hm, hiter, hbefore, hbehind, hsecond, -⟩ := hcut
  have hlists := hm.regroup
  have ha := hlists.holds a (by simp)
  obtain ⟨r, hr⟩ := ha.node
  have hcount : (blocksOn h₁ skipped ++ (h₁.blocksAt a).take k).length =
      (blocksOn h₁ skipped).length + k := length_blocksOn_cut hlen.le
  rw [blocksAt_eq hr, List.length_range'] at hlen
  have hsplit₂ := doSplitAllocation_inside hiter hm.toHasLists.isList.behind hr hk hlen
  have hm₂ := hm.splitRegion hr hk hlen 0
  obtain ⟨hbrk, -, hfits⟩ := (holds_iff hr).mp ha
  have hseg : (skipped ++ [a]).length < (splitOff h₁ a r k).brk + 1 := by
    have hle := hm₂.toHasLists.isList.behind.length_le_brk
    rw [List.length_append] at hle
    omega
  -- the cursor is at the new region, which none of those to be moved is
  have hne : ∀ b ∈ skipped ++ [a], some b ≠ some h₁.brk := by
    intro b hb heq
    have hold := (hlists.holds b (by simp at hb ⊢; tauto)).1
    exact hold.ne (Option.some.inj heq)
  obtain ⟨alloc₃, h₃, hrun, hiter₃, hoffset₃, hpiece₃, hbrk₃, hm₃⟩ :=
    hm₂.run hne (fun b hb => congrArg some (Option.some.inj hb)) hseg
  obtain ⟨hfront, hafter, hos⟩ := hlists.blocksAt_splitOff (r := r) (k := k)
  have hself := splitOff_blocksAt_self hr hlen
  have hnew := splitOff_blocksAt_brk hr hbrk hlen hfits
  have hblocks : blocksOn h₁ (skipped ++ a :: after) =
      (blocksOn h₁ skipped ++ (h₁.blocksAt a).take k) ++
        ((h₁.blocksAt a).drop k ++ blocksOn h₁ after) := blocksOn_cut
  refine ⟨alloc₃, h₃, pre, h₁.brk, after, os ++ (skipped ++ [a]), ?_,
    ⟨hm₃.toHasLists, hiter₃, ?_, fun _ => hm₃.prev _ rfl⟩, hoffset₃, ?_, ?_, ?_⟩
  · have hhead : (skipped ++ [a] ++ h₁.brk :: after).head? = (skipped ++ a :: after).head? := by
      cases skipped <;> rfl
    have hsome : ∃ b, (skipped ++ a :: after).head? = some b := by
      cases skipped <;> exact ⟨_, rfl⟩
    obtain ⟨b, hb⟩ := hsome
    rw [hhead, hb] at hrun
    unfold reserveOobBlocks splitAllocation
    rw [hsplit, bind_ok]
    simp only [hsplit₂, bind_ok, hiter, hb, hrun]
  · rw [hoffset₃]
    exact (hm₃.holds h₁.brk (by simp)).blocksAt_length_pos
  · rw [blocksOn_of_piece hpiece₃, blocksOn_congr fun b hb => hfront b (List.mem_append_left _ hb),
      hbefore]
  · rw [blocksOn_of_piece hpiece₃, blocksOn_cons, hnew, blocksOn_congr hafter, ← List.drop_drop,
      ← hbehind, hblocks, ← hcount, List.drop_left]
  · rw [blocksOn_of_piece hpiece₃, blocksOn_append, blocksOn_append, blocksOn_congr hos,
      blocksOn_congr fun b hb => hfront b (List.mem_append_right _ hb), blocksOn_cons, hself,
      blocksOn_nil, List.append_nil, hsecond, ← hbehind, hblocks, ← hcount, List.take_left]

end Reserve

/-! ## Reserving up to the end of a region -/

section Preservation

variable {h h' : RegionHeap} {alloc alloc' : BlockAllocation} {list list' : RegionList} {a : ℕ}

theorem setNext_ok {o v : Option ℕ} (hset : h.setNext o v = .ok h') :
    h'.piece = h.piece ∧ h'.brk = h.brk := by
  cases o with
  | none => exact Except.ok.inj hset ▸ ⟨rfl, rfl⟩
  | some p =>
      obtain ⟨q, hq, hset⟩ := bind_eq_ok.mp hset
      exact Except.ok.inj hset ▸ ⟨piece_write (deref_some.mp hq) _ _, rfl⟩

theorem setPrev_ok {o v : Option ℕ} (hset : h.setPrev o v = .ok h') :
    h'.piece = h.piece ∧ h'.brk = h.brk := by
  cases o with
  | none => exact Except.ok.inj hset ▸ ⟨rfl, rfl⟩
  | some p =>
      obtain ⟨q, hq, hset⟩ := bind_eq_ok.mp hset
      exact Except.ok.inj hset ▸ ⟨piece_write (deref_some.mp hq) _ _, rfl⟩

/-- Whatever the links are, `region_list_remove` leaves the cursor and the contents alone. -/
theorem regionListRemove_ok (hremove : regionListRemove list a h = .ok (list', h')) :
    list'.iter = list.iter ∧ list'.partialIter = list.partialIter ∧ h'.piece = h.piece ∧
      h'.brk = h.brk := by
  rw [regionListRemove_def] at hremove
  obtain ⟨r, -, hremove⟩ := bind_eq_ok.mp hremove
  obtain ⟨h₁, hset₁, hremove⟩ := bind_eq_ok.mp hremove
  obtain ⟨h₂, hset₂, hremove⟩ := bind_eq_ok.mp hremove
  obtain ⟨r₂, hr₂, hremove⟩ := bind_eq_ok.mp hremove
  obtain ⟨rfl, rfl⟩ := Prod.mk.inj (Except.ok.inj hremove)
  exact ⟨rfl, rfl, (piece_write (deref_some.mp hr₂) _ _).trans
    ((setPrev_ok hset₂).1.trans (setNext_ok hset₁).1),
    (setPrev_ok hset₂).2.trans (setNext_ok hset₁).2⟩

theorem regionListAppend_ok (happend : regionListAppend list a h = .ok (list', h')) :
    h'.piece = h.piece ∧ h'.brk = h.brk := by
  unfold regionListAppend at happend
  cases hfirst : list.first with
  | none =>
      simp only [hfirst] at happend
      obtain ⟨r, hr, happend⟩ := bind_eq_ok.mp happend
      obtain ⟨-, rfl⟩ := Prod.mk.inj (Except.ok.inj happend)
      exact ⟨piece_write (deref_some.mp hr) _ _, rfl⟩
  | some b =>
      simp only [hfirst] at happend
      obtain ⟨q, hq, happend⟩ := bind_eq_ok.mp happend
      obtain ⟨l, hlast, hq⟩ := deref_eq_ok.mp hq
      rw [hlast, Option.getD_some] at happend
      obtain ⟨r, hr, happend⟩ := bind_eq_ok.mp happend
      obtain ⟨-, rfl⟩ := Prod.mk.inj (Except.ok.inj happend)
      exact ⟨(piece_write (deref_some.mp hr) _ _).trans (piece_write hq _ _), rfl⟩

theorem moveOobLoop_ok {fuel : ℕ} {o : Option ℕ}
    (hrun : moveOobLoop fuel o alloc h = .ok (alloc', h')) :
    alloc'.list.iter = alloc.list.iter ∧ alloc'.list.partialIter = alloc.list.partialIter ∧
      h'.piece = h.piece ∧ h'.brk = h.brk := by
  induction fuel generalizing o alloc h with
  | zero =>
      cases o with
      | none =>
          obtain ⟨rfl, rfl⟩ := Prod.mk.inj (Except.ok.inj hrun)
          exact ⟨rfl, rfl, rfl, rfl⟩
      | some a => exact nomatch hrun
  | succ fuel ih =>
      cases o with
      | none =>
          obtain ⟨rfl, rfl⟩ := Prod.mk.inj (Except.ok.inj hrun)
          exact ⟨rfl, rfl, rfl, rfl⟩
      | some a =>
          rw [moveOobLoop] at hrun
          by_cases hiter : some a = alloc.list.iter
          · rw [if_pos hiter] at hrun
            obtain ⟨rfl, rfl⟩ := Prod.mk.inj (Except.ok.inj hrun)
            exact ⟨rfl, rfl, rfl, rfl⟩
          · rw [if_neg hiter] at hrun
            obtain ⟨r, -, hrun⟩ := bind_eq_ok.mp hrun
            obtain ⟨⟨list, h₁⟩, hremove, hrun⟩ := bind_eq_ok.mp hrun
            obtain ⟨⟨oobList, h₂⟩, happend, hrun⟩ := bind_eq_ok.mp hrun
            obtain ⟨hiter₁, hoffset₁, hpiece₁, hbrk₁⟩ := regionListRemove_ok hremove
            obtain ⟨hpiece₂, hbrk₂⟩ := regionListAppend_ok happend
            obtain ⟨hiter₃, hoffset₃, hpiece₃, hbrk₃⟩ := ih hrun
            exact ⟨hiter₃.trans hiter₁, hoffset₃.trans hoffset₁,
              hpiece₃.trans (hpiece₂.trans hpiece₁), hbrk₃.trans (hbrk₂.trans hbrk₁)⟩

end Preservation

/-! ## What the readers see -/

/-- `reserve_oob_blocks` moves the `n` blocks behind the first `p`: they are at the end of the
second list, the others are left, and the cursor is behind them. -/
def MovesNext (h : RegionHeap) (alloc : BlockAllocation) (p n : ℕ) : Prop :=
  ∃ alloc' h', reserveOobBlocks alloc n h = .ok (true, alloc', h') ∧
    regionBlocks h' h'.brk alloc'.oobList.first = regionBlocks h h.brk alloc.oobList.first ++
      ((regionBlocks h h.brk alloc.list.first).drop p).take n ∧
    regionBlocks h' h'.brk alloc'.list.first = (regionBlocks h h.brk alloc.list.first).take p ++
      (regionBlocks h h.brk alloc.list.first).drop (p + n) ∧
    (regionBlocks h' h'.brk alloc'.list.iter).drop alloc'.list.partialIter =
      (regionBlocks h h.brk alloc.list.first).drop (p + n)

section Readers

variable {h : RegionHeap} {alloc : BlockAllocation} {as os passed rest : List ℕ} {c n : ℕ}

theorem regionBlocks_head (hl : IsList h as) {fuel : ℕ} (hfuel : as.length ≤ fuel) :
    regionBlocks h fuel as.head? = blocksOn h as := by
  induction as generalizing fuel with
  | nil => cases fuel <;> rfl
  | cons a as ih =>
      obtain ⟨fuel, rfl⟩ : ∃ n, fuel = n + 1 :=
        ⟨fuel - 1, by rw [List.length_cons] at hfuel; omega⟩
      obtain ⟨r, hr⟩ := (hl.holds a List.mem_cons_self).node
      have hnext : r.next = as.head? := by rw [← nextOf_eq hr, hl.threaded.1, Option.or_none]
      have hcons : IsList h ([a] ++ as) := hl
      have hrest := ih hcons.behind (Nat.le_of_succ_le_succ hfuel)
      rw [List.head?_cons, regionBlocks, hr, blocksOn_cons, blocksAt_eq hr, ← hrest, ← hnext]

theorem HasLists.regionBlocks_first (hl : HasLists h alloc as os) :
    regionBlocks h h.brk alloc.list.first = blocksOn h as := by
  rw [hl.first]
  exact regionBlocks_head hl.isList hl.isList.length_le_brk

theorem HasLists.regionBlocks_oob (hl : HasLists h alloc as os) :
    regionBlocks h h.brk alloc.oobList.first = blocksOn h os := by
  rw [hl.oobFirst]
  exact regionBlocks_head hl.isList_oob hl.isList_oob.length_le_brk

theorem AtCursor.regionBlocks_iter (hc : AtCursor h alloc passed c rest os) :
    regionBlocks h h.brk alloc.list.iter = blocksOn h (c :: rest) := by
  have hlist : IsList h (c :: rest) := hc.toHasLists.isList.behind
  rw [hc.iter]
  exact regionBlocks_head hlist hlist.length_le_brk

theorem AtCursor.movesNext (hc : AtCursor h alloc passed c rest os) (hn : 0 < n)
    (hle : cursor h alloc passed + n ≤ (blocksOn h (passed ++ c :: rest)).length)
    (hends : ¬ EndsRegion h (passed ++ c :: rest) (cursor h alloc passed + n)) :
    MovesNext h alloc (cursor h alloc passed) n := by
  obtain ⟨alloc', h', passed', c', rest', os', hreserve, hc', hoffset, hpassed, hrest, hos⟩ :=
    hc.reserve hn hle hends
  refine ⟨alloc', h', hreserve, ?_, ?_, ?_⟩
  · rw [hc'.toHasLists.regionBlocks_oob, hc.toHasLists.regionBlocks_oob,
      hc.toHasLists.regionBlocks_first, hos]
  · rw [hc'.toHasLists.regionBlocks_first, hc.toHasLists.regionBlocks_first, blocksOn_append,
      hpassed, hrest]
  · rw [hc'.regionBlocks_iter, hoffset, List.drop_zero, hrest, hc.toHasLists.regionBlocks_first]

/-- Where the blocks end with a region the cursor stays in front of them. -/
theorem AtCursor.not_movesNext (hc : AtCursor h alloc passed c rest os) (hn : 0 < n)
    (hends : EndsRegion h (passed ++ c :: rest) (cursor h alloc passed + n))
    (hnodup : (blocksOn h (passed ++ c :: rest)).Nodup) :
    ¬ MovesNext h alloc (cursor h alloc passed) n := by
  rintro ⟨alloc', h', hreserve, -, -, hcursor⟩
  obtain ⟨o, alloc₁, h₁, pre, tail, hsplit, hcut⟩ := hc.split
  obtain ⟨hm, hiter, -, hbehind, -, hends₁⟩ := hcut
  obtain ⟨skipped, after, rfl, hskipped⟩ := (hends₁ n hn).mpr hends
  obtain ⟨a, skipped, rfl⟩ : ∃ a l, skipped = a :: l := by
    refine List.exists_cons_of_ne_nil ?_
    rintro rfl
    rw [blocksOn_nil, List.length_nil] at hskipped
    omega
  have ha : h₁.Holds a := hm.holds a (by simp)
  have hsplit₂ := doSplitAllocation_between hiter hm.toHasLists.isList.behind
  rw [hskipped] at hsplit₂
  unfold reserveOobBlocks splitAllocation at hreserve
  rw [hsplit, bind_ok] at hreserve
  simp only [hsplit₂, bind_ok] at hreserve
  cases hafter : after.head? with
  | none =>
      rw [hafter] at hreserve
      exact nomatch hreserve
  | some b =>
      rw [hafter] at hreserve
      obtain ⟨⟨alloc₂, h₂⟩, hrun, hreserve⟩ := bind_eq_ok.mp hreserve
      obtain ⟨-, heq⟩ := Prod.mk.inj (Except.ok.inj hreserve)
      obtain ⟨rfl, rfl⟩ := Prod.mk.inj heq
      obtain ⟨hiter₂, hoffset₂, hpiece₂, hbrk₂⟩ := moveOobLoop_ok hrun
      -- the first block at the cursor is one of those to be moved
      obtain ⟨x, hx⟩ := List.exists_mem_of_length_pos ha.blocksAt_length_pos
      have hread : x ∈ (regionBlocks h₂ h₂.brk alloc₂.list.iter).drop alloc₂.list.partialIter := by
        obtain ⟨r, hr⟩ := (ha.congr hpiece₂ hbrk₂).node
        obtain ⟨fuel, hfuel⟩ : ∃ m, h₂.brk = m + 1 :=
          ⟨h₂.brk - 1, by have := ha.1; omega⟩
        rw [hoffset₂, hiter₂, hiter, hfuel, List.drop_zero]
        simp only [List.cons_append, List.head?_cons, regionBlocks, hr]
        rw [← blocksAt_eq hr, blocksAt_of_piece hpiece₂]
        exact List.mem_append_left _ hx
      have hdrop : (blocksOn h (passed ++ c :: rest)).drop (cursor h alloc passed + n) =
          blocksOn h₁ after := by
        rw [← List.drop_drop, ← hbehind, blocksOn_append, ← hskipped, List.drop_left]
      rw [hcursor, hc.toHasLists.regionBlocks_first, hdrop] at hread
      have htail : (blocksOn h₁ (a :: skipped ++ after)).Nodup := by
        rw [hbehind]
        exact hnodup.sublist (List.drop_sublist _ _)
      rw [blocksOn_append, blocksOn_cons] at htail
      exact (List.nodup_append.mp htail).2.2 x (List.mem_append_left _ hx) x hread rfl

/-- `reserve_oob_blocks` moves the next blocks unless they end with a region. -/
theorem reserveOobBlocks_iff (hc : AtCursor h alloc passed c rest os) (hn : 0 < n)
    (hle : cursor h alloc passed + n ≤ (blocksOn h (passed ++ c :: rest)).length) :
    (¬ EndsRegion h (passed ++ c :: rest) (cursor h alloc passed + n) →
      MovesNext h alloc (cursor h alloc passed) n) ∧
    ((blocksOn h (passed ++ c :: rest)).Nodup → (MovesNext h alloc (cursor h alloc passed) n ↔
      ¬ EndsRegion h (passed ++ c :: rest) (cursor h alloc passed + n))) :=
  ⟨hc.movesNext hn hle, fun hnodup => ⟨fun hmoves hends => hc.not_movesNext hn hends hnodup hmoves,
    hc.movesNext hn hle⟩⟩

end Readers

/-! ### Two regions -/

/-- A region of four blocks and one of two. -/
def pairHeap : RegionHeap where
  node
    | 0 => some ⟨10, 4, 0, some 1, none⟩
    | 1 => some ⟨20, 2, 0, none, some 0⟩
    | _ => none
  brk := 2

/-- They are an allocation of which one block has been passed. -/
def pairAllocation : BlockAllocation := ⟨⟨some 0, some 1, some 0, 1⟩, ⟨none, none, none, 0⟩⟩

theorem atCursor_pair : AtCursor pairHeap pairAllocation [] 0 [1] [] where
  main := ⟨rfl, rfl, trivial⟩
  first := rfl
  oob := trivial
  oobFirst := rfl
  oobLast h := absurd rfl h
  nodup := by decide
  holds := by
    simp only [List.nil_append, List.append_nil, List.mem_cons, List.not_mem_nil, or_false]
    rintro a (rfl | rfl)
    · exact ⟨by decide, _, rfl, by decide, by decide⟩
    · exact ⟨by decide, _, rfl, by decide, by decide⟩
  iter := rfl
  inside := by decide
  prev h := absurd h (by decide)

theorem not_endsRegion_pair : ¬ EndsRegion pairHeap ([] ++ [0, 1]) 3 := by
  rw [List.nil_append, endsRegion_cons (by decide)]
  exact fun h => absurd h.1 (by decide)

theorem reserveOobBlocks_iff_pair :
    MovesNext pairHeap pairAllocation 1 2 ∧ ¬ MovesNext pairHeap pairAllocation 1 3 := by
  have hnodup : (blocksOn pairHeap ([] ++ [0, 1])).Nodup := by decide
  have htwo := reserveOobBlocks_iff atCursor_pair (n := 2) (by decide) (by decide)
  have hthree := reserveOobBlocks_iff atCursor_pair (n := 3) (by decide) (by decide)
  exact ⟨htwo.1 not_endsRegion_pair, fun h => (hthree.2 hnodup).mp h ⟨[0], [1], rfl, by decide⟩⟩

/-- The second region is moved instead of the blocks at the cursor.  Its link backwards is still to
the first block, so that is where it is taken out: the blocks at the cursor are lost to the list,
and lead into the second one. -/
theorem reserveOobBlocks_boundary : AtCursor pairHeap pairAllocation [] 0 [1] [] ∧
    cursor pairHeap pairAllocation [] + 3 ≤ (blocksOn pairHeap ([] ++ [0, 1])).length ∧
    ¬ MovesNext pairHeap pairAllocation (cursor pairHeap pairAllocation []) 3 ∧
    ∃ alloc' h', reserveOobBlocks pairAllocation 3 pairHeap = .ok (true, alloc', h') ∧
      regionBlocks h' h'.brk alloc'.oobList.first = [20, 21] ∧
      regionBlocks h' h'.brk alloc'.list.first = [10] ∧
      regionBlocks h' h'.brk alloc'.list.iter = [11, 12, 13, 20, 21] := by
  have hnodup : (blocksOn pairHeap ([] ++ [0, 1])).Nodup := by decide
  exact ⟨atCursor_pair, by decide,
    atCursor_pair.not_movesNext (by decide) ⟨[0], [1], rfl, by decide⟩ hnodup,
    _, _, rfl, by decide, by decide, by decide⟩

end SystemExtras.Ext4
