import SystemExtras.Ext4.Reduce
import SystemExtras.Ext4.ReserveOob

/-!
# The regions that a request is met with

Before the call it is settled which regions `allocate_blocks` will return.  A request that some
group can take is one region.  Any other fills the untouched groups in order, and what is left goes
with the next of them: `Spreads` says so of the list of their free blocks.  It fails when the
list is too short, and does not return when there is an empty group among those to be filled
(`not_allocated`).

The first region may be a single block.  A cut by `reduce_allocation` then leaves no region at
all, and `reserve_oob_blocks`, which finds that the block ends with its region, sets all the others
aside instead (`reserveOobBlocks_of_one`).
-/

namespace SystemExtras.Ext4

open RegionHeap

/-! ## The free blocks of untouched groups -/

/-- The free blocks of the untouched ones of the given groups, in their order. -/
def View.frees (v : View) (is : List ℕ) : List ℕ :=
  (is.filter fun i => (v i).untouched).map fun i => (v i).free

/-- The free blocks of the groups of which no data block is used, in their order. -/
def untouchedFree (g : Geometry) (s : State) : List ℕ :=
  ((List.range g.aux.groups).filter fun i => (s.bgs i).dataBlocksUsed = 0).map
    fun i => (s.bgs i).freeBlocks

/-- A request for `n` blocks uses up the first `m` groups with the free blocks `free`, none of which
is empty, and the next can take what is left. -/
structure Spreads (free : List ℕ) (n m : ℕ) : Prop where
  lt : m < free.length
  more : (free.take m).sum < n
  enough : n ≤ (free.take (m + 1)).sum
  pos : ∀ f ∈ free.take m, 0 < f

/-- The lengths of the regions. -/
def spreadLens (free : List ℕ) (n m : ℕ) : List ℕ := free.take m ++ [n - (free.take m).sum]

section Frees

variable {v : View} {is : List ℕ} {i n m : ℕ}

theorem View.frees_cons_untouched (h : (v i).untouched = true) :
    v.frees (i :: is) = (v i).free :: v.frees is := by
  simp only [frees, List.filter_cons, h, if_true, List.map_cons]

theorem View.frees_cons_touched (h : ¬ (v i).untouched = true) :
    v.frees (i :: is) = v.frees is := by
  simp only [frees, List.filter_cons, h, if_false, Bool.false_eq_true]

/-- Taking from another group changes nothing. -/
theorem View.frees_taken (hi : i ∉ is) : (v.taken i n).frees is = v.frees is := by
  have hsame : ∀ j ∈ is, v.taken i n j = v j := by
    intro j hj
    refine taken_of_ne ?_
    rintro rfl
    exact hi hj
  unfold frees
  rw [List.filter_congr fun j hj => by rw [hsame j hj]]
  exact List.map_congr_left fun j hj => by rw [hsame j (List.mem_of_mem_filter hj)]

theorem View.sum_frees : (v.frees is).sum = v.emptyRoom is := by
  induction is with
  | nil => rfl
  | cons i is ih =>
      by_cases h : (v i).untouched = true
      · rw [frees_cons_untouched h, emptyRoom_cons_untouched h, List.sum_cons, ih]
      · rw [frees_cons_touched h, emptyRoom_cons_touched h, ih]

/-- Filling takes all of the groups in front of the one where the request ends. -/
theorem View.fillEmpty_take (hnodup : is.Nodup) (hm : m < (v.frees is).length)
    (hmore : ((v.frees is).take m).sum < n) (henough : n ≤ ((v.frees is).take (m + 1)).sum) :
    (fillEmpty is v n).1.map Piece.len = (v.frees is).take m ∧
      (fillEmpty is v n).2.2 = n - ((v.frees is).take m).sum := by
  induction is generalizing v n m with
  | nil => cases hm
  | cons i is ih =>
      obtain ⟨hi, hnodup⟩ := List.nodup_cons.mp hnodup
      unfold fillEmpty
      by_cases huntouched : (v i).untouched = true
      · rw [frees_cons_untouched huntouched] at hm hmore henough ⊢
        rw [if_pos huntouched]
        cases m with
        | zero =>
            rw [if_pos (by simpa using henough)]
            exact ⟨rfl, rfl⟩
        | succ m =>
            rw [List.take_succ_cons, List.sum_cons] at hmore henough
            rw [if_neg (by omega), List.take_succ_cons]
            rw [← frees_taken (n := (v i).free) hi] at hm hmore henough ⊢
            obtain ⟨hlens, hrest⟩ := ih hnodup (Nat.lt_of_succ_lt_succ hm)
              (show _ < n - (v i).free by omega) (by omega)
            refine ⟨?_, ?_⟩
            · rw [List.map_cons, hlens]
            · rw [hrest, List.sum_cons]
              omega
      · rw [frees_cons_touched huntouched] at hm hmore henough ⊢
        rw [if_neg huntouched]
        exact ih hnodup hm hmore henough

/-- Where there is enough, the request ends at one of the groups. -/
theorem exists_take_sum {free : List ℕ} (hpos : 0 < n) (hle : n ≤ free.sum) :
    ∃ m < free.length, (free.take m).sum < n ∧ n ≤ (free.take (m + 1)).sum := by
  induction free generalizing n with
  | nil =>
      rw [List.sum_nil] at hle
      omega
  | cons f free ih =>
      rw [List.sum_cons] at hle
      by_cases hfits : n ≤ f
      · exact ⟨0, Nat.succ_pos _, by simpa using hpos, by simpa using hfits⟩
      · obtain ⟨m, hm, hmore, henough⟩ := ih (n := n - f) (by omega) (by omega)
        refine ⟨m + 1, Nat.succ_lt_succ hm, ?_, ?_⟩ <;>
          rw [List.take_succ_cons, List.sum_cons] <;> omega

end Frees

/-! ## The regions of an allocation -/

/-- A fresh allocation whose regions are the pieces `p :: ps`. -/
structure Allocated (g : Geometry) (s : State) (n a : ℕ) (p : Piece) (rest : List (ℕ × Piece))
    (s' : State) : Prop where
  run : allocateBlocks g n s = .ok (some (freshAllocation a), s')
  extends_ : Extends s.regions s'.regions none ((a, p) :: rest)
  takes : TakesMany g n s.bgs (p :: rest.map Prod.snd) s'.bgs

section Allocated

variable {g : Geometry} {s s' : State} {n m a : ℕ} {p : Piece} {rest : List (ℕ × Piece)}

theorem sum_untouchedFree : (untouchedFree g s).sum = untouchedRoom g s :=
  View.sum_frees (v := view g s.bgs)

theorem fillEmpty_untouchedFree (hm : m < (untouchedFree g s).length)
    (hmore : ((untouchedFree g s).take m).sum < n)
    (henough : n ≤ ((untouchedFree g s).take (m + 1)).sum) :
    let filled := View.fillEmpty (List.range g.aux.groups) (view g s.bgs) n
    filled.1.map Piece.len = (untouchedFree g s).take m ∧
      filled.2.2 = n - ((untouchedFree g s).take m).sum :=
  View.fillEmpty_take (v := view g s.bgs) List.nodup_range hm hmore henough

/-- A list of regions that is known to come from an allocation is all of it. -/
theorem allocated_of_run (hg : g.Fits) (hinv : GroupsInv g s.bgs) (hpos : 0 < n)
    (hrun : allocateBlocks g n s = .ok (some (freshAllocation a), s'))
    (hlist : Listed s'.regions ((a, p) :: rest)) : Allocated g s n a p rest s' := by
  obtain ⟨-, ns, hext, ⟨a', p', rest', rfl, halloc, hmany⟩ | ⟨hnone, -⟩⟩ :=
    allocateBlocks_cases hg hinv hpos hrun
  · have ha : a = a' := by
      have := congrArg (fun r => r.map fun alloc => alloc.list.first) halloc
      simpa [freshAllocation] using this
    subst ha
    obtain ⟨hp, hrest⟩ : p = p' ∧ rest = rest' := by
      have := hlist.unique hext.linked.listed rfl
      simpa using this
    subst hp hrest
    exact ⟨hrun, hext, hmany⟩
  · cases hnone

/-- A request that some group can take is one region. -/
theorem allocated_of_fits (hg : g.Fits) (hinv : GroupsInv g s.bgs) (hpos : 0 < n)
    (hfits : ∃ i < g.aux.groups, n ≤ (s.bgs i).freeBlocks) :
    ∃ a p s', Allocated g s n a p [] s' ∧ p.len = n := by
  obtain ⟨i, hi, hle⟩ := hfits
  obtain ⟨j, hfit⟩ := View.exists_firstFit (v := view g s.bgs) hi hle
  obtain ⟨s', hrun, hlinked⟩ := doAllocate_fits hg hinv hpos hfit
  exact ⟨_, ⟨(view g s.bgs j).next, n, j⟩, s', allocated_of_run hg hinv hpos
    (allocateBlocks_of_doAllocate hrun) hlinked.listed, rfl⟩

/-- Any other is spread over the untouched groups. -/
theorem allocated_of_spreads (hg : g.Fits) (hinv : GroupsInv g s.bgs) (hpos : 0 < n)
    (hfew : ∀ i < g.aux.groups, (s.bgs i).freeBlocks < n) (h : Spreads (untouchedFree g s) n m) :
    ∃ a p rest s', Allocated g s n a p rest s' ∧
      p.len :: rest.map (fun q => q.2.len) = spreadLens (untouchedFree g s) n m := by
  have hfit : View.firstFit g.aux.groups (view g s.bgs) n = none := View.firstFit_eq_none.mpr hfew
  obtain ⟨hlens, hrest⟩ := fillEmpty_untouchedFree h.lt h.more h.enough
  have hpieces : ∀ q ∈ (View.fillEmpty (List.range g.aux.groups) (view g s.bgs) n).1,
      0 < q.len := by
    intro q hq
    exact h.pos _ (hlens ▸ List.mem_map_of_mem hq)
  obtain ⟨r, s', hrun, hcases⟩ := doAllocate_outcome hg hinv hpieces hpos hfit
  obtain ⟨-, -, j, -, a, p, ns, rfl, hlinked, hps⟩ | ⟨hmore, -⟩ := hcases
  · refine ⟨a, p, ns, s', allocated_of_run hg hinv hpos (allocateBlocks_of_doAllocate hrun)
      hlinked.listed, ?_⟩
    have hmap := congrArg (List.map Piece.len) hps
    rw [List.map_append, hlens, List.map_singleton] at hmap
    simp only [hrest] at hmap
    simpa [spreadLens, Function.comp_def] using hmap
  · -- the groups have enough
    have hall := sum_untouchedFree (g := g) (s := s)
    have hsplit := List.sum_take_add_sum_drop (untouchedFree g s) (m + 1)
    have henough := h.enough
    omega

/-- When the groups do not have enough, or one of those to be filled is empty, there is no
allocation. -/
theorem not_allocated (hg : g.Fits) (hinv : GroupsInv g s.bgs) (hpos : 0 < n)
    (hfew : ∀ i < g.aux.groups, (s.bgs i).freeBlocks < n)
    (h : ∀ m, ¬ Spreads (untouchedFree g s) n m) (alloc : BlockAllocation) (s' : State) :
    allocateBlocks g n s ≠ .ok (some alloc, s') := by
  have hfit : View.firstFit g.aux.groups (view g s.bgs) n = none := View.firstFit_eq_none.mpr hfew
  intro hrun
  by_cases hpieces :
      ∀ q ∈ (View.fillEmpty (List.range g.aux.groups) (view g s.bgs) n).1, 0 < q.len
  · obtain ⟨r, s₁, hdo, hcases⟩ := doAllocate_outcome hg hinv hpieces hpos hfit
    rw [allocateBlocks_of_doAllocate hdo] at hrun
    obtain ⟨henough, -⟩ | ⟨-, rfl⟩ := hcases
    · obtain ⟨m, hm, hmore, hle⟩ :=
        exists_take_sum hpos (henough.trans_eq sum_untouchedFree.symm)
      refine h m ⟨hm, hmore, hle, fun f hf => ?_⟩
      have hlens := (fillEmpty_untouchedFree hm hmore hle).1
      obtain ⟨q, hq, rfl⟩ := List.mem_map.mp (hlens.symm ▸ hf)
      exact hpieces q hq
    · cases hrun
  · push Not at hpieces
    obtain ⟨q, hq, hzero⟩ := hpieces
    rw [List.range_eq_range'] at hq
    obtain ⟨reg, hdo, -⟩ := allocateBlocks_eq_ok.mp hrun
    rw [doAllocate_spills hfit] at hdo
    exact multipleLoop_fills_stuck hg g.aux.groups 0 _ n none none s (Nat.zero_add _) hinv
      (hasPrev_none _) hpos (fun j hj => absurd hj (Nat.not_lt_zero j))
      ⟨q, hq, Nat.le_zero.mp hzero⟩ _ hdo

theorem Allocated.numRegions (h : Allocated g s n a p rest s') :
    blockAllocationNumRegions (freshAllocation a) s'.regions = .ok (rest.length + 1) := by
  have hnum : blockAllocationNumRegions (freshAllocation a) s'.regions =
      .ok (0 + ((a, p) :: rest).length) :=
    numRegionsLoop_eq h.extends_.linked.listed h.extends_.length_le
  rw [hnum, List.length_cons, Nat.zero_add]

end Allocated

/-! ## First regions of one block -/

/-- A list that nothing has been read from. -/
def RegionList.AtStart (list : RegionList) : Prop :=
  list.iter = list.first ∧ list.partialIter = 0

section Short

variable {h₀ h h' : RegionHeap} {alloc alloc' : BlockAllocation} {list list' : RegionList}
  {a b : ℕ} {p q : Piece} {rest ns : List (ℕ × Piece)}

theorem RegionList.AtStart.append (hstart : list.AtStart)
    (happend : regionListAppend list a h = .ok (list', h')) : list'.AtStart := by
  unfold regionListAppend at happend
  cases hfirst : list.first with
  | none =>
      simp only [hfirst] at happend
      obtain ⟨r, -, happend⟩ := bind_eq_ok.mp happend
      obtain ⟨rfl, -⟩ := Prod.mk.inj (Except.ok.inj happend)
      exact ⟨rfl, rfl⟩
  | some b =>
      simp only [hfirst] at happend
      obtain ⟨q, -, happend⟩ := bind_eq_ok.mp happend
      obtain ⟨r, -, happend⟩ := bind_eq_ok.mp happend
      obtain ⟨rfl, -⟩ := Prod.mk.inj (Except.ok.inj happend)
      exact ⟨hstart.1.trans hfirst, hstart.2⟩

theorem moveOobLoop_atStart {fuel : ℕ} {o : Option ℕ} (hstart : alloc.oobList.AtStart)
    (hrun : moveOobLoop fuel o alloc h = .ok (alloc', h')) : alloc'.oobList.AtStart := by
  induction fuel generalizing o alloc h with
  | zero =>
      cases o with
      | none =>
          obtain ⟨rfl, -⟩ := Prod.mk.inj (Except.ok.inj hrun)
          exact hstart
      | some a => exact nomatch hrun
  | succ fuel ih =>
      cases o with
      | none =>
          obtain ⟨rfl, -⟩ := Prod.mk.inj (Except.ok.inj hrun)
          exact hstart
      | some a =>
          rw [moveOobLoop] at hrun
          by_cases hiter : some a = alloc.list.iter
          · rw [if_pos hiter] at hrun
            obtain ⟨rfl, -⟩ := Prod.mk.inj (Except.ok.inj hrun)
            exact hstart
          · rw [if_neg hiter] at hrun
            obtain ⟨r, -, hrun⟩ := bind_eq_ok.mp hrun
            obtain ⟨⟨list, h₁⟩, -, hrun⟩ := bind_eq_ok.mp hrun
            obtain ⟨⟨oobList, h₂⟩, happend, hrun⟩ := bind_eq_ok.mp hrun
            exact ih (hstart.append happend) hrun

theorem Linked.threaded : ∀ {prev : Option ℕ}, Linked h prev ns →
    Threaded h.nextOf (ns.map Prod.fst) none ∧ ∀ b ∈ headAddr ns, h.prevOf b = prev := by
  induction ns with
  | nil => exact fun _ => ⟨trivial, fun b hb => nomatch hb⟩
  | cons n rest ih =>
      intro prev hlink
      refine ⟨⟨?_, (ih hlink.2).1⟩, fun b hb => ?_⟩
      · rw [nextOf_eq hlink.1, Option.or_none, List.head?_map]
        rfl
      · obtain rfl : n.1 = b := Option.some.inj hb
        rw [prevOf_eq hlink.1]
        rfl

theorem Listed.exists_node (hlist : Listed h ns) : ∀ n ∈ ns, ∃ next prev,
    h.node n.1 = some (n.2.region next prev) := by
  induction ns with
  | nil => simp
  | cons n rest ih =>
      obtain ⟨⟨prev, hnode⟩, hrest⟩ := hlist
      exact List.forall_mem_cons.mpr ⟨⟨_, prev, hnode⟩, ih hrest⟩

/-- The lists of a fresh allocation. -/
theorem Extends.hasLists (hext : Extends h₀ h none ((a, p) :: rest))
    (hsmall : ∀ n ∈ (a, p) :: rest, 0 < n.2.len ∧ n.2.block + n.2.len ≤ 2 ^ 32) :
    HasLists h (freshAllocation a) (a :: rest.map Prod.fst) [] where
  main := hext.linked.threaded.1
  first := rfl
  oob := trivial
  oobFirst := rfl
  oobLast hnil := absurd rfl hnil
  nodup := by
    rw [List.append_nil]
    exact hext.nodup
  holds := by
    rw [List.append_nil]
    intro c hc
    obtain ⟨n, hn, rfl⟩ := List.mem_map.mp (show c ∈ ((a, p) :: rest).map Prod.fst from hc)
    obtain ⟨next, prev, hnode⟩ := hext.linked.listed.exists_node n hn
    exact (holds_iff hnode).mpr ⟨(hext.fresh n hn).2, hsmall n hn⟩

/-- A block that is all of the first region is not moved: every other region is. -/
theorem reserveOobBlocks_of_one (hext : Extends h₀ h none ((a, p) :: (b, q) :: rest))
    (hone : p.len = 1)
    (hsmall : ∀ n ∈ (a, p) :: (b, q) :: rest, 0 < n.2.len ∧ n.2.block + n.2.len ≤ 2 ^ 32) :
    ∃ alloc' h', reserveOobBlocks (freshAllocation a) 1 h = .ok (true, alloc', h') ∧
      getOobBlock alloc' 0 h' = .ok q.block ∧ Listed h' [(a, p)] ∧ h'.brk = h.brk ∧
      alloc'.list.first = some a ∧ alloc'.list.iter = some a ∧ alloc'.list.partialIter = 0 := by
  have hl := hext.hasLists hsmall
  have hnode := hext.linked.1
  have hnode₂ := hext.linked.2.1
  -- the first split changes nothing, and the second falls behind the first region
  have hsplit₁ : doSplitAllocation (freshAllocation a) 0 h = .ok (some a, freshAllocation a, h) :=
    doSplitAllocation_between (show (freshAllocation a).list.iter =
      ([] ++ a :: b :: rest.map Prod.fst).head? from rfl) hl.isList
  have hsplit₂ :
      doSplitAllocation (freshAllocation a) 1 h = .ok (some b, freshAllocation a, h) := by
    have hbetween := doSplitAllocation_between (show (freshAllocation a).list.iter =
      ([a] ++ b :: rest.map Prod.fst).head? from rfl) hl.isList
    have hlen : (blocksOn h [a]).length = 1 := by
      rw [blocksOn_cons, blocksOn_nil, List.append_nil, blocksAt_eq hnode, List.length_range']
      exact hone
    rwa [hlen] at hbetween
  have hm : Moving h (freshAllocation a) [a] (b :: rest.map Prod.fst) [] [] := by
    refine ⟨by rwa [List.append_nil], fun c hc => ?_⟩
    obtain rfl : b = c := Option.some.inj hc
    exact prevOf_eq hnode₂
  have hne : ∀ c ∈ b :: rest.map Prod.fst, some c ≠ (freshAllocation a).list.iter := by
    intro c hc heq
    obtain rfl : c = a := Option.some.inj heq
    exact (List.nodup_cons.mp hext.nodup).1 hc
  have hfuel : (b :: rest.map Prod.fst).length < h.brk + 1 :=
    Nat.lt_succ_of_le ((Nat.le_succ _).trans hl.isList.length_le_brk)
  obtain ⟨alloc', h', hrun, hiter, hoffset, hpiece, hbrk, hm'⟩ :=
    hm.run hne (fun _ hnone => nomatch hnone) hfuel
  have hstart : alloc'.oobList.AtStart := moveOobLoop_atStart ⟨rfl, rfl⟩ hrun
  have hfirst : alloc'.oobList.first = some b := hm'.oobFirst
  refine ⟨alloc', h', ?_, ?_, ?_, hbrk, hm'.first, hiter, hoffset⟩
  · unfold reserveOobBlocks splitAllocation
    rw [show (freshAllocation a).list.partialIter = 0 from rfl, hsplit₁, bind_ok]
    simp only [hsplit₂, bind_ok]
    rw [List.append_nil, List.head?_cons] at hrun
    exact hrun ▸ rfl
  · obtain ⟨hbrk₂, q', hq', hpos, hend⟩ := hm'.holds b (by simp)
    obtain ⟨r, hr⟩ := (hm'.holds b (by simp)).node
    have hsame := (piece_eq hr).symm.trans ((congrFun hpiece b).trans (piece_eq hnode₂))
    obtain ⟨hblock, hlen, -⟩ := Piece.mk.inj (Option.some.inj hsame)
    have hq := hsmall (b, q) (by simp)
    have hderef : h'.deref (some b) = .ok r := deref_some.mpr hr
    obtain ⟨fuel, hfuel⟩ : ∃ n, h'.brk = n + 1 := ⟨h'.brk - 1, by omega⟩
    rw [getOobBlock, hstart.1, hfirst, hstart.2, hfuel, getBlockLoop, hderef, bind_ok]
    rw [if_pos (by rw [hlen]; exact hq.1), hblock]
    have hlt : q.block < 2 ^ 32 := by
      have := hq.2
      have := hq.1
      simp only at *
      omega
    exact congrArg _ (u32_of_lt hlt)
  · obtain ⟨r, hr⟩ := (hm'.holds a (by simp)).node
    have hsame := (piece_eq hr).symm.trans ((congrFun hpiece a).trans (piece_eq hnode))
    obtain ⟨hblock, hlen, hbg⟩ := Piece.mk.inj (Option.some.inj hsame)
    have hnext : r.next = none := by
      rw [← nextOf_eq hr]
      exact hm'.main.1
    refine ⟨⟨r.prev, ?_⟩, trivial⟩
    rw [hr]
    cases r
    simp only [Piece.region] at hblock hlen hbg hnext ⊢
    rw [hblock, hlen, hbg, hnext]
    rfl

end Short

end SystemExtras.Ext4
