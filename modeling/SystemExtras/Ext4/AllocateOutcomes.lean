import SystemExtras.Ext4.AllocatePlan

/-!
# How `allocate_blocks` ends

The invariant of the runs is shown here for every geometry whose groups have room for
their headers, whether or not they have any data blocks.  With it the three ways in
which a request can end are told apart.

A rest behind the last untouched group is not placed at all, although the comment
would put it into any group it fits in (`followsDocumented_iff`).  By then the
untouched groups are filled, and they stay filled although the request fails
(`failureUnchanged_iff`).  An untouched group with nothing but its header is filled
with no blocks again and again (`finishes_of_countable`).
-/

namespace SystemExtras.Ext4

/-! ## Runs on every geometry -/

/-- The group has data blocks, and no more than its counter can count twice. -/
def Geometry.Countable (g : Geometry) (i : ℕ) : Prop :=
  g.headerBlocks i < g.groupSize i ∧ g.groupSize i - g.headerBlocks i < 2 ^ 31

/-- The counter of a group says at least how many of its data blocks are taken, and little more
than twice as much. -/
structure CounterOk (g : Geometry) (bgs : Groups) (i : ℕ) : Prop where
  lt : (bgs i).dataBlocksUsed < 2 ^ 32
  bounds : g.Countable i →
    (bgs i).firstFreeBlock - g.headerBlocks i ≤ (bgs i).dataBlocksUsed ∧
      (bgs i).dataBlocksUsed ≤ 2 * ((bgs i).firstFreeBlock - g.headerBlocks i) + 1

/-- One block can be given back. -/
def CounterSlack (g : Geometry) (bgs : Groups) (i : ℕ) : Prop := g.Countable i →
  (bgs i).dataBlocksUsed + 1 ≤ 2 * ((bgs i).firstFreeBlock - g.headerBlocks i)

section Counters

variable {g : Geometry} {bgs bgs' : Groups} {i len : ℕ} {p : Piece} {ps : List Piece}

theorem Takes.counter_add (hinv : GroupsInv g bgs) (hok : CounterOk g bgs p.bg)
    (hcountable : g.Countable p.bg) (h : Takes g bgs p bgs') :
    (bgs' p.bg).dataBlocksUsed = (bgs p.bg).dataBlocksUsed + p.len := by
  have hbound := (hok.bounds hcountable).2
  have hlimit := (hinv p.bg h.bg_lt).limit_of_lt hcountable.1
  have hheader := (hinv p.bg h.bg_lt).header_le
  have hle := h.len_le
  have hsmall := hcountable.2
  rw [h.dataBlocksUsed_eq]
  exact u32_of_lt (by omega)

theorem Takes.counterOk (hinv : GroupsInv g bgs) (hok : CounterOk g bgs i)
    (h : Takes g bgs p bgs') :
    CounterOk g bgs' i := by
  by_cases hip : i = p.bg
  · subst hip
    refine ⟨by rw [h.dataBlocksUsed_eq]; exact u32_lt _, fun hcountable => ?_⟩
    have hbound := hok.bounds hcountable
    have hheader := (hinv p.bg h.bg_lt).header_le
    rw [h.counter_add hinv hok hcountable, h.firstFreeBlock_eq]
    omega
  · have hsame := h.group_of_ne hip
    exact ⟨by rw [hsame]; exact hok.lt,
      fun hcountable => by rw [hsame]; exact hok.bounds hcountable⟩

theorem Takes.counterSlack (hinv : GroupsInv g bgs) (hok : CounterOk g bgs i)
    (hslack : CounterSlack g bgs i) (h : Takes g bgs p bgs') : CounterSlack g bgs' i := by
  intro hcountable
  by_cases hip : i = p.bg
  · subst hip
    have hbound := hslack hcountable
    have hheader := (hinv p.bg h.bg_lt).header_le
    rw [h.counter_add hinv hok hcountable, h.firstFreeBlock_eq]
    omega
  · rw [h.group_of_ne hip]
    exact hslack hcountable

theorem TakesAll.counterOk (hinv : GroupsInv g bgs) (hok : CounterOk g bgs i)
    (h : TakesAll g bgs ps bgs') : CounterOk g bgs' i := by
  induction h with
  | nil => exact hok
  | cons head _ ih => exact ih (head.inv hinv) (head.counterOk hinv hok)

theorem TakesAll.counterSlack (hinv : GroupsInv g bgs) (hok : CounterOk g bgs i)
    (hslack : CounterSlack g bgs i) (h : TakesAll g bgs ps bgs') : CounterSlack g bgs' i := by
  induction h with
  | nil => exact hslack
  | cons head _ ih =>
      exact ih (head.inv hinv) (head.counterOk hinv hok) (head.counterSlack hinv hok hslack)

/-- After a request for two blocks or more, one of the first region can be given back: it has two,
or it is all that an untouched group had. -/
theorem TakesMany.counterSlack (hinv : GroupsInv g bgs) (hok : CounterOk g bgs p.bg)
    (h : TakesMany g len bgs (p :: ps) bgs') (hlen : 2 ≤ len) (hpos : 0 < p.len) :
    CounterSlack g bgs' p.bg := by
  cases h with
  | cons _ head share tail =>
      refine tail.takesAll.counterSlack (head.inv hinv) (head.counterOk hinv hok) ?_
      intro hcountable
      have hbound := hok.bounds hcountable
      have hheader := (hinv p.bg head.bg_lt).header_le
      rw [head.counter_add hinv hok hcountable, head.firstFreeBlock_eq]
      obtain hall | ⟨-, -, huntouched⟩ := share
      · omega
      · omega

end Counters

/-- What is known of the allocation just made. -/
structure Last (g : Geometry) (s : State) (alloc : BlockAllocation) (a : ℕ) (p : Piece)
    (next : Option ℕ) : Prop where
  last : alloc.list.last = some a
  node : s.regions.node a = some (p.region next none)
  bg_lt : p.bg < g.aux.groups
  room : g.headerBlocks p.bg < g.groupSize p.bg
  header_lt : g.headerBlocks p.bg < (s.bgs p.bg).firstFreeBlock
  slack : CounterSlack g s.bgs p.bg

/-- What every run keeps, whatever the sizes of the groups. -/
structure LooseInv (g : Geometry) (s : RunState) : Prop where
  groups : GroupsInv g s.st.bgs
  counters : ∀ i < g.aux.groups, CounterOk g s.st.bgs i
  last : ∀ alloc, s.last = some alloc → ∃ a p next, Last g s.st alloc a p next

section LooseRuns

variable {g : Geometry} {s s' : RunState} {st : State} {calls : List Call}

theorem LooseInv.takesAll (h : LooseInv g s) {ps : List Piece}
    (htakes : TakesAll g s.st.bgs ps st.bgs) (held : List ℕ) : LooseInv g ⟨st, held, none⟩ where
  groups := htakes.inv h.groups
  counters := fun i hi => htakes.counterOk h.groups (h.counters i hi)
  last := fun _ hlast => by cases hlast

theorem LooseInv.init (hg : g.Fits) (hinit : blockAllocatorInit g State.empty = .ok st) :
    LooseInv g ⟨st, [], none⟩ := by
  obtain ⟨st', hrun, -, -, hfresh⟩ := blockAllocatorInit_spec hg State.empty
  rw [hrun, Except.ok.injEq] at hinit
  subst hinit
  refine ⟨fun i hi => (hfresh i hi).inv, fun i hi => ?_, fun _ hlast => by cases hlast⟩
  have hcounter := (hfresh i hi).dataBlocksUsed
  refine ⟨by rw [hcounter]; decide, fun hcountable => ?_⟩
  have hlimit := (hfresh i hi).inv.limit_of_lt hcountable.1
  have hfree := (hfresh i hi).free
  have hlt := hcountable.1
  show (st'.bgs i).firstFreeBlock - g.headerBlocks i ≤ (st'.bgs i).dataBlocksUsed ∧
    (st'.bgs i).dataBlocksUsed ≤ 2 * ((st'.bgs i).firstFreeBlock - g.headerBlocks i) + 1
  omega

/-- An allocation of two blocks or more may be reduced. -/
theorem LooseInv.blocks (hg : g.Fits) (h : LooseInv g s) {len a : ℕ} (hpos : 1 ≤ len)
    (hrun : doAllocate g len s.st = .ok (some a, st)) (held : List ℕ) :
    LooseInv g ⟨st, held, if 2 ≤ len then
      some { createAllocation with list := ⟨some a, some a, some a, 0⟩ } else none⟩ := by
  obtain ⟨p, ns, hext, hmany, hlen⟩ := doAllocate_head hg h.groups hpos hrun
  have hhead : ∃ bgs₁, Takes g s.st.bgs p bgs₁ := by
    cases hmany with
    | cons _ head _ _ => exact ⟨_, head⟩
  obtain ⟨bgs₁, hhead⟩ := hhead
  have hgroup := h.groups p.bg hhead.bg_lt
  have hlimit := hgroup.limit_of_pos (hlen.trans_le hhead.len_le)
  have hheader := hgroup.header_le
  have hle := hhead.len_le
  have hcursor := hmany.cursor_of_head hlen
  have hblock := hhead.block_eq hlen
  have hcursor' : g.headerBlocks p.bg < (st.bgs p.bg).firstFreeBlock := by omega
  have hall := h.takesAll hmany.takesAll held
  refine ⟨hall.groups, hall.counters, fun alloc halloc => ?_⟩
  simp only at halloc
  split at halloc
  · rename_i htwo
    obtain rfl := Option.some.inj halloc
    exact ⟨a, p, _, rfl, hext.linked.1, hhead.bg_lt, by omega, hcursor',
      hmany.counterSlack h.groups (h.counters p.bg hhead.bg_lt) htwo hlen⟩
  · cases halloc

theorem LooseInv.reduce (hg : g.Fits) (h : LooseInv g s) {alloc alloc' : BlockAllocation}
    (hlast : s.last = some alloc) (hrun : reduceAllocation g alloc 1 s.st = .ok (alloc', st))
    (held : List ℕ) : LooseInv g ⟨st, held, none⟩ := by
  obtain ⟨a, p, next, hp⟩ := h.last alloc hlast
  have hgroup := h.groups p.bg hp.bg_lt
  have hheader := hp.header_lt
  obtain ⟨hbgs, -, -⟩ := reduceAllocation_cases hp.last hp.node
    (fun _ => hgroup.freeBlocks_one hg (by omega)) hrun
  have hused : ∀ i, (st.bgs i).dataBlocksUsed = (s.st.bgs i).dataBlocksUsed := by
    intro i
    rw [hbgs]
    by_cases hip : i = p.bg
    · subst hip
      rw [Function.update_self]
      rfl
    · rw [Function.update_of_ne hip]
  refine ⟨fun i hi => ?_, fun i hi => ⟨?_, fun hcountable => ?_⟩, fun _ hnone => by cases hnone⟩
  · show GroupInv g i (st.bgs i)
    rw [hbgs]
    by_cases hip : i = p.bg
    · subst hip
      rw [Function.update_self]
      exact hgroup.giveBack hp.header_lt (hgroup.limit_of_lt hp.room)
    · rw [Function.update_of_ne hip]
      exact h.groups i hi
  · exact (hused i).trans_lt (h.counters i hi).lt
  · have hbound := (h.counters i hi).bounds hcountable
    show (st.bgs i).firstFreeBlock - g.headerBlocks i ≤ (st.bgs i).dataBlocksUsed ∧
      (st.bgs i).dataBlocksUsed ≤ 2 * ((st.bgs i).firstFreeBlock - g.headerBlocks i) + 1
    rw [hused, hbgs]
    by_cases hip : i = p.bg
    · subst hip
      have hslack := hp.slack hcountable
      rw [Function.update_self]
      simp only [BlockGroupInfo.giveBack]
      omega
    · rw [Function.update_of_ne hip]
      exact hbound

theorem LooseInv.exec (hg : g.Fits) (h : LooseInv g s) {c : Call} (hc : c.Valid)
    (hexec : c.exec g s = .ok s') : LooseInv g s' := by
  cases c with
  | allocateBlock =>
      simp only [Call.exec, bind_eq_ok, Except.ok.injEq] at hexec
      obtain ⟨⟨block, st⟩, call, rfl⟩ := hexec
      obtain ⟨-, rfl, -⟩ | ⟨i, htakes, -⟩ := allocateBlock_cases hg h.groups call
      · exact h.takesAll (.nil _) _
      · exact h.takesAll (TakesAll.single htakes) _
  | allocateBlocks len =>
      simp only [Call.exec, bind_eq_ok] at hexec
      obtain ⟨⟨r, st⟩, call, hexec⟩ := hexec
      obtain ⟨reg, hdo, rfl⟩ := allocateBlocks_eq_ok.mp call
      cases reg with
      | none =>
          cases hexec
          obtain ⟨-, ns, -, ⟨-, hmany⟩ | ⟨-, htakes⟩⟩ := doAllocate_cases hg h.groups hc.1 hdo
          · exact h.takesAll hmany.takesAll _
          · exact h.takesAll htakes _
      | some a =>
          cases hexec
          exact h.blocks hg hc.1 hdo _
  | reduceAllocation =>
      cases hlast : s.last with
      | none => simp [Call.exec, hlast] at hexec
      | some alloc =>
          simp only [Call.exec, hlast, bind_eq_ok, Except.ok.injEq] at hexec
          obtain ⟨b, -, ⟨alloc', st⟩, call, rfl⟩ := hexec
          exact h.reduce hg hlast call _

theorem LooseInv.execAll (hg : g.Fits) (h : LooseInv g s) (hvalid : ∀ c ∈ calls, c.Valid)
    (hexec : execAll g calls s = .ok s') : LooseInv g s' := by
  induction calls generalizing s with
  | nil =>
      cases hexec
      exact h
  | cons c rest ih =>
      rw [Ext4.execAll, bind_eq_ok] at hexec
      obtain ⟨s₁, hc, hrest⟩ := hexec
      exact ih (h.exec hg (hvalid c List.mem_cons_self) hc)
        (fun c' hc' => hvalid c' (List.mem_cons_of_mem _ hc')) hrest

/-- The groups of every state that a run reaches. -/
theorem Reachable.inv (hg : g.Fits) (h : Reachable g st) :
    GroupsInv g st.bgs ∧ ∀ i < g.aux.groups, CounterOk g st.bgs i := by
  obtain ⟨calls, r, hvalid, hrun, hbgs⟩ := h
  rw [allocatorRun, bind_eq_ok] at hrun
  obtain ⟨st', hinit, hexec⟩ := hrun
  have hinv := (LooseInv.init hg hinit).execAll hg hvalid hexec
  rw [hbgs]
  exact ⟨hinv.groups, hinv.counters⟩

end LooseRuns

/-! ## The documented algorithm and the code -/

theorem lenOf_append (ps qs : List Piece) : lenOf (ps ++ qs) = lenOf ps + lenOf qs := by
  simp [lenOf]

theorem View.lenOf_fillEmpty {v : View} {is : List ℕ} {len : ℕ} :
    lenOf (fillEmpty is v len).1 + (fillEmpty is v len).2.2 = len := by
  induction is generalizing v len with
  | nil => exact Nat.zero_add _
  | cons i is ih =>
      unfold fillEmpty
      split
      · split
        · exact Nat.zero_add _
        · rename_i hmore
          rw [lenOf_cons, Nat.add_assoc, ih]
          exact Nat.add_sub_cancel' (Nat.le_of_not_le hmore)
      · exact ih

/-- The regions of an allocation are the given pieces. -/
def AllocationOf (s : State) (alloc : BlockAllocation) (ps : List Piece) : Prop :=
  ∃ ns, Linked s.regions none ns ∧ alloc.list.first = headAddr ns ∧ ns.map Prod.snd = ps

/-- `allocate_blocks` does what its comment says: it succeeds when the algorithm does, with its
pieces for regions, and otherwise it fails. -/
def FollowsDocumented (g : Geometry) (s : State) (len : ℕ) : Prop :=
  ∃ r s', allocateBlocks g len s = .ok (r, s') ∧
    match View.documented g.aux.groups (view g s.bgs) len with
    | none => r = none
    | some ps => lenOf ps = len ∧ ∃ alloc, r = some alloc ∧ AllocationOf s' alloc ps

/-- The free blocks of the untouched groups. -/
def untouchedRoom (g : Geometry) (s : State) : ℕ :=
  (view g s.bgs).emptyRoom (List.range g.aux.groups)

section Outcomes

variable {g : Geometry} {s s' : State} {len : ℕ}

theorem allocateBlocks_of_doAllocate {r : Option ℕ} (h : doAllocate g len s = .ok (r, s')) :
    allocateBlocks g len s = .ok (r.map fun a =>
      { createAllocation with list := ⟨some a, some a, some a, 0⟩ }, s') :=
  allocateBlocks_eq_ok.mpr ⟨r, h, rfl⟩

/-- A request that some group can take. -/
theorem doAllocate_fits (hg : g.Fits) (hinv : GroupsInv g s.bgs) (hpos : 0 < len) {j : ℕ}
    (h : View.firstFit g.aux.groups (view g s.bgs) len = some j) :
    ∃ s', doAllocate g len s = .ok (some s.regions.brk, s') ∧
      Linked s'.regions none [(s.regions.brk, ⟨(view g s.bgs j).next, len, j⟩)] := by
  obtain ⟨s', hrun, halloc⟩ := contiguous_some hg hinv hpos h
  exact ⟨s', doAllocate_eq_ok.mpr (Or.inl ⟨_, hrun, rfl⟩), halloc.regions_eq.2.1, trivial⟩

/-- A request that no group can take. -/
theorem doAllocate_spills (h : View.firstFit g.aux.groups (view g s.bgs) len = none) :
    doAllocate g len s = multipleLoop g (g.aux.groups + 1) len none none s := by
  unfold doAllocate
  rw [contiguous_none h]
  rfl

theorem hasPrev_none (h : RegionHeap) : HasPrev h none := fun _ hq => by cases hq

theorem fillEmpty_len_pos_of_room
    (hroom : ∀ i < g.aux.groups, (s.bgs i).dataBlocksUsed = 0 → 0 < (s.bgs i).freeBlocks) :
    ∀ p ∈ (View.fillEmpty (List.range g.aux.groups) (view g s.bgs) len).1, 0 < p.len :=
  View.fillEmpty_len_pos fun i hi huntouched =>
    hroom i (List.mem_range.mp hi) (of_decide_eq_true huntouched)

/-- A request that no group can take ends well exactly if the untouched groups can hold it. -/
theorem doAllocate_outcome (hg : g.Fits) (hinv : GroupsInv g s.bgs)
    (hlens : ∀ p ∈ (View.fillEmpty (List.range g.aux.groups) (view g s.bgs) len).1, 0 < p.len)
    (hpos : 0 < len) (hfit : View.firstFit g.aux.groups (view g s.bgs) len = none) :
    let filled := View.fillEmpty (List.range g.aux.groups) (view g s.bgs) len
    ∃ r s', doAllocate g len s = .ok (r, s') ∧
      (len ≤ untouchedRoom g s ∧ filled.2.2 ≠ 0 ∧
          (∃ j, View.firstFit g.aux.groups filled.2.1 filled.2.2 = some j ∧
            ∃ a p ns, r = some a ∧ Linked s'.regions none ((a, p) :: ns) ∧
              p :: ns.map Prod.snd = filled.1 ++ [⟨(filled.2.1 j).next, filled.2.2, j⟩]) ∨
        untouchedRoom g s < len ∧ r = none) := by
  rw [List.range_eq_range'] at hlens
  obtain ⟨r, s', ns, hrun, hext, -, hcases⟩ := multipleLoop_fills hg g.aux.groups 0
    (g.aux.groups + 1) len none none s (Nat.zero_add _) (Nat.lt_succ_self _) hinv
    (hasPrev_none _) hpos (fun j hj => absurd hj (Nat.not_lt_zero j)) hlens
  rw [← List.range_eq_range'] at hcases
  rw [← doAllocate_spills hfit] at hrun
  refine ⟨r, s', hrun, ?_⟩
  by_cases hempty : len ≤ untouchedRoom g s
  · left
    obtain ⟨hrest, i, hi, huntouched, -⟩ := View.fillEmpty_of_le List.nodup_range hpos hempty
    refine ⟨hempty, hrest.ne', ?_⟩
    obtain ⟨-, j, hj, rfl, hps⟩ | ⟨-, hall, -⟩ := hcases
    · refine ⟨j, hj, ?_⟩
      cases ns with
      | nil => simp at hps
      | cons n ns => exact ⟨n.1, n.2, ns, rfl, hext.linked, hps⟩
    · rw [hall i (List.mem_range.mp hi)] at huntouched
      cases huntouched
  · right
    obtain ⟨-, hall⟩ := View.fillEmpty_of_lt List.nodup_range (not_le.mp hempty)
    refine ⟨not_le.mp hempty, ?_⟩
    obtain ⟨⟨i, hi, huntouched⟩, -⟩ | ⟨hr, -, -⟩ := hcases
    · rw [(hall i (List.mem_range.mpr hi)).1] at huntouched
      cases huntouched
    · exact hr

/-- Behind the last untouched group the rest of a request fits only in groups that are in use. -/
theorem firstFit_fillEmpty_eq_none (h : untouchedRoom g s < len) :
    View.firstFit g.aux.groups (View.fillEmpty (List.range g.aux.groups) (view g s.bgs) len).2.1
        (View.fillEmpty (List.range g.aux.groups) (view g s.bgs) len).2.2 = none ↔
      ∀ i < g.aux.groups, (s.bgs i).dataBlocksUsed ≠ 0 →
        (s.bgs i).freeBlocks < len - untouchedRoom g s := by
  obtain ⟨hrest, hall⟩ := View.fillEmpty_of_lt List.nodup_range h
  rw [View.firstFit_eq_none, hrest]
  have hsame : ∀ i, (s.bgs i).dataBlocksUsed ≠ 0 →
      (View.fillEmpty (List.range g.aux.groups) (view g s.bgs) len).2.1 i = view g s.bgs i :=
    fun i hused => View.fillEmpty_frame (.inr (decide_eq_false hused))
  constructor
  · intro hfew i hi hused
    have hless := hfew i hi
    rw [hsame i hused] at hless
    exact hless
  · intro hfew i hi
    by_cases hused : (s.bgs i).dataBlocksUsed = 0
    · rw [(hall i (List.mem_range.mpr hi)).2 (decide_eq_true hused)]
      exact Nat.sub_pos_of_lt h
    · rw [hsame i hused]
      exact hfew i hi hused

/-- **When `allocate_blocks` follows its comment**: not when it has filled all untouched groups and
the rest would fit in one of the others. -/
theorem followsDocumented_iff (hg : g.Fits) (hreach : Reachable g s)
    (hroom : ∀ i < g.aux.groups, (s.bgs i).dataBlocksUsed = 0 → 0 < (s.bgs i).freeBlocks)
    (hpos : 1 ≤ len) : FollowsDocumented g s len ↔
      (∃ i < g.aux.groups, len ≤ (s.bgs i).freeBlocks) ∨ len ≤ untouchedRoom g s ∨
        ∀ i < g.aux.groups, (s.bgs i).dataBlocksUsed ≠ 0 →
          (s.bgs i).freeBlocks < len - untouchedRoom g s := by
  have hinv := (hreach.inv hg).1
  unfold FollowsDocumented View.documented
  cases hfit : View.firstFit g.aux.groups (view g s.bgs) len with
  | some j =>
      obtain ⟨hle, hj, -⟩ := View.firstFit_eq_some.mp hfit
      obtain ⟨s', hrun, hlinked⟩ := doAllocate_fits hg hinv hpos hfit
      refine iff_of_true ⟨_, s', allocateBlocks_of_doAllocate hrun, ?_⟩ (.inl ⟨j, hj, hle⟩)
      exact ⟨by simp, _, rfl, _, hlinked, rfl, rfl⟩
  | none =>
      have hnofit : ¬ ∃ i < g.aux.groups, len ≤ (s.bgs i).freeBlocks := by
        intro h
        obtain ⟨i, hi, hle⟩ := h
        exact absurd hle (not_le.mpr (View.firstFit_eq_none.mp hfit i hi))
      obtain ⟨r, s', hrun, hcases⟩ :=
        doAllocate_outcome hg hinv (fillEmpty_len_pos_of_room hroom) hpos hfit
      have hblocks := allocateBlocks_of_doAllocate hrun
      obtain ⟨hempty, hrest, j, hj, a, p, ns, rfl, hlinked, hps⟩ | ⟨hmore, rfl⟩ := hcases
      · refine iff_of_true ⟨_, s', hblocks, ?_⟩ (.inr (.inl hempty))
        simp only [if_neg hrest, hj, Option.map_some]
        refine ⟨?_, _, rfl, _, hlinked, rfl, hps⟩
        rw [lenOf_append, lenOf_cons, lenOf_nil, Nat.add_zero]
        exact View.lenOf_fillEmpty
      · have hrest : (View.fillEmpty (List.range g.aux.groups) (view g s.bgs) len).2.2 ≠ 0 := by
          rw [(View.fillEmpty_of_lt List.nodup_range hmore).1]
          exact (Nat.sub_pos_of_lt hmore).ne'
        simp only [if_neg hrest, hblocks, hnofit, not_le.mpr hmore, false_or,
          ← firstFit_fillEmpty_eq_none hmore]
        cases View.firstFit g.aux.groups
          (View.fillEmpty (List.range g.aux.groups) (view g s.bgs) len).2.1
          (View.fillEmpty (List.range g.aux.groups) (view g s.bgs) len).2.2 with
        | none => exact iff_of_true ⟨none, s', rfl, rfl⟩ rfl
        | some j =>
            refine iff_of_false (fun h => ?_) (Option.some_ne_none j)
            obtain ⟨r, s'', hrun', -, alloc, hr, -⟩ := h
            obtain ⟨rfl, -⟩ := Prod.mk.inj (Except.ok.inj hrun')
            cases hr

end Outcomes

/-- A run on the tiny device, with something that can be computed of its end. -/
theorem exists_tinyRun (calls : List Call) (P : RunState → Prop) [DecidablePred P]
    (hcalls : ∀ c ∈ calls, c.Valid)
    (h : (match allocatorRun tiny calls with
      | .ok r => decide (P r)
      | .error _ => false) = true) : ∃ r, Reachable tiny r.st ∧ P r := by
  obtain ⟨r, hrun, hr⟩ := exists_allocatorRun h
  exact ⟨r, ⟨calls, r, hcalls, hrun, rfl⟩, hr⟩

/-- Every untouched group has free blocks. -/
def RoomLeft (g : Geometry) (s : State) : Prop :=
  ∀ i < g.aux.groups, (s.bgs i).dataBlocksUsed = 0 → 0 < (s.bgs i).freeBlocks

instance (g : Geometry) (s : State) : Decidable (RoomLeft g s) :=
  inferInstanceAs (Decidable (∀ i < g.aux.groups, _ → _))

/-- With one block of the first group in use, the other groups just hold a request for 35. -/
theorem followsDocumented_iff_tiny : ∃ s, Reachable tiny s ∧ FollowsDocumented tiny s 35 := by
  obtain ⟨r, hreach, hroom, hempty⟩ := exists_tinyRun [.allocateBlock]
    (fun r => RoomLeft tiny r.st ∧ 35 ≤ untouchedRoom tiny r.st) (by decide) (by decide)
  exact ⟨r.st, hreach, (followsDocumented_iff roomy_tiny.fits hreach hroom (by decide)).mpr
    (.inr (.inl hempty))⟩

/-- The 36th block would fit into the first group, but the request fails. -/
theorem not_followsDocumented_tiny :
    ∃ s, Reachable tiny s ∧ RoomLeft tiny s ∧ ¬ FollowsDocumented tiny s 36 := by
  obtain ⟨r, hreach, hroom, hdocumented, hcode⟩ := exists_tinyRun [.allocateBlock]
    (fun r => RoomLeft tiny r.st ∧
      (View.documented tiny.aux.groups (view tiny r.st.bgs) 36).isSome = true ∧
      (allocateBlocks tiny 36 r.st).toOption.map (fun x => x.1) = some none)
    (by decide) (by decide)
  refine ⟨r.st, hreach, hroom, fun h => ?_⟩
  obtain ⟨alloc, s', hrun, hmatch⟩ := h
  obtain ⟨ps, hps⟩ := Option.isSome_iff_exists.mp hdocumented
  rw [hrun] at hcode
  rw [hps] at hmatch
  obtain ⟨-, alloc', rfl, -⟩ := hmatch
  cases hcode

/-! ## Failed requests -/

section Outcomes

variable {g : Geometry} {s s' : State} {len : ℕ}

/-- The data of a group that allocations change is the same. -/
structure SameGroup (bg bg' : BlockGroupInfo) : Prop where
  bitmap : ∀ b, bg'.bitmaps.bit b = bg.bitmaps.bit b
  freeBlocks : bg'.freeBlocks = bg.freeBlocks
  firstFreeBlock : bg'.firstFreeBlock = bg.firstFreeBlock
  dataBlocksUsed : bg'.dataBlocksUsed = bg.dataBlocksUsed

theorem SameGroup.refl (bg : BlockGroupInfo) : SameGroup bg bg := ⟨fun _ => rfl, rfl, rfl, rfl⟩

theorem SameGroup.trans {bg bg' bg'' : BlockGroupInfo} (h : SameGroup bg bg')
    (h' : SameGroup bg' bg'') : SameGroup bg bg'' :=
  ⟨fun b => (h'.bitmap b).trans (h.bitmap b), h'.freeBlocks.trans h.freeBlocks,
    h'.firstFreeBlock.trans h.firstFreeBlock, h'.dataBlocksUsed.trans h.dataBlocksUsed⟩

/-- A request that fails leaves every group as it was. -/
def FailureUnchanged (g : Geometry) (s : State) (len : ℕ) : Prop :=
  ∀ s', allocateBlocks g len s = .ok (none, s') → ∀ i < g.aux.groups, SameGroup (s.bgs i) (s'.bgs i)

/-- The loop gives up only when no untouched group is left. -/
theorem multipleLoop_none_used (hg : g.Fits) (fuel : ℕ) : ∀ (len : ℕ) (first prev : Option ℕ)
    (s : State), GroupsInv g s.bgs → HasPrev s.regions prev → (len = 0 → first ≠ none) →
    multipleLoop g fuel len first prev s = .ok (none, s') →
    ∀ i < g.aux.groups, (s'.bgs i).dataBlocksUsed ≠ 0 := by
  induction fuel with
  | zero =>
      intro len first prev s _ _ hfirst hrun
      rw [multipleLoop] at hrun
      split at hrun
      · rename_i hzero
        exact absurd (Prod.mk.inj (Except.ok.inj hrun)).1 (hfirst hzero)
      · cases hrun
  | succ fuel ih =>
      intro len first prev s hinv hprev hfirst hrun
      by_cases hzero : len = 0
      · rw [multipleLoop, if_pos hzero] at hrun
        exact absurd (Prod.mk.inj (Except.ok.inj hrun)).1 (hfirst hzero)
      · cases hpart : ext4AllocatePartial g len s with
        | error e =>
            rw [multipleLoop, if_neg hzero, hpart, bind_error] at hrun
            cases hrun
        | ok x =>
            obtain ⟨reg, s₁⟩ := x
            have hpos : 0 < len := Nat.pos_of_ne_zero hzero
            obtain ⟨rfl, rfl⟩ | ⟨p, rfl, halloc, -⟩ := partial_cases hg hinv hpos hpart
            · rw [multipleLoop, if_neg hzero, hpart, bind_ok] at hrun
              obtain ⟨-, rfl⟩ := Prod.mk.inj (Except.ok.inj hrun)
              -- with an untouched group left there would have been a region
              intro i hi huntouched
              obtain ⟨k, hk⟩ := exists_firstUntouched hi huntouched
              obtain hfew | hfits := Nat.lt_or_ge (s₁.bgs k).freeBlocks len
              · obtain hfree | hfree := Nat.eq_zero_or_pos (s₁.bgs k).freeBlocks
                · obtain ⟨q, hq, -⟩ := hk.partial_stuck hg hinv hfree hpos hpart
                  cases hq
                · obtain ⟨s₂, hrun₂, -⟩ := hk.partial_fills hg hinv hfree hfew
                  rw [hpart] at hrun₂
                  cases hrun₂
              · obtain ⟨j, hj⟩ := View.exists_firstFit (v := view g s₁.bgs) hk.lt hfits
                obtain ⟨s₂, hrun₂, -⟩ := contiguous_some hg hinv hpos hj
                rw [hk.partial_fits hfits, hrun₂] at hpart
                cases hpart
            · obtain ⟨regions, hround, hprev₁, -⟩ := multipleLoop_round hzero hprev hpart halloc
              rw [hround] at hrun
              exact ih _ _ _ { s₁ with regions := regions } (halloc.takes.inv hinv) hprev₁
                (fun _ => Option.some_ne_none _) hrun

/-- An untouched group without free blocks stays untouched. -/
theorem TakesAll.untouched {bgs bgs' : Groups} {ps : List Piece}
    (h : TakesAll g bgs ps bgs') {i : ℕ}
    (huntouched : (bgs i).dataBlocksUsed = 0) (hzero : (bgs i).freeBlocks = 0) :
    (bgs' i).dataBlocksUsed = 0 := by
  induction h with
  | nil => exact huntouched
  | @cons bgs bgs₁ _ p _ head _ ih =>
      by_cases hip : i = p.bg
      · subst hip
        have hle := head.len_le
        have hlen : p.len = 0 := by omega
        refine ih ?_ ?_
        · rw [head.dataBlocksUsed_eq, huntouched, hlen]
          rfl
        · rw [head.freeBlocks_eq]
          omega
      · have hsame := head.group_of_ne hip
        exact ih (hsame ▸ huntouched) (hsame ▸ hzero)

/-- A request for no blocks changes nothing. -/
theorem contiguousLoop_zero_same (hg : g.Fits) {r : Option ℕ} (left : ℕ) : ∀ (i : ℕ) (s : State),
    GroupsInv g s.bgs → (∀ j < g.aux.groups, (s.bgs j).dataBlocksUsed < 2 ^ 32) →
    i + left ≤ g.aux.groups → contiguousLoop g 0 left i s = .ok (r, s') →
    ∀ j < g.aux.groups, SameGroup (s.bgs j) (s'.bgs j) := by
  induction left with
  | zero =>
      intro i s _ _ _ hrun j _
      obtain ⟨-, rfl⟩ := Prod.mk.inj (Except.ok.inj hrun)
      exact .refl _
  | succ left ih =>
      intro i s hinv hlt hgroups hrun
      have hi : i < g.aux.groups := by omega
      obtain ⟨bitmap, hset, hcall⟩ := fromBlockGroup_of_le hg hinv hi (Nat.zero_le _)
      obtain ⟨htakes, -⟩ := fromBlockGroup_takes hg hinv hi (Nat.zero_le _) hcall
      have hsame : ∀ j < g.aux.groups, SameGroup (s.bgs j)
          ((s.setBg i ((s.bgs i).take 0 bitmap)).bgs j) := by
        intro j hj
        by_cases hji : j = i
        · subst hji
          simp only [State.setBg, Function.update_self, BlockGroupInfo.take]
          refine ⟨fun b => ?_, rfl, rfl, u32_of_lt (hlt j hj)⟩
          rw [hset b, decide_eq_false (by omega), Bool.or_false]
        · simp only [State.setBg, Function.update_of_ne hji]
          exact .refl _
      rw [contiguousLoop, hcall, bind_ok] at hrun
      simp only at hrun
      split at hrun
      · obtain ⟨-, rfl⟩ := Prod.mk.inj (Except.ok.inj hrun)
        exact hsame
      · have hrest := ih (i + 1) _ (htakes.inv hinv)
          (fun j hj => (hsame j hj).dataBlocksUsed.trans_lt (hlt j hj)) (by omega) hrun
        exact fun j hj => (hsame j hj).trans (hrest j hj)

theorem allocateBlocks_zero_same (hg : g.Fits) (hinv : GroupsInv g s.bgs)
    (hlt : ∀ j < g.aux.groups, (s.bgs j).dataBlocksUsed < 2 ^ 32) {r : Option BlockAllocation}
    (hrun : allocateBlocks g 0 s = .ok (r, s')) :
    ∀ j < g.aux.groups, SameGroup (s.bgs j) (s'.bgs j) := by
  obtain ⟨reg, hdo, -⟩ := allocateBlocks_eq_ok.mp hrun
  obtain ⟨a, hcall, -⟩ | ⟨s₁, hcall, hmore⟩ := doAllocate_eq_ok.mp hdo
  · exact contiguousLoop_zero_same hg g.aux.groups 0 s hinv hlt (by omega) hcall
  · -- there is nothing left to spread
    obtain rfl : s₁ = s' := (Prod.mk.inj (Except.ok.inj hmore)).2
    exact contiguousLoop_zero_same hg g.aux.groups 0 s hinv hlt (by omega) hcall

/-- **When a failed request changes nothing**: when it cannot fail, or when there is no untouched
group that it could have filled before. -/
theorem failureUnchanged_iff (hg : g.Fits) (hreach : Reachable g s) : FailureUnchanged g s len ↔
    (∃ i < g.aux.groups, len ≤ (s.bgs i).freeBlocks) ∨ len ≤ untouchedRoom g s ∨
      (∀ i < g.aux.groups, (s.bgs i).dataBlocksUsed ≠ 0) ∨
      ∃ i < g.aux.groups, (s.bgs i).dataBlocksUsed = 0 ∧ (s.bgs i).freeBlocks = 0 := by
  obtain ⟨hinv, hcounters⟩ := hreach.inv hg
  obtain rfl | hpos := Nat.eq_zero_or_pos len
  · refine iff_of_true (fun s' hrun => ?_) (.inr (.inl (Nat.zero_le _)))
    exact allocateBlocks_zero_same hg hinv (fun j hj => (hcounters j hj).lt) hrun
  cases hfit : View.firstFit g.aux.groups (view g s.bgs) len with
  | some j =>
      obtain ⟨hle, hj, -⟩ := View.firstFit_eq_some.mp hfit
      obtain ⟨s₁, hrun, -⟩ := doAllocate_fits hg hinv hpos hfit
      refine iff_of_true (fun s' hnone => ?_) (.inl ⟨j, hj, hle⟩)
      rw [allocateBlocks_of_doAllocate hrun] at hnone
      cases hnone
  | none =>
      have hnofit : ¬ ∃ i < g.aux.groups, len ≤ (s.bgs i).freeBlocks := by
        intro h
        obtain ⟨i, hi, hle⟩ := h
        exact absurd hle (not_le.mpr (View.firstFit_eq_none.mp hfit i hi))
      -- a request that fails has left no untouched group
      have hfails : ∀ s', allocateBlocks g len s = .ok (none, s') →
          multipleLoop g (g.aux.groups + 1) len none none s = .ok (none, s') ∧
            ∀ i < g.aux.groups, (s'.bgs i).dataBlocksUsed ≠ 0 := by
        intro s' hrun
        obtain ⟨reg, hloop, hnone⟩ := allocateBlocks_eq_ok.mp hrun
        rw [doAllocate_spills hfit] at hloop
        cases reg with
        | some a => cases hnone
        | none =>
            exact ⟨hloop,
              multipleLoop_none_used hg _ _ _ _ s hinv (hasPrev_none _) (by omega) hloop⟩
      by_cases hstuck : ∃ i < g.aux.groups, (s.bgs i).dataBlocksUsed = 0 ∧ (s.bgs i).freeBlocks = 0
      · refine iff_of_true (fun s' hrun => ?_) (.inr (.inr (.inr hstuck)))
        obtain ⟨i, hi, huntouched, hzero⟩ := hstuck
        obtain ⟨hloop, hused⟩ := hfails s' hrun
        obtain ⟨-, ns, -, ⟨-, hmany⟩ | ⟨-, htakes⟩⟩ := multipleLoop_cases hg _ _ _ _ s hinv
          (fun q hq => by cases hq) (fun q r hq => by cases hq) hloop
        · exact absurd (hmany.takesAll.untouched huntouched hzero) (hused i hi)
        · exact absurd (htakes.untouched huntouched hzero) (hused i hi)
      · have hroom : ∀ i < g.aux.groups, (s.bgs i).dataBlocksUsed = 0 →
            0 < (s.bgs i).freeBlocks := by
          intro i hi huntouched
          by_contra hfree
          exact hstuck ⟨i, hi, huntouched, by omega⟩
        obtain ⟨r, s', hrun, hcases⟩ :=
          doAllocate_outcome hg hinv (fillEmpty_len_pos_of_room hroom) hpos hfit
        have hblocks := allocateBlocks_of_doAllocate hrun
        simp only [hnofit, hstuck, false_or, or_false]
        obtain ⟨hempty, -, -, -, a, p, ns, rfl, -⟩ | ⟨hmore, rfl⟩ := hcases
        · refine iff_of_true (fun s'' hnone => ?_) (.inl hempty)
          rw [hblocks] at hnone
          cases hnone
        · rw [or_iff_right (not_le.mpr hmore)]
          constructor
          · intro hsame i hi huntouched
            have hgroup := hsame s' hblocks i hi
            exact (hfails s' hblocks).2 i hi (hgroup.dataBlocksUsed.trans huntouched)
          · intro hused s'' hnone i hi
            have hloop := (hfails s'' hnone).1
            rw [multipleLoop, if_neg hpos.ne', partial_none hused, bind_ok] at hloop
            obtain ⟨-, rfl⟩ := Prod.mk.inj (Except.ok.inj hloop)
            exact .refl _

end Outcomes

/-- A request for all that the tiny device has does not fail. -/
theorem failureUnchanged_iff_tiny : ∃ s, Reachable tiny s ∧ FailureUnchanged tiny s 46 := by
  obtain ⟨r, hreach, hempty⟩ := exists_tinyRun [] (fun r => 46 ≤ untouchedRoom tiny r.st)
    (by decide) (by decide)
  exact ⟨r.st, hreach, (failureUnchanged_iff roomy_tiny.fits hreach).mpr (.inr (.inl hempty))⟩

/-- A request for one block more fails, and nothing is free any more. -/
theorem not_failureUnchanged_tiny : ∃ s, Reachable tiny s ∧ ¬ FailureUnchanged tiny s 47 := by
  obtain ⟨r, hreach, hbefore, hcode⟩ := exists_tinyRun []
    (fun r => (r.st.bgs 0).freeBlocks = 11 ∧
      (allocateBlocks tiny 47 r.st).toOption.map (fun x => (x.1, (x.2.bgs 0).freeBlocks)) =
        some (none, 0)) (by decide) (by decide)
  refine ⟨r.st, hreach, fun h => ?_⟩
  cases hrun : allocateBlocks tiny 47 r.st with
  | error e =>
      rw [hrun] at hcode
      cases hcode
  | ok x =>
      obtain ⟨alloc, s'⟩ := x
      rw [hrun] at hcode
      obtain ⟨rfl, hafter⟩ := Prod.mk.inj (Option.some.inj hcode)
      have hsame := (h s' hrun 0 (by decide)).freeBlocks
      rw [hafter, hbefore] at hsame
      cases hsame

/-! ## Termination -/

section Outcomes

variable {g : Geometry} {s s' : State} {len : ℕ}

/-- The loop of `ext4_allocate_multiple_contiguous_blocks` ends after some number of rounds. -/
def Finishes (g : Geometry) (len : ℕ) (s : State) : Prop :=
  ∃ fuel r, multipleLoop g fuel len none none s = .ok r

/-- An untouched group that has data blocks has free ones. -/
theorem free_pos_of_untouched {i : ℕ} (hinv : GroupInv g i (s.bgs i))
    (hcounter : CounterOk g s.bgs i)
    (hcountable : g.Countable i) (huntouched : (s.bgs i).dataBlocksUsed = 0) :
    0 < (s.bgs i).freeBlocks := by
  have hcursor := (hcounter.bounds hcountable).1
  have hlimit := hinv.limit_of_lt hcountable.1
  have hroom := hcountable.1
  omega

/-- The state after `block_allocator_init` is reachable. -/
theorem exists_initial (hg : g.Fits) :
    ∃ s, Reachable g s ∧ ∀ i < g.aux.groups, FreshGroup g i (s.bgs i) := by
  obtain ⟨s, hinit, -, -, hfresh⟩ := blockAllocatorInit_spec hg State.empty
  refine ⟨s, ⟨[], ⟨s, [], none⟩, List.forall_mem_nil _, ?_, rfl⟩, hfresh⟩
  rw [allocatorRun, hinit]
  rfl

/-- There are never `2 ^ 32 - 1` blocks to be taken. -/
theorem TakesAll.lenOf_lt (hg : g.Fits) {bgs bgs' : Groups} {ps : List Piece}
    (hinv : GroupsInv g bgs)
    (h : TakesAll g bgs ps bgs') {i : ℕ} (hi : i < g.aux.groups) (hheader : 0 < g.headerBlocks i) :
    lenOf ps < 2 ^ 32 - 1 := by
  have hstart := hg.start_lt hi
  have hlt := hg.lenBlocks_lt
  have hbound : ∀ b ∈ g.start i :: blocksOf ps, b < g.aux.lenBlocks := by
    intro b hb
    obtain rfl | hb := List.mem_cons.mp hb
    · exact hstart
    · exact (h.mem_range hg hinv hb).2
  -- the first block of the group belongs to its header
  have hnotin : g.start i ∉ blocksOf ps := by
    intro hmem
    exact h.disjoint hinv hmem (header_mem_taken hinv hi hheader)
  have hnodup : (g.start i :: blocksOf ps).Nodup :=
    List.nodup_cons.mpr ⟨hnotin, h.nodup hinv⟩
  have hle := length_le_of_nodup hnodup hbound
  rw [List.length_cons, length_blocksOf] at hle
  omega

/-- A group with nothing but its header stops the first request that gets to it. -/
theorem not_finishes_of_full (hg : g.Fits) {i : ℕ} (hi : i < g.aux.groups)
    (hfull : g.groupSize i ≤ g.headerBlocks i) :
    ∃ s, Reachable g s ∧ ¬ Finishes g (2 ^ 32 - 1) s := by
  obtain ⟨s, hreach, hfresh⟩ := exists_initial hg
  refine ⟨s, hreach, fun hfinishes => ?_⟩
  obtain ⟨fuel, ⟨r, s'⟩, hrun⟩ := hfinishes
  have hinv := (hreach.inv hg).1
  have hheader : 0 < g.headerBlocks i := (hg.size_pos i hi).trans_le hfull
  obtain ⟨-, ns, -, ⟨-, hmany⟩ | ⟨rfl, htakes⟩⟩ := multipleLoop_cases hg _ _ _ _ s hinv
    (fun q hq => by cases hq) (fun q r hq => by cases hq) hrun
  · have hlt := hmany.takesAll.lenOf_lt hg hinv hi hheader
    rw [hmany.lenOf_eq] at hlt
    exact lt_irrefl _ hlt
  · have hused := multipleLoop_none_used hg _ _ _ _ s hinv (hasPrev_none _) (by decide) hrun
    refine hused i hi (htakes.untouched (hfresh i hi).dataBlocksUsed ?_)
    rw [(hfresh i hi).free]
    exact Nat.sub_eq_zero_of_le hfull

/-- **Termination.**  If every group has data blocks besides its header, and not so many that its
counter could wrap, every request ends in every state; and only if every group has data blocks. -/
theorem finishes_of_countable (hg : g.Fits) :
    ((∀ i < g.aux.groups, g.Countable i) → ∀ s, Reachable g s → ∀ len, Finishes g len s) ∧
      ((∀ s, Reachable g s → ∀ len < 2 ^ 32, Finishes g len s) →
        ∀ i < g.aux.groups, g.headerBlocks i < g.groupSize i) := by
  constructor
  · intro hcountable s hreach len
    obtain rfl | hpos := Nat.eq_zero_or_pos len
    · exact ⟨0, _, rfl⟩
    · obtain ⟨hinv, hcounters⟩ := hreach.inv hg
      obtain ⟨r, s', -, hrun, -⟩ := multipleLoop_fills hg g.aux.groups 0 (g.aux.groups + 1) len none
        none s (Nat.zero_add _) (Nat.lt_succ_self _) hinv (hasPrev_none _) hpos
        (fun j hj => absurd hj (Nat.not_lt_zero j)) (by
          rw [← List.range_eq_range']
          exact fillEmpty_len_pos_of_room fun i hi huntouched =>
            free_pos_of_untouched (hinv i hi) (hcounters i hi) (hcountable i hi) huntouched)
      exact ⟨_, _, hrun⟩
  · intro hfinishes i hi
    by_contra hfull
    obtain ⟨s, hreach, hnot⟩ := not_finishes_of_full hg hi (not_lt.mp hfull)
    exact hnot (hfinishes s hreach _ (by decide))

end Outcomes

theorem countable_tiny : ∀ i < tiny.aux.groups, tiny.Countable i := by
  unfold Geometry.Countable
  decide

theorem finishes_of_countable_tiny :
    (∀ i < tiny.aux.groups, tiny.Countable i) ∧
      ∀ s, Reachable tiny s → ∀ len, Finishes tiny len s :=
  ⟨countable_tiny, (finishes_of_countable roomy_tiny.fits).1 countable_tiny⟩

/-- The tiny device without its last two blocks: its last group is a header and nothing else. -/
def tightInfo : FsInfo where
  len := 70 * 1024
  blockSize := 1024
  blocksPerGroup := 16
  inodesPerGroup := 8
  inodeSize := 128
  inodes := 40
  journalBlocks := 0
  featRoCompat := 0
  featCompat := 0
  featIncompat := 0
  bgDescReserveBlocks := 0
  label := []
  noJournal := true

def tight : Geometry where
  info := tightInfo
  aux := (ext4CreateFsAuxInfo tightInfo).get (by decide)
  create := by decide

theorem fits_tight : tight.Fits := ⟨by decide, by decide, by decide, by decide⟩

/-- A request for more than the device has never ends on it. -/
theorem not_finishes_tight : ∃ s, Reachable tight s ∧ ¬ Finishes tight (2 ^ 32 - 1) s :=
  not_finishes_of_full (i := 4) fits_tight (by decide) (by decide)

end SystemExtras.Ext4
