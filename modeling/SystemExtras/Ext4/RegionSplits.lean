import SystemExtras.Ext4.RegionMoves

/-!
# Splitting lists of regions

`do_split_allocation` finds the region in which the split falls and puts a new region behind it,
unless it falls between two regions: then nothing is split and the cursor stays where it is
(`doSplitAllocation_inside`, `doSplitAllocation_between`).  In `split_allocation` the first split
is at the cursor, where a region begins afterwards in either case (`AtCursor.split`).
-/

namespace SystemExtras.Ext4

open RegionHeap

/-! ## Splitting regions -/

/-- The regions `as` follow one another up to the end of a list. -/
structure IsList (h : RegionHeap) (as : List ℕ) : Prop where
  threaded : Threaded h.nextOf as none
  nodup : as.Nodup
  holds : ∀ a ∈ as, h.Holds a

/-- The heap after the region at `a` has been split `k` blocks into it. -/
def splitOff (h : RegionHeap) (a : ℕ) (r : Region) (k : ℕ) : RegionHeap :=
  (h.malloc ⟨u32 (r.block + k), r.len - k, r.bg, r.next, some a⟩).2.write a
    { r with next := some h.brk, len := k }

/-- The blocks of some regions. -/
def blocksOn (h : RegionHeap) (as : List ℕ) : List ℕ := as.flatMap h.blocksAt

section Splitting

variable {h : RegionHeap} {alloc : BlockAllocation} {skipped after as os : List ℕ} {a k x : ℕ}
  {r : Region}

@[simp] theorem blocksOn_nil : blocksOn h [] = [] := rfl

@[simp] theorem blocksOn_cons : blocksOn h (a :: as) = h.blocksAt a ++ blocksOn h as := rfl

@[simp] theorem blocksOn_append : blocksOn h (skipped ++ after) =
    blocksOn h skipped ++ blocksOn h after := List.flatMap_append

theorem splitOff_node_self :
    (splitOff h a r k).node a = some { r with next := some h.brk, len := k } :=
  write_node_self _ _ _

theorem splitOff_node_brk (ha : a < h.brk) : (splitOff h a r k).node h.brk =
    some ⟨u32 (r.block + k), r.len - k, r.bg, r.next, some a⟩ := by
  rw [splitOff, write_node_of_ne _ _ ha.ne', malloc_node_self]

theorem splitOff_node_of_ne (hxa : x ≠ a) (hx : x ≠ h.brk) :
    (splitOff h a r k).node x = h.node x := by
  rw [splitOff, write_node_of_ne _ _ hxa, malloc_node_of_ne _ _ hx]

theorem splitOff_nextOf (hr : h.node a = some r) (ha : a < h.brk) : (splitOff h a r k).nextOf =
    Function.update (Function.update h.nextOf h.brk (h.nextOf a)) a (some h.brk) := by
  funext x
  by_cases hxa : x = a
  · subst hxa
    rw [Function.update_self, nextOf_eq splitOff_node_self]
  · rw [Function.update_of_ne hxa]
    by_cases hx : x = h.brk
    · subst hx
      rw [Function.update_self, nextOf_eq (splitOff_node_brk ha), nextOf_eq hr]
    · rw [Function.update_of_ne hx, nextOf, nextOf, splitOff_node_of_ne hxa hx]

/-- Nothing else has been said of the links backwards. -/
theorem splitOff_prevOf (hr : h.node a = some r) (hx : x ≠ h.brk) :
    (splitOff h a r k).prevOf x = h.prevOf x := by
  by_cases hxa : x = a
  · subst hxa
    rw [prevOf_eq splitOff_node_self, prevOf_eq hr]
  · rw [prevOf, prevOf, splitOff_node_of_ne hxa hx]

theorem splitOff_blocksAt_self (hr : h.node a = some r) (hk : k < r.len) :
    (splitOff h a r k).blocksAt a = (h.blocksAt a).take k := by
  rw [blocksAt_eq splitOff_node_self, blocksAt_eq hr, List.take_range'_of_length_ge hk.le]

theorem splitOff_blocksAt_brk (hr : h.node a = some r) (ha : a < h.brk) (hk : k < r.len)
    (hfits : r.block + r.len ≤ 2 ^ 32) :
    (splitOff h a r k).blocksAt h.brk = (h.blocksAt a).drop k := by
  rw [blocksAt_eq (splitOff_node_brk ha), blocksAt_eq hr, List.drop_range']
  simp only [u32_of_lt (show r.block + k < 2 ^ 32 by omega), Nat.mul_one]

/-- The loop of `do_split_allocation` skips regions. -/
theorem splitLoop_append (hthread : Threaded h.nextOf (skipped ++ after) none)
    (hnodes : ∀ a ∈ skipped, ∃ r, h.node a = some r) (fuel k : ℕ) :
    splitLoop h (skipped.length + fuel) (skipped ++ after).head? ((blocksOn h skipped).length + k) =
      splitLoop h fuel after.head? k := by
  induction skipped with
  | nil => rw [List.nil_append, List.length_nil, Nat.zero_add, blocksOn_nil, List.length_nil,
      Nat.zero_add]
  | cons a skipped ih =>
      obtain ⟨r, hr⟩ := hnodes a List.mem_cons_self
      have hderef : h.deref (some a) = .ok r := deref_some.mpr hr
      have hnext : r.next = (skipped ++ after).head? := by
        rw [← nextOf_eq hr, hthread.1, Option.or_none]
        rfl
      have hlen : (h.blocksAt a).length = r.len := by rw [blocksAt_eq hr, List.length_range']
      rw [List.cons_append, List.head?_cons, List.length_cons, Nat.add_right_comm, blocksOn_cons,
        List.length_append, hlen, splitLoop, hderef, bind_ok, if_pos (by omega), hnext,
        show r.len + (blocksOn h skipped).length + k - r.len = (blocksOn h skipped).length + k by
          omega]
      exact ih hthread.2 fun b hb => hnodes b (List.mem_cons_of_mem a hb)

/-- The split falls into a region. -/
theorem splitLoop_inside (hr : h.node a = some r) (hk : k < r.len) {fuel : ℕ} (hfuel : 0 < fuel) :
    splitLoop h fuel (some a) k = .ok (some a, k) := by
  obtain ⟨fuel, rfl⟩ : ∃ n, fuel = n + 1 := ⟨fuel - 1, by omega⟩
  have hderef : h.deref (some a) = .ok r := deref_some.mpr hr
  rw [splitLoop, hderef, bind_ok, if_neg (not_le.mpr hk)]

/-- The regions of a list are not more than there are addresses. -/
theorem IsList.length_le_brk (hl : IsList h as) : as.length ≤ h.brk :=
  length_le_of_nodup hl.nodup fun a ha => (hl.holds a ha).1

theorem IsList.behind (hl : IsList h (skipped ++ after)) : IsList h after where
  threaded := (threaded_append.mp hl.threaded).2
  nodup := (List.nodup_append.mp hl.nodup).2.1
  holds b hb := hl.holds b (List.mem_append_right _ hb)

theorem HasLists.isList (hl : HasLists h alloc as os) : IsList h as where
  threaded := hl.main
  nodup := (List.nodup_append.mp hl.nodup).1
  holds b hb := hl.holds b (List.mem_append_left _ hb)

theorem HasLists.isList_oob (hl : HasLists h alloc as os) : IsList h os where
  threaded := hl.oob
  nodup := (List.nodup_append.mp hl.nodup).2.1
  holds b hb := hl.holds b (List.mem_append_right _ hb)

/-- `do_split_allocation` inside a region. -/
theorem doSplitAllocation_inside (hiter : alloc.list.iter = (skipped ++ a :: after).head?)
    (hl : IsList h (skipped ++ a :: after)) (hr : h.node a = some r) (hk : 0 < k)
    (hlen : k < r.len) :
    doSplitAllocation alloc ((blocksOn h skipped).length + k) h = .ok (alloc.list.iter,
      { alloc with list := { alloc.list with iter := some h.brk } }, splitOff h a r k) := by
  have hfuel := hl.length_le_brk
  rw [List.length_append, List.length_cons] at hfuel
  obtain ⟨fuel, hbrk⟩ : ∃ fuel, h.brk = skipped.length + fuel :=
    ⟨_, (Nat.add_sub_of_le (by omega)).symm⟩
  have hderef : h.deref (some a) = .ok r := deref_some.mpr hr
  have hloop : splitLoop h h.brk alloc.list.iter ((blocksOn h skipped).length + k) =
      .ok (some a, k) := by
    rw [hiter, hbrk,
      splitLoop_append hl.threaded fun b hb => (hl.holds b (List.mem_append_left _ hb)).node,
      List.head?_cons, splitLoop_inside hr hlen (by omega)]
  unfold doSplitAllocation
  rw [hloop, bind_ok]
  simp only [gt_iff_lt, hk, if_true, hderef, bind_ok]
  rfl

/-- `do_split_allocation` between regions. -/
theorem doSplitAllocation_between (hiter : alloc.list.iter = (skipped ++ after).head?)
    (hl : IsList h (skipped ++ after)) :
    doSplitAllocation alloc (blocksOn h skipped).length h = .ok (after.head?, alloc, h) := by
  have hfuel := hl.length_le_brk
  rw [List.length_append] at hfuel
  obtain ⟨fuel, hbrk⟩ : ∃ fuel, h.brk = skipped.length + fuel :=
    ⟨_, (Nat.add_sub_of_le (by omega)).symm⟩
  have hloop : splitLoop h h.brk alloc.list.iter (blocksOn h skipped).length =
      .ok (after.head?, 0) := by
    have happend := splitLoop_append hl.threaded
      (fun b hb => (hl.holds b (List.mem_append_left _ hb)).node) fuel 0
    rw [Nat.add_zero] at happend
    rw [hiter, hbrk, happend]
    cases after with
    | nil => cases fuel <;> rfl
    | cons b after =>
        have hb := hl.holds b (by simp)
        obtain ⟨r, hr⟩ := hb.node
        exact splitLoop_inside hr ((holds_iff hr).mp hb).2.1 (by simp at hfuel; omega)
  unfold doSplitAllocation
  rw [hloop, bind_ok]
  rfl

/-- The two halves of a region that has been split take its place. -/
theorem HasLists.splitRegion (hl : HasLists h alloc (skipped ++ a :: after) as)
    (hr : h.node a = some r) (hk : 0 < k) (hlen : k < r.len) (iter : Option ℕ) :
    HasLists (splitOff h a r k) { alloc with list := { alloc.list with iter := iter } }
      (skipped ++ a :: h.brk :: after) as := by
  obtain ⟨ha, -, hfits⟩ := (holds_iff hr).mp (hl.holds a (by simp))
  have hfresh : ∀ b ∈ skipped ++ a :: after ++ as, b ≠ h.brk := fun b hb => (hl.holds b hb).1.ne
  obtain ⟨hnodup, hos, hdisjoint⟩ := List.nodup_append.mp hl.nodup
  have haos : ∀ b ∈ as, b ≠ a := fun b hb => (hdisjoint a (by simp) b hb).symm
  have hmem : ∀ b, b ∈ skipped ++ a :: h.brk :: after ++ as ↔
      b = h.brk ∨ b ∈ skipped ++ a :: after ++ as := by
    intro b
    simp only [List.mem_append, List.mem_cons]
    tauto
  refine ⟨?_, ?_, ?_, hl.oobFirst, hl.oobLast, ?_, fun b hb => ?_⟩
  · rw [splitOff_nextOf hr ha]
    exact hl.main.insertBehind hnodup fun hb => hfresh _ (List.mem_append_left _ hb) rfl
  · have hfirst := hl.first
    rw [List.head?_append] at hfirst ⊢
    exact hfirst
  · refine hl.oob.congr fun b hb => ?_
    rw [splitOff_nextOf hr ha, Function.update_of_ne (haos b hb),
      Function.update_of_ne (hfresh b (List.mem_append_right _ hb))]
  · have hperm : (skipped ++ a :: h.brk :: after ++ as).Perm
        (h.brk :: (skipped ++ a :: after ++ as)) := by
      simp only [List.append_assoc, List.cons_append]
      exact ((List.Perm.swap _ _ _).append_left skipped).trans List.perm_middle
    rw [hperm.nodup_iff, List.nodup_cons]
    exact ⟨fun hb => hfresh _ hb rfl, hl.nodup⟩
  · rcases (hmem b).mp hb with rfl | hb
    · rw [holds_iff (splitOff_node_brk ha), u32_of_lt (by omega)]
      exact ⟨Nat.lt_succ_self _, by simp only; omega, by simp only; omega⟩
    · by_cases hba : b = a
      · subst hba
        rw [holds_iff splitOff_node_self]
        exact ⟨Nat.lt_succ_of_lt ha, hk, by simp only; omega⟩
      · obtain ⟨hlt, q, hq, hpos⟩ := hl.holds b hb
        refine ⟨Nat.lt_succ_of_lt hlt, q, ?_, hpos⟩
        rw [← hq, piece, piece, splitOff_node_of_ne hba hlt.ne]

/-- The blocks of a list, cut where the region `a` is split. -/
theorem blocksOn_cut : blocksOn h (skipped ++ a :: after) =
    (blocksOn h skipped ++ (h.blocksAt a).take k) ++
      ((h.blocksAt a).drop k ++ blocksOn h after) := by
  calc blocksOn h (skipped ++ a :: after)
      = blocksOn h skipped ++ (h.blocksAt a ++ blocksOn h after) := by
        rw [blocksOn_append, blocksOn_cons]
    _ = blocksOn h skipped ++
          ((h.blocksAt a).take k ++ (h.blocksAt a).drop k ++ blocksOn h after) := by
        rw [List.take_append_drop]
    _ = _ := by simp only [List.append_assoc]

theorem length_blocksOn_cut (hk : k ≤ (h.blocksAt a).length) :
    (blocksOn h skipped ++ (h.blocksAt a).take k).length = (blocksOn h skipped).length + k := by
  rw [List.length_append, List.length_take, Nat.min_eq_left hk]

/-- The blocks of the other regions are as before. -/
theorem HasLists.blocksAt_splitOff (hl : HasLists h alloc (skipped ++ a :: after) as) :
    (∀ b ∈ skipped, (splitOff h a r k).blocksAt b = h.blocksAt b) ∧
      (∀ b ∈ after, (splitOff h a r k).blocksAt b = h.blocksAt b) ∧
      ∀ b ∈ as, (splitOff h a r k).blocksAt b = h.blocksAt b := by
  obtain ⟨hall, -, hdisjoint⟩ := List.nodup_append.mp hl.nodup
  obtain ⟨-, hcons, hskipped⟩ := List.nodup_append.mp hall
  have hother : ∀ b ∈ skipped ++ a :: after ++ as, b ≠ a →
      (splitOff h a r k).blocksAt b = h.blocksAt b := fun b hb hba => by
    rw [blocksAt, blocksAt, piece, piece, splitOff_node_of_ne hba (hl.holds b hb).1.ne]
  refine ⟨fun b hb => ?_, fun b hb => ?_, fun b hb => ?_⟩
  · exact hother b (by simp [hb]) (hskipped b hb a List.mem_cons_self)
  · exact hother b (by simp [hb]) fun hba => (List.nodup_cons.mp hcons).1 (hba ▸ hb)
  · exact hother b (by simp [hb]) (hdisjoint a (by simp) b hb).symm

end Splitting

/-! ## Ends of regions -/

/-- The first `x` blocks end with a region. -/
def EndsRegion (h : RegionHeap) (as : List ℕ) (x : ℕ) : Prop :=
  ∃ before after, as = before ++ after ∧ (blocksOn h before).length = x

section Ends

variable {h h' : RegionHeap} {as bs : List ℕ} {a x : ℕ}

theorem blocksOn_congr (hsame : ∀ a ∈ as, h'.blocksAt a = h.blocksAt a) :
    blocksOn h' as = blocksOn h as :=
  List.flatMap_congr hsame

theorem endsRegion_append (hx : 0 < x) :
    EndsRegion h (as ++ bs) ((blocksOn h as).length + x) ↔ EndsRegion h bs x := by
  constructor
  · rintro ⟨before, after, heq, hlen⟩
    rcases List.append_eq_append_iff.mp heq with ⟨mid, rfl, rfl⟩ | ⟨mid, rfl, rfl⟩
    · rw [blocksOn_append, List.length_append] at hlen
      exact ⟨mid, after, rfl, by omega⟩
    · rw [blocksOn_append, List.length_append] at hlen
      omega
  · rintro ⟨before, after, rfl, hlen⟩
    exact ⟨as ++ before, after, (List.append_assoc _ _ _).symm, by
      rw [blocksOn_append, List.length_append, hlen]⟩

theorem endsRegion_cons (hx : 0 < x) : EndsRegion h (a :: as) x ↔
    (h.blocksAt a).length ≤ x ∧ EndsRegion h as (x - (h.blocksAt a).length) := by
  constructor
  · rintro ⟨before, after, heq, hlen⟩
    cases before with
    | nil =>
        rw [blocksOn_nil, List.length_nil] at hlen
        omega
    | cons b before =>
        obtain ⟨rfl, rfl⟩ := List.cons.inj heq
        rw [blocksOn_cons, List.length_append] at hlen
        exact ⟨by omega, before, after, rfl, by omega⟩
  · rintro ⟨hle, before, after, rfl, hlen⟩
    exact ⟨a :: before, after, rfl, by rw [blocksOn_cons, List.length_append, hlen]; omega⟩

theorem endsRegion_congr (hsame : ∀ a ∈ as, h'.blocksAt a = h.blocksAt a) :
    EndsRegion h' as x ↔ EndsRegion h as x := by
  refine exists_congr fun before => exists_congr fun after => and_congr_right fun heq => ?_
  rw [blocksOn_congr fun a ha => hsame a (heq ▸ List.mem_append_left _ ha)]

/-- Blocks that do not end with a region end in one. -/
theorem exists_inside (hx : x ≤ (blocksOn h as).length) (hends : ¬ EndsRegion h as x) :
    ∃ skipped a after k, as = skipped ++ a :: after ∧ x = (blocksOn h skipped).length + k ∧
      0 < k ∧ k < (h.blocksAt a).length := by
  induction as generalizing x with
  | nil => exact absurd ⟨[], [], rfl, (Nat.le_zero.mp hx).symm⟩ hends
  | cons a as ih =>
      have hpos : 0 < x := Nat.pos_of_ne_zero fun hzero => hends ⟨[], a :: as, rfl, hzero.symm⟩
      rw [blocksOn_cons, List.length_append] at hx
      rw [endsRegion_cons hpos, not_and] at hends
      by_cases hlt : x < (h.blocksAt a).length
      · exact ⟨[], a, as, x, rfl, (Nat.zero_add x).symm, hpos, hlt⟩
      · obtain ⟨skipped, b, after, k, rfl, hskip, hk⟩ := ih (by omega) (hends (by omega))
        refine ⟨a :: skipped, b, after, k, rfl, ?_, hk⟩
        rw [blocksOn_cons, List.length_append]
        omega

end Ends

/-! ## The first split -/

/-- An allocation with its cursor at the region `c`, behind the regions `passed` and in front of
`rest`. -/
structure AtCursor (h : RegionHeap) (alloc : BlockAllocation) (passed : List ℕ) (c : ℕ)
    (rest os : List ℕ) : Prop extends HasLists h alloc (passed ++ c :: rest) os where
  iter : alloc.list.iter = some c
  inside : alloc.list.partialIter < (h.blocksAt c).length
  prev : alloc.list.partialIter = 0 → h.prevOf c = passed.getLast?

/-- How many blocks are behind the cursor. -/
def cursor (h : RegionHeap) (alloc : BlockAllocation) (passed : List ℕ) : ℕ :=
  (blocksOn h passed).length + alloc.list.partialIter

/-- The regions `as` of the heap `h` have become `pre`, with `p` blocks, and `tail`, with the
others and the cursor at its beginning. -/
structure CutAt (h : RegionHeap) (as os : List ℕ) (p : ℕ) (alloc' : BlockAllocation)
    (h' : RegionHeap) (pre tail : List ℕ) : Prop where
  moving : Moving h' alloc' pre [] tail os
  iter : alloc'.list.iter = tail.head?
  before : blocksOn h' pre = (blocksOn h as).take p
  behind : blocksOn h' tail = (blocksOn h as).drop p
  second : blocksOn h' os = blocksOn h os
  ends : ∀ x, 0 < x → (EndsRegion h' tail x ↔ EndsRegion h as (p + x))

section Cursor

variable {h : RegionHeap} {alloc : BlockAllocation} {passed rest os : List ℕ} {c : ℕ} {r : Region}

theorem AtCursor.cutAt_between (hc : AtCursor h alloc passed c rest os)
    (hzero : alloc.list.partialIter = 0) :
    CutAt h (passed ++ c :: rest) os (cursor h alloc passed) alloc h passed (c :: rest) := by
  have hcursor : cursor h alloc passed = (blocksOn h passed).length := by
    rw [cursor, hzero, Nat.add_zero]
  rw [hcursor]
  refine ⟨⟨hc.toHasLists, fun b hb => ?_⟩, hc.iter, ?_, ?_, rfl, fun x hx => ?_⟩
  · rw [List.nil_append, List.head?_cons, Option.mem_some] at hb
    exact hb ▸ hc.prev hzero
  · rw [blocksOn_append, List.take_left]
  · rw [blocksOn_append, List.drop_left]
  · rw [endsRegion_append hx]

theorem AtCursor.cutAt_inside (hc : AtCursor h alloc passed c rest os) (hr : h.node c = some r)
    (hpos : 0 < alloc.list.partialIter) :
    CutAt h (passed ++ c :: rest) os (cursor h alloc passed)
      { alloc with list := { alloc.list with iter := some h.brk } }
      (splitOff h c r alloc.list.partialIter) (passed ++ [c]) (h.brk :: rest) := by
  obtain ⟨hbrk, -, hfits⟩ := (holds_iff hr).mp (hc.holds c (by simp))
  have hlen : (h.blocksAt c).length = r.len := by rw [blocksAt_eq hr, List.length_range']
  have hinside : alloc.list.partialIter < r.len := hlen ▸ hc.inside
  have hlists := hc.toHasLists.splitRegion hr hpos hinside (some h.brk)
  obtain ⟨hpassed, hrest, hos⟩ :=
    hc.toHasLists.blocksAt_splitOff
  have hself := splitOff_blocksAt_self hr hinside
  have hnew := splitOff_blocksAt_brk hr hbrk hinside hfits
  have hblocks : blocksOn h (passed ++ c :: rest) =
      (blocksOn h passed ++ (h.blocksAt c).take alloc.list.partialIter) ++
        ((h.blocksAt c).drop alloc.list.partialIter ++ blocksOn h rest) := blocksOn_cut
  have hcursor : cursor h alloc passed =
      (blocksOn h passed ++ (h.blocksAt c).take alloc.list.partialIter).length :=
    (length_blocksOn_cut hc.inside.le).symm
  refine ⟨⟨?_, fun b hb => ?_⟩, rfl, ?_, ?_, blocksOn_congr hos, fun x hx => ?_⟩
  · rwa [List.nil_append, List.append_assoc, List.singleton_append]
  · rw [List.nil_append, List.head?_cons, Option.mem_some] at hb
    rw [← hb, prevOf_eq (splitOff_node_brk hbrk), List.getLast?_concat]
  · rw [blocksOn_append, blocksOn_congr hpassed, blocksOn_cons, hself, blocksOn_nil,
      List.append_nil, hblocks, hcursor, List.take_left]
  · rw [blocksOn_cons, hnew, blocksOn_congr hrest, hblocks, hcursor, List.drop_left]
  · have hsub : alloc.list.partialIter + x - r.len = x - (r.len - alloc.list.partialIter) := by
      omega
    rw [cursor, Nat.add_assoc, endsRegion_append (by omega), endsRegion_cons hx,
      endsRegion_cons (by omega), hnew, endsRegion_congr hrest, List.length_drop, hlen, hsub]
    exact and_congr_left fun _ => by omega

/-- The first split makes a region begin at the cursor. -/
theorem AtCursor.split (hc : AtCursor h alloc passed c rest os) : ∃ o alloc' h' pre tail,
    doSplitAllocation alloc alloc.list.partialIter h = .ok (o, alloc', h') ∧
      CutAt h (passed ++ c :: rest) os (cursor h alloc passed) alloc' h' pre tail := by
  have hiter : alloc.list.iter = ([] ++ c :: rest).head? := hc.iter
  have hlist : IsList h ([] ++ c :: rest) := hc.toHasLists.isList.behind
  rcases Nat.eq_zero_or_pos alloc.list.partialIter with hzero | hpos
  · have hsplit := doSplitAllocation_between hiter hlist
    refine ⟨some c, alloc, h, passed, c :: rest, ?_, hc.cutAt_between hzero⟩
    rw [hzero]
    exact hsplit
  · obtain ⟨r, hr⟩ := (hlist.holds c (by simp)).node
    have hinside := hc.inside
    rw [blocksAt_eq hr, List.length_range'] at hinside
    have hsplit := doSplitAllocation_inside hiter hlist hr hpos hinside
    rw [blocksOn_nil, List.length_nil, Nat.zero_add] at hsplit
    exact ⟨_, _, _, _, _, hsplit, hc.cutAt_inside hr hpos⟩

end Cursor

end SystemExtras.Ext4
