import SystemExtras.Ext4.ExtentsAgree

/-!
# What `allocate_blocks` decides

The comment of `allocate_blocks` describes its algorithm: a request goes to the first
group that can take all of it; otherwise it fills, in order, the groups of which no
data block is used, and what is left goes to the first group it fits in.  `documented`
is that algorithm, on nothing but the free blocks of each group and whether it is
untouched.

The code follows it up to the last untouched group (`multipleLoop_fills`).  It looks
for a place for the rest only while it stands at an untouched group, and at one that
has nothing but its header it stands for ever (`multipleLoop_stuck`).
-/

namespace SystemExtras.Ext4

/-! ## The documented algorithm -/

/-- What the algorithm looks at in a group: the number of its free blocks, the first of them, and
whether no data block is used. -/
@[ext] structure Room where
  free : ℕ
  next : ℕ
  untouched : Bool
  deriving DecidableEq, Repr

abbrev View := ℕ → Room

namespace View

/-- After `len` blocks have been taken from group `i`. -/
def taken (v : View) (i len : ℕ) : View :=
  Function.update v i ⟨(v i).free - len, (v i).next + len, false⟩

/-- The first of `n` groups that can take `len` blocks. -/
def firstFit (n : ℕ) (v : View) (len : ℕ) : Option ℕ :=
  (List.range n).find? fun i => decide (len ≤ (v i).free)

/-- Fills the untouched ones of the given groups while the request is larger than what they have.
The result is what was taken, the view after it and the rest of the request. -/
def fillEmpty : List ℕ → View → ℕ → List Piece × View × ℕ
  | [], v, len => ([], v, len)
  | i :: is, v, len =>
      if (v i).untouched then
        if len ≤ (v i).free then ([], v, len)
        else
          let r := fillEmpty is (v.taken i (v i).free) (len - (v i).free)
          (⟨(v i).next, (v i).free, i⟩ :: r.1, r.2)
      else fillEmpty is v len

/-- The algorithm of the comment. -/
def documented (n : ℕ) (v : View) (len : ℕ) : Option (List Piece) :=
  match firstFit n v len with
  | some i => some [⟨(v i).next, len, i⟩]
  | none =>
      let r := fillEmpty (List.range n) v len
      if r.2.2 = 0 then some r.1
      else (firstFit n r.2.1 r.2.2).map fun i => r.1 ++ [⟨(r.2.1 i).next, r.2.2, i⟩]

/-- The free blocks of the untouched ones of the given groups. -/
def emptyRoom (v : View) (is : List ℕ) : ℕ :=
  (is.map fun i => if (v i).untouched then (v i).free else 0).sum

variable {v : View} {n len i : ℕ} {is : List ℕ}

theorem firstFit_eq_some : firstFit n v len = some i ↔
    len ≤ (v i).free ∧ i < n ∧ ∀ j < i, (v j).free < len := by
  unfold firstFit
  rw [List.find?_range_eq_some]
  simp

theorem firstFit_eq_none : firstFit n v len = none ↔ ∀ i < n, (v i).free < len := by
  unfold firstFit
  rw [List.find?_range_eq_none]
  simp

theorem exists_firstFit (hi : i < n) (hfits : len ≤ (v i).free) :
    ∃ j, firstFit n v len = some j := by
  cases h : firstFit n v len with
  | none => exact absurd hfits (not_le.mpr (firstFit_eq_none.mp h i hi))
  | some j => exact ⟨j, rfl⟩

theorem taken_of_ne {j : ℕ} (h : j ≠ i) : v.taken i len j = v j := Function.update_of_ne h _ _

theorem taken_self : v.taken i len i = ⟨(v i).free - len, (v i).next + len, false⟩ :=
  Function.update_self _ _ _

theorem emptyRoom_congr {v' : View} (h : ∀ i ∈ is, v' i = v i) :
    v'.emptyRoom is = v.emptyRoom is := by
  unfold emptyRoom
  rw [List.map_congr_left fun i hi => by rw [h i hi]]

theorem emptyRoom_cons_untouched (h : (v i).untouched = true) :
    v.emptyRoom (i :: is) = (v i).free + v.emptyRoom is := by
  unfold emptyRoom
  rw [List.map_cons, List.sum_cons, if_pos h]

theorem emptyRoom_cons_touched (h : ¬ (v i).untouched = true) :
    v.emptyRoom (i :: is) = v.emptyRoom is := by
  unfold emptyRoom
  rw [List.map_cons, List.sum_cons, if_neg h, Nat.zero_add]

/-- What filling leaves alone. -/
theorem fillEmpty_frame {j : ℕ} (h : j ∉ is ∨ (v j).untouched = false) :
    (fillEmpty is v len).2.1 j = v j := by
  induction is generalizing v len with
  | nil => rfl
  | cons i is ih =>
      have hrest : j ∉ is ∨ (v j).untouched = false :=
        h.imp (fun hj hmem => hj (List.mem_cons_of_mem _ hmem)) id
      unfold fillEmpty
      split
      · rename_i huntouched
        split
        · rfl
        · have hji : j ≠ i := by
            rintro rfl
            obtain hj | hj := h
            · exact hj List.mem_cons_self
            · rw [hj] at huntouched
              cases huntouched
          have htaken : v.taken i (v i).free j = v j := taken_of_ne hji
          rw [ih (by rw [htaken]; exact hrest), htaken]
      · exact ih hrest

/-- A request that the untouched groups cannot hold fills all of them. -/
theorem fillEmpty_of_lt (hnodup : is.Nodup) (h : v.emptyRoom is < len) :
    (fillEmpty is v len).2.2 = len - v.emptyRoom is ∧
      ∀ i ∈ is, ((fillEmpty is v len).2.1 i).untouched = false ∧
        ((v i).untouched = true → ((fillEmpty is v len).2.1 i).free = 0) := by
  induction is generalizing v len with
  | nil => exact ⟨rfl, fun i hi => by cases hi⟩
  | cons i is ih =>
      obtain ⟨hi, hnodup⟩ := List.nodup_cons.mp hnodup
      unfold fillEmpty
      by_cases huntouched : (v i).untouched = true
      · rw [emptyRoom_cons_untouched huntouched] at h ⊢
        have hsame : (v.taken i (v i).free).emptyRoom is = v.emptyRoom is :=
          emptyRoom_congr fun j hj => taken_of_ne fun heq => hi (heq ▸ hj)
        have hless : (v.taken i (v i).free).emptyRoom is < len - (v i).free := by omega
        obtain ⟨hrest, hall⟩ := ih hnodup hless
        rw [if_pos huntouched, if_neg (by omega)]
        refine ⟨by rw [hrest, hsame]; omega, fun j hj => ?_⟩
        by_cases hji : j = i
        · subst hji
          rw [fillEmpty_frame (.inl hi), taken_self]
          exact ⟨rfl, fun _ => Nat.sub_self _⟩
        · have hmem : j ∈ is := (List.mem_cons.mp hj).resolve_left hji
          have hj := hall j hmem
          rwa [taken_of_ne hji] at hj
      · rw [emptyRoom_cons_touched huntouched] at h ⊢
        obtain ⟨hrest, hall⟩ := ih hnodup h
        rw [if_neg huntouched]
        refine ⟨hrest, fun j hj => ?_⟩
        by_cases hji : j = i
        · subst hji
          rw [fillEmpty_frame (.inl hi)]
          exact ⟨by simpa using huntouched, fun h => absurd h huntouched⟩
        · exact hall j ((List.mem_cons.mp hj).resolve_left hji)

/-- A request that they can hold ends at one of them. -/
theorem fillEmpty_of_le (hnodup : is.Nodup) (hpos : 0 < len) (h : len ≤ v.emptyRoom is) :
    0 < (fillEmpty is v len).2.2 ∧ ∃ i ∈ is, ((fillEmpty is v len).2.1 i).untouched = true ∧
      (fillEmpty is v len).2.2 ≤ ((fillEmpty is v len).2.1 i).free := by
  induction is generalizing v len with
  | nil =>
      have hzero : v.emptyRoom [] = 0 := rfl
      omega
  | cons i is ih =>
      obtain ⟨hi, hnodup⟩ := List.nodup_cons.mp hnodup
      unfold fillEmpty
      by_cases huntouched : (v i).untouched = true
      · rw [emptyRoom_cons_untouched huntouched] at h
        rw [if_pos huntouched]
        by_cases hfits : len ≤ (v i).free
        · rw [if_pos hfits]
          exact ⟨hpos, i, List.mem_cons_self, huntouched, hfits⟩
        · have hsame : (v.taken i (v i).free).emptyRoom is = v.emptyRoom is :=
            emptyRoom_congr fun j hj => taken_of_ne fun heq => hi (heq ▸ hj)
          have hmore : len - (v i).free ≤ (v.taken i (v i).free).emptyRoom is := by omega
          rw [if_neg hfits]
          obtain ⟨hrest, j, hj, hfound⟩ := ih hnodup (by omega) hmore
          exact ⟨hrest, j, List.mem_cons_of_mem _ hj, hfound⟩
      · rw [emptyRoom_cons_touched huntouched] at h
        rw [if_neg huntouched]
        obtain ⟨hrest, j, hj, hfound⟩ := ih hnodup hpos h
        exact ⟨hrest, j, List.mem_cons_of_mem _ hj, hfound⟩

/-- Where every untouched group has a free block, something is taken from each that is filled. -/
theorem fillEmpty_len_pos (hroom : ∀ i ∈ is, (v i).untouched = true → 0 < (v i).free) :
    ∀ p ∈ (fillEmpty is v len).1, 0 < p.len := by
  induction is generalizing v len with
  | nil => simp [fillEmpty]
  | cons i is ih =>
      have hrest := fun j hj => hroom j (List.mem_cons_of_mem i hj)
      unfold fillEmpty
      split
      · rename_i huntouched
        split
        · simp
        · refine List.forall_mem_cons.mpr ⟨hroom i List.mem_cons_self huntouched, ih ?_⟩
          intro j hj hj'
          by_cases hji : j = i
          · rw [hji, taken_self] at hj'
            cases hj'
          · rw [taken_of_ne hji] at hj' ⊢
            exact hrest j hj hj'
      · exact ih hrest

end View

/-! ## One region -/

/-- What the algorithm sees of the groups. -/
def view (g : Geometry) (bgs : Groups) : View := fun i =>
  ⟨(bgs i).freeBlocks, g.start i + (bgs i).firstFreeBlock, decide ((bgs i).dataBlocksUsed = 0)⟩

section Regions

variable {g : Geometry} {s s' : State} {bgs bgs' : Groups} {len i j : ℕ} {p : Piece}

theorem Takes.view_eq (hinv : GroupsInv g bgs) (h : Takes g bgs p bgs') (hpos : 0 < p.len)
    (huntouched : (bgs p.bg).dataBlocksUsed = 0) :
    view g bgs' = (view g bgs).taken p.bg p.len := by
  funext i
  by_cases hi : i = p.bg
  · subst hi
    have hend := (hinv p.bg h.bg_lt).end_le
    have hlt := g.info.blocksPerGroup_lt
    have hle := h.len_le
    have hused : (bgs' p.bg).dataBlocksUsed = p.len := by
      rw [h.dataBlocksUsed_eq, huntouched, Nat.zero_add]
      exact u32_of_lt (by omega)
    rw [View.taken_self]
    ext
    · exact h.freeBlocks_eq
    · show g.start p.bg + (bgs' p.bg).firstFreeBlock = g.start p.bg +
        (bgs p.bg).firstFreeBlock + p.len
      rw [h.firstFreeBlock_eq, Nat.add_assoc]
    · show decide ((bgs' p.bg).dataBlocksUsed = 0) = false
      rw [hused]
      exact decide_eq_false (by omega)
  · rw [View.taken_of_ne hi]
    show Room.mk _ _ _ = Room.mk _ _ _
    rw [h.group_of_ne hi]

/-- The search of `ext4_allocate_contiguous_blocks` when no group has enough. -/
theorem contiguousLoop_none (left : ℕ) :
    ∀ i, (∀ j, i ≤ j → j < i + left → (s.bgs j).freeBlocks < len) →
    contiguousLoop g len left i s = .ok (none, s) := by
  induction left with
  | zero => exact fun _ _ => rfl
  | succ left ih =>
      intro i hfew
      have hi : ext4AllocateBlocksFromBlockGroup g len i s = .ok (EXT4_ALLOCATE_FAILED, s) :=
        if_pos (hfew i le_rfl (by omega))
      rw [contiguousLoop, hi, bind_ok]
      simp only [ne_eq, not_true_eq_false, if_false]
      exact ih (i + 1) fun j h₁ h₂ => hfew j (by omega) (by omega)

/-- The search when group `j` is the first that has enough. -/
theorem contiguousLoop_some (hg : g.Fits) (hinv : GroupsInv g s.bgs) (hpos : 0 < len)
    (hj : j < g.aux.groups) (hfits : len ≤ (s.bgs j).freeBlocks) (left : ℕ) :
    ∀ i, i ≤ j → j < i + left → (∀ k, i ≤ k → k < j → (s.bgs k).freeBlocks < len) →
      ∃ s', contiguousLoop g len left i s = .ok (some s.regions.brk, s') ∧
        Allocates g s ⟨g.start j + (s.bgs j).firstFreeBlock, len, j⟩ s' := by
  induction left with
  | zero =>
      intro i _ _ _
      omega
  | succ left ih =>
      intro i hij hji hfew
      by_cases heq : i = j
      · subst heq
        obtain ⟨bitmap, -, hrun⟩ := fromBlockGroup_of_le hg hinv hj hfits
        obtain ⟨htakes, hs⟩ := fromBlockGroup_takes hg hinv hj hfits hrun
        obtain ⟨hp, halloc⟩ := allocates_newRegion htakes hs
        have hblock := htakes.block_eq hpos
        simp only at hblock
        rw [hblock] at halloc
        refine ⟨_, ?_, halloc⟩
        rw [contiguousLoop, hrun, bind_ok]
        simp only [ne_eq, htakes.block_ne_failed hg hinv hpos, not_false_eq_true, if_true]
        rw [hblock] at hp ⊢
        rw [← hp]
      · have hi : ext4AllocateBlocksFromBlockGroup g len i s = .ok (EXT4_ALLOCATE_FAILED, s) :=
          if_pos (hfew i le_rfl (by omega))
        rw [contiguousLoop, hi, bind_ok]
        simp only [ne_eq, not_true_eq_false, if_false]
        exact ih (i + 1) (by omega) (by omega) fun k h₁ h₂ => hfew k (by omega) h₂

theorem contiguous_none (h : View.firstFit g.aux.groups (view g s.bgs) len = none) :
    ext4AllocateContiguousBlocks g len s = .ok (none, s) :=
  contiguousLoop_none _ 0 fun j _ hj => View.firstFit_eq_none.mp h j (by omega)

theorem contiguous_some (hg : g.Fits) (hinv : GroupsInv g s.bgs) (hpos : 0 < len)
    (h : View.firstFit g.aux.groups (view g s.bgs) len = some j) :
    ∃ s', ext4AllocateContiguousBlocks g len s = .ok (some s.regions.brk, s') ∧
      Allocates g s ⟨(view g s.bgs j).next, len, j⟩ s' := by
  obtain ⟨hfits, hj, hfew⟩ := View.firstFit_eq_some.mp h
  exact contiguousLoop_some hg hinv hpos hj hfits _ 0 (Nat.zero_le _) (by omega)
    fun k _ hk => hfew k hk

/-- `ext4_allocate_partial` passes over the groups that are in use. -/
theorem partialLoop_skip {left : ℕ} (k : ℕ) (hused : ∀ j, i ≤ j → j < i + k →
    (s.bgs j).dataBlocksUsed ≠ 0) :
    partialLoop g len (k + left) i s = partialLoop g len left (i + k) s := by
  induction k generalizing i with
  | zero => rw [Nat.zero_add, Nat.add_zero]
  | succ k ih =>
      rw [show k + 1 + left = k + left + 1 by omega, partialLoop,
        if_neg (hused i le_rfl (by omega)), ih fun j h₁ h₂ => hused j (by omega) (by omega)]
      congr 1
      omega

theorem partial_none (hused : ∀ j < g.aux.groups, (s.bgs j).dataBlocksUsed ≠ 0) :
    ext4AllocatePartial g len s = .ok (none, s) := by
  have hskip :
      partialLoop g len (g.aux.groups + 0) 0 s = partialLoop g len 0 (0 + g.aux.groups) s :=
    partialLoop_skip _ fun j _ hj => hused j (by omega)
  exact hskip

/-- Group `k` is the first untouched one. -/
structure FirstUntouched (g : Geometry) (bgs : Groups) (k : ℕ) : Prop where
  lt : k < g.aux.groups
  untouched : (bgs k).dataBlocksUsed = 0
  used : ∀ j < k, (bgs j).dataBlocksUsed ≠ 0

theorem exists_firstUntouched (hi : i < g.aux.groups) (huntouched : (bgs i).dataBlocksUsed = 0) :
    ∃ k, FirstUntouched g bgs k := by
  have hex : ∃ k, k < g.aux.groups ∧ (bgs k).dataBlocksUsed = 0 := ⟨i, hi, huntouched⟩
  obtain ⟨hlt, hzero⟩ := Nat.find_spec hex
  exact ⟨Nat.find hex, hlt, hzero, fun j hj hused =>
    Nat.find_min hex hj ⟨hj.trans hlt, hused⟩⟩

variable {k : ℕ}

/-- `ext4_allocate_partial` gets to the first untouched group. -/
theorem FirstUntouched.partial_eq (h : FirstUntouched g s.bgs k) :
    ∃ left, ext4AllocatePartial g len s = partialLoop g len (left + 1) k s := by
  obtain ⟨left, hleft⟩ := Nat.exists_eq_add_of_lt h.lt
  have hskip : partialLoop g len (k + (left + 1)) 0 s = partialLoop g len (left + 1) (0 + k) s :=
    partialLoop_skip _ fun j _ hj => h.used j (by omega)
  rw [Nat.zero_add] at hskip
  refine ⟨left, ?_⟩
  unfold ext4AllocatePartial
  rw [hleft]
  exact hskip

/-- If the request fits there, the first group that can take it is used. -/
theorem FirstUntouched.partial_fits (h : FirstUntouched g s.bgs k)
    (hfits : len ≤ (s.bgs k).freeBlocks) :
    ext4AllocatePartial g len s = ext4AllocateContiguousBlocks g len s := by
  obtain ⟨left, hpart⟩ := h.partial_eq
  rw [hpart, partialLoop, if_pos h.untouched]
  exact if_pos hfits

/-- Otherwise the group is filled. -/
theorem FirstUntouched.partial_fills (hg : g.Fits) (hinv : GroupsInv g s.bgs)
    (h : FirstUntouched g s.bgs k) (hpos : 0 < (s.bgs k).freeBlocks)
    (hmore : (s.bgs k).freeBlocks < len) :
    ∃ s', ext4AllocatePartial g len s = .ok (some s.regions.brk, s') ∧
      Allocates g s ⟨(view g s.bgs k).next, (s.bgs k).freeBlocks, k⟩ s' := by
  obtain ⟨left, hpart⟩ := h.partial_eq
  obtain ⟨bitmap, -, hrun⟩ := fromBlockGroup_of_le hg hinv h.lt le_rfl
  obtain ⟨htakes, hs⟩ := fromBlockGroup_takes hg hinv h.lt le_rfl hrun
  obtain ⟨hp, halloc⟩ := allocates_newRegion htakes hs
  have hne := htakes.block_ne_failed hg hinv hpos
  have hblock : u32 (g.start k + (s.bgs k).firstFreeBlock) = (view g s.bgs k).next :=
    htakes.block_eq hpos
  rw [hblock] at hp halloc hne hrun
  refine ⟨_, ?_, halloc⟩
  rw [hpart, partialLoop, if_pos h.untouched]
  simp only [if_neg (not_le.mpr hmore), hrun, bind_ok, if_neg hne]
  rw [← hp]

/-- A group that has nothing is filled with nothing, and stays the first untouched one. -/
theorem FirstUntouched.partial_stuck (hg : g.Fits) (hinv : GroupsInv g s.bgs)
    (h : FirstUntouched g s.bgs k) (hzero : (s.bgs k).freeBlocks = 0) (hpos : 0 < len)
    {r : Option ℕ} (hrun : ext4AllocatePartial g len s = .ok (r, s')) :
    ∃ p, r = some s.regions.brk ∧ p.len = 0 ∧ Allocates g s p s' ∧
      FirstUntouched g s'.bgs k ∧ (s'.bgs k).freeBlocks = 0 := by
  obtain ⟨left, hpart⟩ := h.partial_eq
  rw [hpart, partialLoop, if_pos h.untouched] at hrun
  simp only [hzero, if_neg (not_le.mpr hpos), bind_eq_ok] at hrun
  obtain ⟨⟨block, s₁⟩, hcall, hrun⟩ := hrun
  obtain ⟨htakes, hs⟩ := fromBlockGroup_takes hg hinv h.lt (Nat.zero_le _) hcall
  obtain ⟨hp, halloc⟩ := allocates_newRegion htakes hs
  by_cases hblock : block = EXT4_ALLOCATE_FAILED
  · simp [hblock] at hrun
  · simp only [hblock, if_false, Except.ok.injEq, Prod.mk.injEq] at hrun
    obtain ⟨hr, rfl⟩ := hrun
    refine ⟨_, by rw [← hr, hp], rfl, halloc, ⟨h.lt, ?_, fun j hj => ?_⟩, ?_⟩
    · rw [halloc.takes.dataBlocksUsed_eq, h.untouched]
      rfl
    · rw [halloc.takes.group_of_ne (Nat.ne_of_lt hj)]
      exact h.used j hj
    · rw [halloc.takes.freeBlocks_eq, hzero]
      rfl

end Regions

/-! ## The rounds -/

section Rounds

variable {g : Geometry} {s s₁ s' : State} {len k fuel : ℕ} {p : Piece} {first prev : Option ℕ}

/-- The region that the next one is hung behind. -/
def HasPrev (h : RegionHeap) (prev : Option ℕ) : Prop :=
  ∀ q, prev = some q → q < h.brk ∧ ∃ r, h.node q = some r ∧ r.next = none

theorem HasPrev.next_eq_none {h : RegionHeap} (hprev : HasPrev h prev) :
    ∀ q r, prev = some q → h.node q = some r → r.next = none := by
  intro q r hq hr
  obtain ⟨-, r', hr', hnext⟩ := hprev q hq
  rw [hr', Option.some.injEq] at hr
  rw [← hr]
  exact hnext

theorem linkRegions_ok {h : RegionHeap} {reg : ℕ} {q : Region} (hprev : HasPrev h prev)
    (hreg : h.node reg = some q) : ∃ h', linkRegions h prev reg = .ok h' := by
  cases prev with
  | none => exact ⟨h, rfl⟩
  | some a =>
      obtain ⟨-, r, hr, -⟩ := hprev a rfl
      have hderef : h.deref (some a) = .ok r := RegionHeap.deref_some.mpr hr
      have hderef' : ∃ q', (h.write a { r with next := some reg }).deref (some reg) = .ok q' := by
        by_cases heq : reg = a
        · subst heq
          exact ⟨_, RegionHeap.deref_some.mpr (RegionHeap.write_node_self _ _ _)⟩
        · refine ⟨q, RegionHeap.deref_some.mpr ?_⟩
          rwa [RegionHeap.write_node_of_ne _ _ heq]
      obtain ⟨q', hq'⟩ := hderef'
      simp only [linkRegions, hderef, bind_ok, hq']
      exact ⟨_, rfl⟩

/-- One round of `ext4_allocate_multiple_contiguous_blocks`. -/
theorem multipleLoop_round (hlen : len ≠ 0) (hprev : HasPrev s.regions prev)
    (hpart : ext4AllocatePartial g len s = .ok (some s.regions.brk, s₁))
    (halloc : Allocates g s p s₁) :
    ∃ regions, multipleLoop g (fuel + 1) len first prev s =
        multipleLoop g fuel (len - p.len) (some (first.getD s.regions.brk)) (some s.regions.brk)
          { s₁ with regions := regions } ∧
      HasPrev regions (some s.regions.brk) ∧
      ∀ h' ns, Extends regions h' (some s.regions.brk) ns →
        Extends s.regions h' prev ((s.regions.brk, p) :: ns) := by
  obtain ⟨hbrk₁, hreg₁, hother₁⟩ := halloc.regions_eq
  have hprev₁ : HasPrev s₁.regions prev := by
    intro q hq
    obtain ⟨hlt, r, hr, hnext⟩ := hprev q hq
    exact ⟨by omega, r, by rw [hother₁ q (by omega)]; exact hr, hnext⟩
  obtain ⟨regions, hlink⟩ := linkRegions_ok hprev₁ hreg₁
  obtain ⟨hbrk₂, hreg₂, hnext₂, hother₂⟩ := linkRegions_cases hreg₁
    (fun h => absurd (hprev _ h).1 (lt_irrefl _)) hlink
  have hderef : regions.deref (some s.regions.brk) = .ok (p.region none prev) :=
    RegionHeap.deref_some.mpr hreg₂
  refine ⟨regions, ?_, ?_, fun h' ns hext => ?_⟩
  · rw [multipleLoop, if_neg hlen, hpart, bind_ok]
    simp only [hlink, bind_ok, hderef]
    rfl
  · intro q hq
    obtain rfl := Option.some.inj hq
    exact ⟨by omega, _, hreg₂, rfl⟩
  · exact Extends.cons hbrk₁ hother₁ hbrk₂ hreg₂ hnext₂ hother₂ (fun q hq => (hprev q hq).1) hext

/-- At an untouched group that has nothing the loop goes on for ever. -/
theorem multipleLoop_stuck (hg : g.Fits) (fuel : ℕ) : ∀ (len : ℕ) (first prev : Option ℕ)
    (s : State), GroupsInv g s.bgs → HasPrev s.regions prev → FirstUntouched g s.bgs k →
    (s.bgs k).freeBlocks = 0 → 0 < len → ∀ r, multipleLoop g fuel len first prev s ≠ .ok r := by
  induction fuel with
  | zero =>
      intro len first prev s _ _ _ _ hpos r
      rw [multipleLoop, if_neg (by omega)]
      exact fun h => by cases h
  | succ fuel ih =>
      intro len first prev s hinv hprev hfirst hzero hpos r hrun
      cases hpart : ext4AllocatePartial g len s with
      | error e =>
          rw [multipleLoop, if_neg (by omega), hpart, bind_error] at hrun
          cases hrun
      | ok x =>
          obtain ⟨reg, s₁⟩ := x
          obtain ⟨p, rfl, hlen, halloc, hfirst₁, hzero₁⟩ :=
            hfirst.partial_stuck hg hinv hzero hpos hpart
          obtain ⟨regions, hround, hprev₁, -⟩ :=
            multipleLoop_round (by omega) hprev hpart halloc
          rw [hround] at hrun
          exact ih _ _ _ { s₁ with regions := regions } (halloc.takes.inv hinv) hprev₁ hfirst₁
            hzero₁ (by omega) r hrun

/-- A group that has been filled is in use. -/
theorem used_of_fills {bgs bgs' : Groups} {block n : ℕ} (hinv : GroupsInv g bgs)
    (htakes : Takes g bgs ⟨block, n, k⟩ bgs') (hpos : 0 < n)
    (huntouched : (bgs k).dataBlocksUsed = 0) (hused : ∀ j < k, (bgs j).dataBlocksUsed ≠ 0) :
    ∀ j < k + 1, (bgs' j).dataBlocksUsed ≠ 0 := by
  intro j hj
  have hview : (view g bgs' j).untouched = false := by
    rw [htakes.view_eq hinv hpos huntouched]
    by_cases hjk : j = k
    · rw [hjk, View.taken_self]
    · rw [View.taken_of_ne hjk]
      exact decide_eq_false (hused j (by omega))
  exact of_decide_eq_false hview

/-- The pieces that the loop takes and how it ends: with the last of them at an untouched group, or
with nothing when there is no such group left. -/
theorem multipleLoop_fills (hg : g.Fits) (left : ℕ) : ∀ (k fuel len : ℕ) (first prev : Option ℕ)
    (s : State), k + left = g.aux.groups → left < fuel → GroupsInv g s.bgs →
    HasPrev s.regions prev → 0 < len → (∀ j < k, (s.bgs j).dataBlocksUsed ≠ 0) →
    (∀ p ∈ (View.fillEmpty (List.range' k left) (view g s.bgs) len).1, 0 < p.len) →
    let filled := View.fillEmpty (List.range' k left) (view g s.bgs) len
    ∃ r s' ns, multipleLoop g fuel len first prev s = .ok (r, s') ∧
      Extends s.regions s'.regions prev ns ∧ TakesAll g s.bgs (ns.map Prod.snd) s'.bgs ∧
      ((∃ i < g.aux.groups, (filled.2.1 i).untouched = true) ∧
        (∃ j, View.firstFit g.aux.groups filled.2.1 filled.2.2 = some j ∧
          r = first.or (headAddr ns) ∧
          ns.map Prod.snd = filled.1 ++ [⟨(filled.2.1 j).next, filled.2.2, j⟩]) ∨
        r = none ∧ (∀ j < g.aux.groups, (filled.2.1 j).untouched = false) ∧
          ns.map Prod.snd = filled.1) := by
  induction left with
  | zero =>
      intro k fuel len first prev s hk hfuel hinv hprev hpos hused _
      obtain ⟨fuel, rfl⟩ := Nat.exists_eq_succ_of_ne_zero (by omega : fuel ≠ 0)
      have hnone : ext4AllocatePartial g len s = .ok (none, s) :=
        partial_none fun j hj => hused j (by omega)
      refine ⟨none, s, [], ?_, Extends.refl hprev.next_eq_none, .nil _, .inr ⟨rfl, ?_, rfl⟩⟩
      · rw [multipleLoop, if_neg (by omega), hnone]
        rfl
      · exact fun j hj => decide_eq_false (hused j (by omega))
  | succ left ih =>
      intro k fuel len first prev s hk hfuel hinv hprev hpos hused hlens
      rw [List.range'_succ, View.fillEmpty] at hlens ⊢
      by_cases huntouched : (s.bgs k).dataBlocksUsed = 0
      · have hfirst : FirstUntouched g s.bgs k := ⟨by omega, huntouched, hused⟩
        obtain ⟨fuel, rfl⟩ := Nat.exists_eq_succ_of_ne_zero (by omega : fuel ≠ 0)
        have hview : (view g s.bgs k).untouched = true := decide_eq_true huntouched
        rw [if_pos hview] at hlens ⊢
        by_cases hfits : len ≤ (s.bgs k).freeBlocks
        · -- the request ends here, in the first group that can take it
          rw [if_pos (show len ≤ (view g s.bgs k).free from hfits)]
          obtain ⟨j, hj⟩ := View.exists_firstFit (v := view g s.bgs) hfirst.lt hfits
          obtain ⟨s₁, hrun, halloc⟩ := contiguous_some hg hinv hpos hj
          obtain ⟨regions, hround, hprev₁, hext⟩ :=
            multipleLoop_round (by omega) hprev ((hfirst.partial_fits hfits).trans hrun) halloc
          have htakes : TakesAll g s.bgs [⟨(view g s.bgs j).next, len, j⟩] s₁.bgs :=
            .single halloc.takes
          refine ⟨some (first.getD s.regions.brk), { s₁ with regions := regions },
            [(s.regions.brk, _)], ?_, hext regions [] (Extends.refl hprev₁.next_eq_none), htakes,
            .inl ⟨⟨k, hfirst.lt, decide_eq_true huntouched⟩, j, hj, ?_, rfl⟩⟩
          · rw [hround, Nat.sub_self]
            cases fuel <;> rfl
          · cases first <;> rfl
        · rw [if_neg (show ¬ len ≤ (view g s.bgs k).free from hfits)] at hlens ⊢
          have hfree : 0 < (s.bgs k).freeBlocks := hlens _ List.mem_cons_self
          obtain ⟨s₁, hrun, halloc⟩ := hfirst.partial_fills hg hinv hfree (not_le.mp hfits)
          obtain ⟨regions, hround, hprev₁, hext⟩ := multipleLoop_round (by omega) hprev hrun halloc
          have hview : view g s₁.bgs = (view g s.bgs).taken k (view g s.bgs k).free :=
            halloc.takes.view_eq hinv hfree huntouched
          have hused₁ : ∀ j < k + 1, (s₁.bgs j).dataBlocksUsed ≠ 0 :=
            used_of_fills hinv halloc.takes hfree huntouched hused
          have hlens₁ : ∀ p ∈ (View.fillEmpty (List.range' (k + 1) left) (view g s₁.bgs)
              (len - (s.bgs k).freeBlocks)).1, 0 < p.len := by
            rw [hview]
            exact fun p hp => hlens p (List.mem_cons_of_mem _ hp)
          obtain ⟨r, s', ns, hloop, hext', htakes, hcases⟩ :=
            ih (k + 1) fuel (len - (s.bgs k).freeBlocks) (some (first.getD s.regions.brk))
              (some s.regions.brk) { s₁ with regions := regions } (by omega) (by omega)
              (halloc.takes.inv hinv) hprev₁ (by omega) hused₁ hlens₁
          rw [show ({ s₁ with regions := regions } : State).bgs = s₁.bgs from rfl, hview] at hcases
          refine ⟨r, s', _, hround.trans hloop, hext _ ns hext', .cons halloc.takes htakes, ?_⟩
          obtain ⟨huntouched', j, hj, hr, hps⟩ | ⟨hr, hall, hps⟩ := hcases
          · refine .inl ⟨huntouched', j, hj, ?_, ?_⟩
            · rw [hr]
              cases first <;> rfl
            · rw [List.map_cons, hps]
              rfl
          · refine .inr ⟨hr, hall, ?_⟩
            rw [List.map_cons, hps]
            rfl
      · have hview : ¬ (view g s.bgs k).untouched = true := by simpa [view] using huntouched
        rw [if_neg hview] at hlens ⊢
        refine ih (k + 1) fuel len first prev s (by omega) (by omega) hinv hprev hpos ?_ hlens
        intro j hj
        obtain hlt | rfl : j < k ∨ j = k := by omega
        · exact hused j hlt
        · exact huntouched

/-- Where an untouched group has nothing to fill, the loop does not get past it. -/
theorem multipleLoop_fills_stuck (hg : g.Fits) (left : ℕ) : ∀ (k fuel len : ℕ)
    (first prev : Option ℕ) (s : State), k + left = g.aux.groups → GroupsInv g s.bgs →
    HasPrev s.regions prev → 0 < len → (∀ j < k, (s.bgs j).dataBlocksUsed ≠ 0) →
    (∃ p ∈ (View.fillEmpty (List.range' k left) (view g s.bgs) len).1, p.len = 0) →
    ∀ r, multipleLoop g fuel len first prev s ≠ .ok r := by
  induction left with
  | zero =>
      intro k fuel len first prev s _ _ _ _ _ hzero
      simp [View.fillEmpty] at hzero
  | succ left ih =>
      intro k fuel len first prev s hk hinv hprev hpos hused hzero r hrun
      rw [List.range'_succ, View.fillEmpty] at hzero
      by_cases huntouched : (s.bgs k).dataBlocksUsed = 0
      · have hfirst : FirstUntouched g s.bgs k := ⟨by omega, huntouched, hused⟩
        have hview : (view g s.bgs k).untouched = true := decide_eq_true huntouched
        rw [if_pos hview] at hzero
        by_cases hfits : len ≤ (s.bgs k).freeBlocks
        · rw [if_pos (show len ≤ (view g s.bgs k).free from hfits)] at hzero
          simp at hzero
        · rw [if_neg (show ¬ len ≤ (view g s.bgs k).free from hfits)] at hzero
          rcases Nat.eq_zero_or_pos (s.bgs k).freeBlocks with hnone | hfree
          · exact multipleLoop_stuck hg fuel len first prev s hinv hprev hfirst hnone hpos r hrun
          · obtain ⟨s₁, hpart, halloc⟩ := hfirst.partial_fills hg hinv hfree (not_le.mp hfits)
            obtain ⟨p, hp, hlen⟩ := hzero
            have hrest : p ∈ (View.fillEmpty (List.range' (k + 1) left) ((view g s.bgs).taken k
                (s.bgs k).freeBlocks) (len - (s.bgs k).freeBlocks)).1 := by
              refine (List.mem_cons.mp hp).resolve_left ?_
              rintro rfl
              exact hfree.ne' hlen
            cases fuel with
            | zero =>
                rw [multipleLoop, if_neg (by omega)] at hrun
                cases hrun
            | succ fuel =>
                obtain ⟨regions, hround, hprev₁, -⟩ :=
                  multipleLoop_round (by omega) hprev hpart halloc
                rw [hround] at hrun
                refine ih (k + 1) fuel (len - (s.bgs k).freeBlocks) _ _
                  { s₁ with regions := regions } (by omega) (halloc.takes.inv hinv) hprev₁
                  (by omega) ?_ ⟨p, ?_, hlen⟩ r hrun
                · exact used_of_fills hinv halloc.takes hfree huntouched hused
                · rwa [← halloc.takes.view_eq hinv hfree huntouched] at hrest
      · have hview : ¬ (view g s.bgs k).untouched = true := by simpa [view] using huntouched
        rw [if_neg hview] at hzero
        refine ih (k + 1) fuel len first prev s (by omega) hinv hprev hpos ?_ hzero r hrun
        intro j hj
        obtain hlt | rfl : j < k ∨ j = k := by omega
        · exact hused j hlt
        · exact huntouched

/-- A round of the loop takes a block, or it has come to a group without any. -/
theorem partial_pos_or_stuck (hg : g.Fits) (hinv : GroupsInv g s.bgs) (hpos : 0 < len)
    {r : Option ℕ} (hrun : ext4AllocatePartial g len s = .ok (r, s₁))
    (halloc : Allocates g s p s₁) :
    0 < p.len ∨ ∃ k, FirstUntouched g s₁.bgs k ∧ (s₁.bgs k).freeBlocks = 0 := by
  -- the region says which piece it is
  have hsame : ∀ {q : Piece}, Allocates g s q s₁ → q = p := by
    intro q hq
    have hregion := halloc.regions_eq.2.1
    rw [hq.regions_eq.2.1, Option.some.injEq] at hregion
    obtain ⟨hblock, hlen, hbg, -⟩ := Region.mk.inj hregion
    cases p
    cases q
    simp only at hblock hlen hbg
    rw [hblock, hlen, hbg]
  by_cases hall : ∀ j < g.aux.groups, (s.bgs j).dataBlocksUsed ≠ 0
  · rw [partial_none hall, Except.ok.injEq, Prod.mk.injEq] at hrun
    have hbrk := halloc.regions_eq.1
    rw [← hrun.2] at hbrk
    omega
  · push Not at hall
    obtain ⟨j, hj, huntouched⟩ := hall
    obtain ⟨k, hfirst⟩ := exists_firstUntouched hj huntouched
    obtain hzero | hfree := Nat.eq_zero_or_pos (s.bgs k).freeBlocks
    · obtain ⟨q, -, -, -, hfirst₁, hzero₁⟩ := hfirst.partial_stuck hg hinv hzero hpos hrun
      exact .inr ⟨k, hfirst₁, hzero₁⟩
    · left
      obtain hfits | hmore := Nat.lt_or_ge (s.bgs k).freeBlocks len
      · obtain ⟨s₂, hrun₂, halloc₂⟩ := hfirst.partial_fills hg hinv hfree hfits
        rw [hrun₂, Except.ok.injEq, Prod.mk.injEq] at hrun
        rw [← hsame (hrun.2 ▸ halloc₂)]
        exact hfree
      · obtain ⟨i, hi⟩ := View.exists_firstFit (v := view g s.bgs) hfirst.lt hmore
        obtain ⟨s₂, hrun₂, halloc₂⟩ := contiguous_some hg hinv hpos hi
        rw [hfirst.partial_fits hmore, hrun₂, Except.ok.injEq, Prod.mk.injEq] at hrun
        rw [← hsame (hrun.2 ▸ halloc₂)]
        exact hpos

/-- An allocation begins with a region that is not empty. -/
theorem doAllocate_head (hg : g.Fits) (hinv : GroupsInv g s.bgs) (hpos : 0 < len) {a : ℕ}
    (hrun : doAllocate g len s = .ok (some a, s')) :
    ∃ p ns, Extends s.regions s'.regions none ((a, p) :: ns) ∧
      TakesMany g len s.bgs (p :: ns.map Prod.snd) s'.bgs ∧ 0 < p.len := by
  have hnoPrev : HasPrev s.regions none := fun q hq => by cases hq
  obtain ⟨b, hcall, hb⟩ | ⟨s₁, hcall, hloop⟩ := doAllocate_eq_ok.mp hrun
  · cases hb
    obtain ⟨hnone, -⟩ | ⟨p, hlen, hsome, halloc⟩ := contiguous_cases hg hinv hpos hcall
    · cases hnone
    · cases hsome
      exact ⟨p, [], halloc.extends,
        .cons hpos halloc.takes (Or.inl hlen) (by simpa [hlen] using TakesMany.nil _), by omega⟩
  · obtain ⟨-, rfl, -⟩ | ⟨p, -, hsome, -⟩ := contiguous_cases hg hinv hpos hcall
    swap
    · cases hsome
    simp only [ext4AllocateMultipleContiguousBlocks] at hloop
    cases hpart : ext4AllocatePartial g len s₁ with
    | error e =>
        rw [multipleLoop, if_neg (by omega), hpart, bind_error] at hloop
        cases hloop
    | ok x =>
        obtain ⟨reg, s₂⟩ := x
        obtain ⟨rfl, rfl⟩ | ⟨p, rfl, halloc, hshare⟩ := partial_cases hg hinv hpos hpart
        · rw [multipleLoop, if_neg (by omega), hpart, bind_ok] at hloop
          cases hloop
        · obtain ⟨regions, hround, hprev₁, hext⟩ :=
            multipleLoop_round (by omega) hnoPrev hpart halloc
          rw [hround] at hloop
          obtain ⟨-, ns, hext', ⟨hr, hmany⟩ | ⟨hr, -⟩⟩ := multipleLoop_cases hg g.aux.groups _ _ _
            { s₂ with regions := regions } (halloc.takes.inv hinv) (fun q hq => (hprev₁ q hq).1)
            hprev₁.next_eq_none hloop
          · obtain rfl : a = s₁.regions.brk := Option.some.inj hr
            refine ⟨p, ns, hext _ ns hext', .cons hpos halloc.takes hshare hmany, ?_⟩
            obtain hlen | ⟨k, hfirst, hzero⟩ := partial_pos_or_stuck hg hinv hpos hpart halloc
            · exact hlen
            · by_contra hnone
              exact multipleLoop_stuck hg g.aux.groups _ _ _ { s₂ with regions := regions }
                (halloc.takes.inv hinv) hprev₁ hfirst hzero (by omega) _ hloop
          · cases hr

theorem allocateBlocks_first_pos (hg : g.Fits) (hinv : GroupsInv g s.bgs) (hpos : 0 < len) {a : ℕ}
    {r : Region} (hrun : allocateBlocks g len s = .ok (some (freshAllocation a), s'))
    (hr : s'.regions.node a = some r) : 0 < r.len := by
  obtain ⟨reg, hdo, hfresh⟩ := allocateBlocks_eq_ok.mp hrun
  cases reg with
  | none => cases hfresh
  | some b =>
      cases hfresh
      obtain ⟨p, ns, hext, -, hlen⟩ := doAllocate_head hg hinv hpos hdo
      rw [hext.linked.1, Option.some.injEq] at hr
      subst hr
      exact hlen

end Rounds

end SystemExtras.Ext4
