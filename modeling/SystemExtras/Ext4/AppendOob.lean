import SystemExtras.Ext4.AllocateOutcomes
import SystemExtras.Ext4.RegionMoves
import SystemExtras.Ext4.Resize

/-!
# Appending an allocation to a list

`append_oob_allocation` allocates blocks and appends the regions that hold them to the second list
of an allocation.  Its loop takes the regions one after the other along their links, and hands each
of them to `region_list_append`.  That function makes the region the last of its list, so the link
that the loop follows next is always clear: the first region is appended, and the regions behind it
are lost, with their blocks still taken (`appendOobAllocation_eq`).

`do_allocate` returns more than one region only when no group can take the request as a whole.
-/

namespace SystemExtras.Ext4

open RegionHeap

/-- The regions from `a` on, in the order of the list.  `fuel` bounds their number. -/
def regionsFrom (h : RegionHeap) : ℕ → Option ℕ → List Piece
  | 0, _ => []
  | _ + 1, none => []
  | fuel + 1, some a =>
      match h.node a with
      | none => []
      | some r => ⟨r.block, r.len, r.bg⟩ :: regionsFrom h fuel r.next

/-- The regions of a list are `os`.  Its cursor may be anywhere. -/
structure HasRegions (h : RegionHeap) (list : RegionList) (os : List ℕ) : Prop where
  threaded : Threaded h.nextOf os none
  nodup : os.Nodup
  first : list.first = os.head?
  last : os ≠ [] → list.last = os.getLast?
  nodes : ∀ a ∈ os, a < h.brk ∧ ∃ r, h.node a = some r

section Lists

variable {h h' : RegionHeap} {list : RegionList} {os : List ℕ} {a fuel : ℕ}

theorem regionsFrom_head (hthread : Threaded h.nextOf os none)
    (hnodes : ∀ a ∈ os, ∃ r, h.node a = some r) (hfuel : os.length ≤ fuel) :
    regionsFrom h fuel os.head? = os.filterMap h.piece := by
  induction os generalizing fuel with
  | nil => cases fuel <;> rfl
  | cons a os ih =>
      obtain ⟨fuel, rfl⟩ : ∃ m, fuel = m + 1 :=
        ⟨fuel - 1, by rw [List.length_cons] at hfuel; omega⟩
      obtain ⟨r, hr⟩ := hnodes a List.mem_cons_self
      have hnext : r.next = os.head? := by rw [← nextOf_eq hr, hthread.1, Option.or_none]
      have hrest := ih hthread.2 (fun b hb => hnodes b (List.mem_cons_of_mem a hb))
        (Nat.le_of_succ_le_succ hfuel)
      simp only [List.head?_cons, regionsFrom, hr]
      rw [List.filterMap_cons_some (piece_eq hr), hnext, hrest]

theorem HasRegions.regionsFrom_first (hl : HasRegions h list os) :
    regionsFrom h h.brk list.first = os.filterMap h.piece := by
  have hlength := length_le_of_nodup hl.nodup fun a ha => (hl.nodes a ha).1
  rw [hl.first]
  exact regionsFrom_head hl.threaded (fun a ha => (hl.nodes a ha).2) hlength

/-- Regions made later do not disturb a list. -/
theorem HasRegions.congr (hl : HasRegions h list os) (hsame : ∀ a < h.brk, h'.node a = h.node a)
    (hbrk : h.brk ≤ h'.brk) : HasRegions h' list os where
  threaded := hl.threaded.congr fun a ha => by rw [nextOf, nextOf, hsame a (hl.nodes a ha).1]
  nodup := hl.nodup
  first := hl.first
  last := hl.last
  nodes a ha := by
    rw [hsame a (hl.nodes a ha).1]
    exact ⟨(hl.nodes a ha).1.trans_le hbrk, (hl.nodes a ha).2⟩

/-- `region_list_append`: nothing is behind the region afterwards. -/
theorem HasRegions.append (hl : HasRegions h list os) (ha : a < h.brk)
    (hnode : ∃ r, h.node a = some r) (hfresh : a ∉ os) :
    ∃ list' h', regionListAppend list a h = .ok (list', h') ∧ HasRegions h' list' (os ++ [a]) ∧
      h'.piece = h.piece ∧ h'.brk = h.brk ∧ h'.nextOf a = none := by
  obtain ⟨list', h', hrun, hfirst, hlast, hpiece, hbrk, hthread, -, -⟩ :=
    regionListAppend_eq hnode hl.first hl.last (fun b hb => (hl.nodes b hb).2) hfresh hl.nodup
      hl.threaded
  have hnodes : ∀ b ∈ os ++ [a], b < h.brk ∧ ∃ r, h.node b = some r := by
    intro b hb
    rcases List.mem_append.mp hb with hb | hb
    · exact hl.nodes b hb
    · rw [List.mem_singleton.mp hb]
      exact ⟨ha, hnode⟩
  refine ⟨list', h', hrun, ⟨hthread, ?_, hfirst, fun _ => hlast, fun b hb => ?_⟩, hpiece, hbrk, ?_⟩
  · exact List.nodup_append.mpr ⟨hl.nodup, List.nodup_singleton a,
      fun b hb c hc => by rintro rfl; exact hfresh (List.mem_singleton.mp hc ▸ hb)⟩
  · obtain ⟨hlt, hsome⟩ := hnodes b hb
    exact ⟨hbrk ▸ hlt, exists_node_of_piece hpiece hsome⟩
  · have hlink := (threaded_append.mp hthread).2.1
    rwa [List.head?_nil, Option.none_or] at hlink

/-- The loop of `append_oob_allocation` has one round. -/
theorem HasRegions.appendOobLoop_eq (hl : HasRegions h list os) (fuel : ℕ) (ha : a < h.brk)
    (hnode : ∃ r, h.node a = some r) (hfresh : a ∉ os) :
    ∃ list' h', appendOobLoop (fuel + 1) (some a) list h = .ok (list', h') ∧
      HasRegions h' list' (os ++ [a]) ∧ h'.piece = h.piece ∧ h'.brk = h.brk := by
  obtain ⟨list', h', hrun, hl', hpiece, hbrk, hlink⟩ := hl.append ha hnode hfresh
  obtain ⟨r, hr⟩ := exists_node_of_piece hpiece hnode
  rw [nextOf_eq hr] at hlink
  refine ⟨list', h', ?_, hl', hpiece, hbrk⟩
  rw [appendOobLoop, hrun, bind_ok]
  simp only [deref_some.mpr hr, bind_ok, hlink]
  cases fuel <;> rfl

end Lists

theorem Linked.regionsFrom_eq {h : RegionHeap} {ns : List (ℕ × Piece)} :
    ∀ {prev : Option ℕ} {fuel : ℕ}, Linked h prev ns → ns.length ≤ fuel →
      regionsFrom h fuel (headAddr ns) = ns.map Prod.snd := by
  induction ns with
  | nil =>
      intro prev fuel _ _
      cases fuel <;> rfl
  | cons n rest ih =>
      intro prev fuel hlink hfuel
      obtain ⟨fuel, rfl⟩ : ∃ m, fuel = m + 1 :=
        ⟨fuel - 1, by rw [List.length_cons] at hfuel; omega⟩
      have hrest := ih hlink.2 (Nat.le_of_succ_le_succ hfuel)
      show regionsFrom h (fuel + 1) (some n.1) = _
      simp only [regionsFrom, hlink.1, List.map_cons, ← hrest]
      rfl

section Allocation

variable {g : Geometry} {s s₁ : State} {alloc : BlockAllocation} {os : List ℕ} {len reg : ℕ}

/-- What `do_allocate` returns is all of the request, in new regions. -/
theorem exists_regions_of_doAllocate (hg : g.Fits) (hinv : GroupsInv g s.bgs) (hpos : 1 ≤ len)
    (hrun : doAllocate g len s = .ok (some reg, s₁)) :
    ∃ p rest, Extends s.regions s₁.regions none ((reg, p) :: rest) ∧
      TakesMany g len s.bgs (p :: rest.map Prod.snd) s₁.bgs := by
  obtain ⟨-, ns, hext, ⟨hreg, hmany⟩ | ⟨hreg, -⟩⟩ := doAllocate_cases hg hinv hpos hrun
  · cases ns with
    | nil => cases hreg
    | cons n rest =>
        cases hreg
        exact ⟨n.2, rest, hext, hmany⟩
  · cases hreg

/-- It is one region exactly when some group has as many free blocks. -/
theorem eq_nil_iff_of_doAllocate (hg : g.Fits) (hinv : GroupsInv g s.bgs) (hpos : 1 ≤ len)
    (hrun : doAllocate g len s = .ok (some reg, s₁)) {p : Piece} {rest : List (ℕ × Piece)}
    (hext : Extends s.regions s₁.regions none ((reg, p) :: rest))
    (hmany : TakesMany g len s.bgs (p :: rest.map Prod.snd) s₁.bgs) :
    rest = [] ↔ ∃ i < g.aux.groups, len ≤ (s.bgs i).freeBlocks := by
  constructor
  · rintro rfl
    have hlen : p.len = len := by simpa using hmany.lenOf_eq
    cases hmany with
    | cons _ head _ _ => exact ⟨p.bg, head.bg_lt, hlen ▸ head.len_le⟩
  · rintro ⟨i, hi, hfree⟩
    obtain ⟨j, hfit⟩ := View.exists_firstFit (v := view g s.bgs) hi hfree
    obtain ⟨s', hrun', hnode, -⟩ := doAllocate_fits hg hinv hpos hfit
    obtain ⟨hreg, rfl⟩ := Prod.mk.inj (Except.ok.inj (hrun.symm.trans hrun'))
    obtain rfl := Option.some.inj hreg
    -- the same region, once with nothing behind it
    have hsame := Option.some.inj (hext.linked.1.symm.trans hnode)
    have hnext : headAddr rest = none := congrArg Region.next hsame
    cases rest with
    | nil => rfl
    | cons n rest => cases hnext

/-- `append_oob_allocation` appends the first of the new regions. -/
theorem appendOobAllocation_eq (hl : HasRegions s.regions alloc.oobList os)
    (hrun : doAllocate g len s = .ok (some reg, s₁)) {p : Piece} {rest : List (ℕ × Piece)}
    (hext : Extends s.regions s₁.regions none ((reg, p) :: rest)) :
    ∃ alloc' s', appendOobAllocation g alloc len s = .ok (alloc', s') ∧
      HasRegions s'.regions alloc'.oobList (os ++ [reg]) ∧
      regionsFrom s'.regions s'.regions.brk alloc'.oobList.first =
        regionsFrom s.regions s.regions.brk alloc.oobList.first ++ [p] := by
  have hframe : ∀ q < s.regions.brk, s₁.regions.node q = s.regions.node q :=
    fun q hq => hext.frame q hq (by simp)
  obtain ⟨hbehind, hlt⟩ := hext.fresh (reg, p) List.mem_cons_self
  have hfresh : reg ∉ os := fun hmem => absurd (hl.nodes reg hmem).1 (not_lt.mpr hbehind)
  have hnode := hext.linked.1
  obtain ⟨list', h', hloop, hl', hpiece, -⟩ :=
    (hl.congr hframe hext.brk_le).appendOobLoop_eq s₁.regions.brk hlt ⟨_, hnode⟩ hfresh
  refine ⟨{ alloc with oobList := list' }, { s₁ with regions := h' }, ?_, hl', ?_⟩
  · rw [appendOobAllocation, hrun, bind_ok]
    simp only [hloop, bind_ok]
  · have hold : os.filterMap s₁.regions.piece = os.filterMap s.regions.piece :=
      List.filterMap_congr fun b hb => by rw [piece, piece, hframe b (hl.nodes b hb).1]
    have hnew : s₁.regions.piece reg = some p := piece_eq hnode
    rw [hl'.regionsFrom_first, hl.regionsFrom_first, List.filterMap_append, hpiece, hold,
      List.filterMap_cons_some hnew, List.filterMap_nil]

/-- `append_oob_allocation` adds to the second list the regions that `do_allocate` returns, in
order and behind the others: `len` blocks. -/
def AppendsAll (g : Geometry) (alloc : BlockAllocation) (len : ℕ) (s : State) : Prop :=
  ∃ reg s₁ alloc' s', doAllocate g len s = .ok (some reg, s₁) ∧
    appendOobAllocation g alloc len s = .ok (alloc', s') ∧
    regionsFrom s'.regions s'.regions.brk alloc'.oobList.first =
      regionsFrom s.regions s.regions.brk alloc.oobList.first ++
        regionsFrom s₁.regions s₁.regions.brk (some reg) ∧
    lenOf (regionsFrom s'.regions s'.regions.brk alloc'.oobList.first) =
      lenOf (regionsFrom s.regions s.regions.brk alloc.oobList.first) + len

/-- **When everything is appended that was allocated**: if a group can take the whole request. -/
theorem appendsAll_iff (hg : g.Fits) (hreach : Reachable g s) (hpos : 1 ≤ len)
    (hl : HasRegions s.regions alloc.oobList os)
    (hrun : doAllocate g len s = .ok (some reg, s₁)) :
    AppendsAll g alloc len s ↔ ∃ i < g.aux.groups, len ≤ (s.bgs i).freeBlocks := by
  have hinv := (hreach.inv hg).1
  obtain ⟨p, rest, hext, hmany⟩ := exists_regions_of_doAllocate hg hinv hpos hrun
  obtain ⟨alloc', s', happend, -, hregions⟩ := appendOobAllocation_eq hl hrun hext
  have hreturned : regionsFrom s₁.regions s₁.regions.brk (some reg) = p :: rest.map Prod.snd :=
    hext.linked.regionsFrom_eq hext.length_le
  rw [← eq_nil_iff_of_doAllocate hg hinv hpos hrun hext hmany]
  constructor
  · rintro ⟨reg', s₁', alloc'', s'', hrun', happend', hall, -⟩
    obtain ⟨hreg, rfl⟩ := Prod.mk.inj (Except.ok.inj (hrun.symm.trans hrun'))
    obtain rfl := Option.some.inj hreg
    obtain ⟨rfl, rfl⟩ := Prod.mk.inj (Except.ok.inj (happend.symm.trans happend'))
    rw [hregions, hreturned] at hall
    have htail : [] = rest.map Prod.snd := (List.cons.inj (List.append_cancel_left hall)).2
    exact List.map_eq_nil_iff.mp htail.symm
  · rintro rfl
    have hlen : p.len = len := by simpa using hmany.lenOf_eq
    refine ⟨reg, s₁, alloc', s', hrun, happend, by rw [hregions, hreturned]; rfl, ?_⟩
    rw [hregions, lenOf_append, lenOf_cons, lenOf_nil, hlen, Nat.add_zero]

end Allocation

/-- The list of a new allocation has no regions. -/
theorem hasRegions_createAllocation (h : RegionHeap) :
    HasRegions h createAllocation.oobList [] :=
  ⟨trivial, List.nodup_nil, rfl, fun h => absurd rfl h, by simp⟩

/-- The first group of the tiny device has eleven free blocks. -/
theorem appendsAll_iff_tiny : ∃ s, Reachable tiny s ∧ AppendsAll tiny createAllocation 11 s := by
  obtain ⟨r, hreach, hfree⟩ := exists_tinyRun [] (fun r => 11 ≤ (r.st.bgs 0).freeBlocks)
    (by decide) (by decide)
  have hgroups : 0 < tiny.aux.groups := by decide
  have hinv := (hreach.inv roomy_tiny.fits).1
  obtain ⟨j, hfit⟩ := View.exists_firstFit (v := view tiny r.st.bgs) hgroups hfree
  obtain ⟨s₁, hrun, -⟩ := doAllocate_fits roomy_tiny.fits hinv (by decide) hfit
  exact ⟨r.st, hreach, (appendsAll_iff roomy_tiny.fits hreach (by decide)
    (hasRegions_createAllocation _) hrun).mpr ⟨0, hgroups, hfree⟩⟩

/-- Twelve blocks are one more: `do_allocate` returns two regions, and one of them is appended. -/
theorem not_appendsAll_tiny : ∃ s reg s₁, Reachable tiny s ∧
    HasRegions s.regions createAllocation.oobList [] ∧
    doAllocate tiny 12 s = .ok (some reg, s₁) ∧
    regionsFrom s₁.regions s₁.regions.brk (some reg) = [⟨6, 11, 0⟩, ⟨22, 1, 1⟩] ∧
    ¬ AppendsAll tiny createAllocation 12 s := by
  obtain ⟨r, hreach, hreturned, hregions⟩ := exists_tinyRun []
    (fun r => (doAllocate tiny 12 r.st).toOption.map
        (fun x => (x.1.isSome, regionsFrom x.2.regions x.2.regions.brk x.1)) =
          some (true, [⟨6, 11, 0⟩, ⟨22, 1, 1⟩]) ∧
      (appendOobAllocation tiny createAllocation 12 r.st).toOption.map
        (fun x => lenOf (regionsFrom x.2.regions x.2.regions.brk x.1.oobList.first)) = some 11)
    (by decide) (by decide)
  cases hrun : doAllocate tiny 12 r.st with
  | error e => simp [hrun, Except.toOption] at hreturned
  | ok x =>
      obtain ⟨_ | reg, s₁⟩ := x
      · simp [hrun, Except.toOption] at hreturned
      · simp only [hrun, Except.toOption, Option.map_some, Option.some.injEq, Prod.mk.injEq]
          at hreturned
        refine ⟨r.st, reg, s₁, hreach, hasRegions_createAllocation _, hrun, hreturned.2, ?_⟩
        rintro ⟨-, -, alloc', s', -, happend, -, hlen⟩
        simp only [happend, Except.toOption, Option.map_some, Option.some.injEq] at hregions
        omega

end SystemExtras.Ext4
