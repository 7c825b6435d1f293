import SystemExtras.Lib.Run
import SystemExtras.Lib.Words

/-!
# Memory usage of processes

`libpagemap` adds up, page by page, what a process uses of the physical memory: all
pages that are mapped and present (`vss`), those that the kernel counts at all
(`rss`), each of these divided by the number of its mappings (`pss`), and those that
nobody else maps (`uss`).  The tools add the proportional sizes of all processes and
take the sum for the memory in use.

What the code computes is an exact sum as long as no `size_t` overflows
(`pmProcessUsage_eq`), and the sum over all processes is regrouped by frames
(`sum_pss_eq`): a frame that is mapped `c` times contributes `c` times the rounded
quotient, which is at most a page and falls short of one by at most `c - 1`.
-/

namespace SystemExtras.Pagemap

/-! ## The code -/

/-- `_BITS`. -/
def bits (x : UInt64) (offset n : ℕ) : ℕ := x.toNat / 2 ^ offset % 2 ^ n

/-- `PM_PAGEMAP_PRESENT`. -/
def pmPagemapPresent (x : UInt64) : ℕ := bits x 63 1

/-- `PM_PAGEMAP_SWAPPED`. -/
def pmPagemapSwapped (x : UInt64) : ℕ := bits x 62 1

/-- `PM_PAGEMAP_PFN`. -/
def pmPagemapPfn (x : UInt64) : ℕ := bits x 0 55

/-- `pm_memusage_t`. -/
@[ext] structure MemUsage where
  vss : ℕ
  rss : ℕ
  pss : ℕ
  uss : ℕ
  deriving DecidableEq, Repr

/-- `pm_kernel_t`; `kpagecount` is what reading the entry of a frame gives, a count or an
error. -/
structure PmKernel where
  pagesize : ℕ
  kpagecount : ℕ → Except ℤ ℕ

/-- `pm_map_t`: the addresses of the mapping. -/
structure PmMap where
  start : ℕ
  stop : ℕ
  deriving DecidableEq, Repr

/-- `pm_process_t`.  `pagemap` is what allocating memory for that many entries and reading them
from that page on gives, and `unread` what the memory holds where nothing was read into it.
`read` gives at most what it is asked for, and less than `2 ^ 31` bytes at once. -/
structure PmProcess where
  maps : List PmMap
  pagemap : ℤ → ℤ → Except ℤ (List UInt64)
  unread : ℤ → ℤ → ℕ → UInt64
  asked : ∀ {first numpages range}, pagemap first numpages = .ok range →
    (range.length : ℤ) ≤ numpages
  at_once : ∀ {first numpages range}, pagemap first numpages = .ok range →
    8 * range.length < 2 ^ 31

section Code

variable (w : ℕ) (ker : PmKernel) (proc : PmProcess)

/-- `pm_kernel_count`. -/
def pmKernelCount (pfn : ℕ) : Except ℤ ℕ := ker.kpagecount (sizeT w pfn)

/-- `pm_process_pagemap_range`.  The page numbers are kept in an `int`, and the bytes that were
read are compared with the bytes that were asked for as an `int`. -/
def pmProcessPagemapRange (low high : ℕ) : Except ℤ (List UInt64) :=
  if high ≤ low then .error (-1)
  else
    let firstpage := s32 (low / ker.pagesize)
    let numpages := s32 ((high - low) / ker.pagesize)
    match proc.pagemap firstpage numpages with
    | .error errno => .error errno
    | .ok range =>
        let error := 8 * range.length
        -- the mapping is not in the range of user space
        if error = 0 then .ok []
        else if error < s32 (numpages.toNat * 8) then .error (-1)
        else .ok ((List.range numpages.toNat).map fun i =>
          range.getD i (proc.unread firstpage numpages i))

/-- `pm_map_pagemap`. -/
def pmMapPagemap (map : PmMap) : Except ℤ (List UInt64) :=
  pmProcessPagemapRange ker proc map.start map.stop

/-- `pm_memusage_zero`. -/
def pmMemusageZero : MemUsage := ⟨0, 0, 0, 0⟩

/-- `pm_memusage_add`. -/
def pmMemusageAdd (a b : MemUsage) : MemUsage where
  vss := sizeT w (a.vss + b.vss)
  rss := sizeT w (a.rss + b.rss)
  pss := sizeT w (a.pss + b.pss)
  uss := sizeT w (a.uss + b.uss)

/-- The loop of `pm_map_usage`. -/
def mapUsageLoop : List UInt64 → MemUsage → Except ℤ MemUsage
  | [], usage => .ok usage
  | x :: rest, usage =>
      if pmPagemapPresent x = 0 ∨ pmPagemapSwapped x ≠ 0 then mapUsageLoop rest usage
      else do
        let count ← pmKernelCount w ker (pmPagemapPfn x)
        mapUsageLoop rest
          { vss := sizeT w (usage.vss + ker.pagesize)
            rss := sizeT w (usage.rss + if 1 ≤ count then ker.pagesize else 0)
            pss := sizeT w (usage.pss + if 1 ≤ count then ker.pagesize / count else 0)
            uss := sizeT w (usage.uss + if count = 1 then ker.pagesize else 0) }

/-- `pm_map_usage`. -/
def pmMapUsage (map : PmMap) : Except ℤ MemUsage := do
  let pagemap ← pmMapPagemap ker proc map
  mapUsageLoop w ker pagemap pmMemusageZero

/-- The loop of `pm_process_usage`. -/
def processUsageLoop : List PmMap → MemUsage → Except ℤ MemUsage
  | [], usage => .ok usage
  | map :: rest, usage => do
      let mapUsage ← pmMapUsage w ker proc map
      processUsageLoop rest (pmMemusageAdd w usage mapUsage)

/-- `pm_process_usage`. -/
def pmProcessUsage : Except ℤ MemUsage := processUsageLoop w ker proc proc.maps pmMemusageZero

end Code

/-! ## Exact sums -/

instance : Zero MemUsage := ⟨⟨0, 0, 0, 0⟩⟩

instance : Add MemUsage := ⟨fun a b => ⟨a.vss + b.vss, a.rss + b.rss, a.pss + b.pss, a.uss + b.uss⟩⟩

namespace MemUsage

@[simp] theorem zero_vss : (0 : MemUsage).vss = 0 := rfl
@[simp] theorem zero_rss : (0 : MemUsage).rss = 0 := rfl
@[simp] theorem zero_pss : (0 : MemUsage).pss = 0 := rfl
@[simp] theorem zero_uss : (0 : MemUsage).uss = 0 := rfl
@[simp] theorem add_vss (a b : MemUsage) : (a + b).vss = a.vss + b.vss := rfl
@[simp] theorem add_rss (a b : MemUsage) : (a + b).rss = a.rss + b.rss := rfl
@[simp] theorem add_pss (a b : MemUsage) : (a + b).pss = a.pss + b.pss := rfl
@[simp] theorem add_uss (a b : MemUsage) : (a + b).uss = a.uss + b.uss := rfl

instance : AddCommMonoid MemUsage where
  add_assoc a b c := by ext <;> simp [Nat.add_assoc]
  zero_add a := by ext <;> simp
  add_zero a := by ext <;> simp
  add_comm a b := by ext <;> simp [Nat.add_comm]
  nsmul := nsmulRec

/-- The sizes in the order they should have. -/
structure Ordered (u : MemUsage) : Prop where
  uss_le : u.uss ≤ u.pss
  pss_le : u.pss ≤ u.rss
  rss_le : u.rss ≤ u.vss

theorem Ordered.zero : Ordered 0 := ⟨le_rfl, le_rfl, le_rfl⟩

theorem Ordered.add {a b : MemUsage} (ha : a.Ordered) (hb : b.Ordered) : (a + b).Ordered :=
  ⟨Nat.add_le_add ha.uss_le hb.uss_le, Nat.add_le_add ha.pss_le hb.pss_le,
    Nat.add_le_add ha.rss_le hb.rss_le⟩

theorem Ordered.sum {l : List MemUsage} (h : ∀ u ∈ l, u.Ordered) : l.sum.Ordered := by
  induction l with
  | nil => exact .zero
  | cons u l ih =>
      rw [List.sum_cons]
      exact (h u List.mem_cons_self).add (ih fun v hv => h v (List.mem_cons_of_mem _ hv))

theorem sum_pss (l : List MemUsage) : l.sum.pss = (l.map pss).sum := by
  induction l with
  | nil => rfl
  | cons u l ih => rw [List.sum_cons, List.map_cons, List.sum_cons, add_pss, ih]

/-- What a page adds whose frame has `count` mappings. -/
def ofFrame (pagesize count : ℕ) : MemUsage where
  vss := pagesize
  rss := if 1 ≤ count then pagesize else 0
  pss := if 1 ≤ count then pagesize / count else 0
  uss := if count = 1 then pagesize else 0

theorem ofFrame_ordered (pagesize count : ℕ) : (ofFrame pagesize count).Ordered := by
  have hdiv := Nat.div_le_self pagesize count
  by_cases hone : count = 1
  · subst hone
    refine ⟨?_, ?_, ?_⟩ <;> simp [ofFrame]
  · refine ⟨by simp [ofFrame, hone], ?_, ?_⟩
    · unfold ofFrame
      split
      · exact hdiv
      · exact le_rfl
    · unfold ofFrame
      split
      · exact le_rfl
      · exact Nat.zero_le _

/-- No sum reaches `2 ^ w`. -/
def Fits (w : ℕ) (u : MemUsage) : Prop := u.vss < 2 ^ w

/-- Without overflow the code adds exactly. -/
theorem sizeT_add {w : ℕ} {a b : MemUsage} (ha : a.Ordered) (hb : b.Ordered)
    (h : (a + b).Fits w) : pmMemusageAdd w a b = a + b := by
  have hsum := ha.add hb
  have hvss : a.vss + b.vss < 2 ^ w := h
  have h₁ : a.rss + b.rss ≤ a.vss + b.vss := hsum.rss_le
  have h₂ : a.pss + b.pss ≤ a.rss + b.rss := hsum.pss_le
  have h₃ : a.uss + b.uss ≤ a.pss + b.pss := hsum.uss_le
  unfold pmMemusageAdd sizeT
  rw [Nat.mod_eq_of_lt hvss, Nat.mod_eq_of_lt (by omega), Nat.mod_eq_of_lt (by omega),
    Nat.mod_eq_of_lt (by omega)]
  rfl

theorem Fits.left {w : ℕ} {a b : MemUsage} (h : (a + b).Fits w) : a.Fits w :=
  lt_of_le_of_lt (Nat.le_add_right _ _) h

/-- The exact usage of the given frames. -/
def ofFrames (pagesize : ℕ) (count : ℕ → ℕ) (frames : List ℕ) : MemUsage :=
  (frames.map fun f => ofFrame pagesize (count f)).sum

section OfFrames

variable (pagesize : ℕ) (count : ℕ → ℕ)

theorem ofFrames_ordered (frames : List ℕ) : (ofFrames pagesize count frames).Ordered := by
  apply Ordered.sum
  intro u hu
  obtain ⟨f, -, rfl⟩ := List.mem_map.mp hu
  exact ofFrame_ordered _ _

theorem ofFrames_append (l r : List ℕ) :
    ofFrames pagesize count (l ++ r) = ofFrames pagesize count l + ofFrames pagesize count r := by
  unfold ofFrames
  rw [List.map_append, List.sum_append]

theorem ofFrames_flatMap {α : Type*} (frames : α → List ℕ) (l : List α) :
    ofFrames pagesize count (l.flatMap frames) =
      (l.map fun a => ofFrames pagesize count (frames a)).sum := by
  induction l with
  | nil => rfl
  | cons a l ih => rw [List.flatMap_cons, ofFrames_append, ih, List.map_cons, List.sum_cons]

theorem ofFrames_perm {l r : List ℕ} (h : l.Perm r) :
    ofFrames pagesize count l = ofFrames pagesize count r := (h.map _).sum_eq

theorem ofFrames_vss (frames : List ℕ) :
    (ofFrames pagesize count frames).vss = pagesize * frames.length := by
  induction frames with
  | nil => rfl
  | cons f frames ih =>
      have hcons : ofFrames pagesize count (f :: frames) =
          ofFrame pagesize (count f) + ofFrames pagesize count frames := List.sum_cons
      rw [hcons, add_vss, ih, List.length_cons, Nat.mul_succ, Nat.add_comm]
      rfl

theorem ofFrames_pss (frames : List ℕ) : (ofFrames pagesize count frames).pss =
    (frames.map fun f => (ofFrame pagesize (count f)).pss).sum := by
  unfold ofFrames
  rw [sum_pss, List.map_map]
  rfl

end OfFrames

end MemUsage

/-! ## What the code adds up -/

/-- The frames of the pages that are present and not swapped out. -/
def residentFrames (w : ℕ) (pagemap : List UInt64) : List ℕ :=
  (pagemap.filter fun x => pmPagemapPresent x ≠ 0 ∧ pmPagemapSwapped x = 0).map fun x =>
    sizeT w (pmPagemapPfn x)

/-- The page map of a mapping, if it can be read. -/
def readPagemap (ker : PmKernel) (proc : PmProcess) (map : PmMap) : List UInt64 :=
  match pmMapPagemap ker proc map with
  | .ok pagemap => pagemap
  | .error _ => []

/-- The frames that a process maps, once for each page. -/
def processFrames (w : ℕ) (ker : PmKernel) (proc : PmProcess) : List ℕ :=
  proc.maps.flatMap fun map => residentFrames w (readPagemap ker proc map)

section Sums

variable {w : ℕ} {ker : PmKernel} {proc : PmProcess} {count : ℕ → ℕ} {usage : MemUsage}

open MemUsage

/-- The loop over the pages of a mapping. -/
theorem mapUsageLoop_eq {pagemap : List UInt64} (hordered : usage.Ordered)
    (hcount : ∀ f ∈ residentFrames w pagemap, ker.kpagecount f = .ok (count f))
    (hfits : (usage + ofFrames ker.pagesize count (residentFrames w pagemap)).Fits w) :
    mapUsageLoop w ker pagemap usage =
      .ok (usage + ofFrames ker.pagesize count (residentFrames w pagemap)) := by
  induction pagemap generalizing usage with
  | nil => rw [mapUsageLoop, show residentFrames w [] = [] from rfl, ofFrames, List.map_nil,
      List.sum_nil, add_zero]
  | cons x rest ih =>
      unfold mapUsageLoop
      by_cases hskip : pmPagemapPresent x = 0 ∨ pmPagemapSwapped x ≠ 0
      · have hframes : residentFrames w (x :: rest) = residentFrames w rest := by
          unfold residentFrames
          rw [List.filter_cons_of_neg (by simp only [decide_eq_true_eq]; tauto)]
        rw [if_pos hskip, hframes]
        rw [hframes] at hcount hfits
        exact ih hordered hcount hfits
      · have hframes : residentFrames w (x :: rest) =
            sizeT w (pmPagemapPfn x) :: residentFrames w rest := by
          unfold residentFrames
          rw [List.filter_cons_of_pos (by simp only [decide_eq_true_eq]; tauto), List.map_cons]
        have hsum : usage + ofFrames ker.pagesize count (residentFrames w (x :: rest)) =
            usage + ofFrame ker.pagesize (count (sizeT w (pmPagemapPfn x))) +
              ofFrames ker.pagesize count (residentFrames w rest) := by
          rw [hframes, add_assoc]
          exact congrArg _ List.sum_cons
        rw [hframes] at hcount
        have hread : pmKernelCount w ker (pmPagemapPfn x) =
            .ok (count (sizeT w (pmPagemapPfn x))) := hcount _ List.mem_cons_self
        rw [hsum] at hfits
        rw [if_neg hskip, hread, bind_ok, hsum]
        -- one round of the loop is one addition
        have hround := sizeT_add hordered (ofFrame_ordered ker.pagesize _) hfits.left
        rw [← ih (hordered.add (ofFrame_ordered _ _))
          (fun f hf => hcount f (List.mem_cons_of_mem _ hf)) hfits, ← hround]
        rfl

/-- The loop over the mappings of a process. -/
theorem processUsageLoop_eq {maps : List PmMap} (hordered : usage.Ordered)
    (hread : ∀ map ∈ maps, ∃ pagemap, pmMapPagemap ker proc map = .ok pagemap)
    (hcount : ∀ map ∈ maps, ∀ f ∈ residentFrames w (readPagemap ker proc map),
      ker.kpagecount f = .ok (count f))
    (hfits : (usage + ofFrames ker.pagesize count
      (maps.flatMap fun map => residentFrames w (readPagemap ker proc map))).Fits w) :
    processUsageLoop w ker proc maps usage = .ok (usage + ofFrames ker.pagesize count
      (maps.flatMap fun map => residentFrames w (readPagemap ker proc map))) := by
  induction maps generalizing usage with
  | nil => rw [processUsageLoop, List.flatMap_nil, ofFrames, List.map_nil, List.sum_nil, add_zero]
  | cons map rest ih =>
      obtain ⟨pagemap, hpagemap⟩ := hread map List.mem_cons_self
      have heq : readPagemap ker proc map = pagemap := by
        unfold readPagemap
        rw [hpagemap]
      have hframes := hcount map List.mem_cons_self
      rw [List.flatMap_cons, ofFrames_append, ← add_assoc] at hfits ⊢
      rw [heq] at hfits hframes ⊢
      have hmap : (ofFrames ker.pagesize count (residentFrames w pagemap)).Fits w := by
        refine lt_of_le_of_lt ?_ hfits.left
        exact Nat.le_add_left _ _
      have husage : pmMapUsage w ker proc map =
          .ok (ofFrames ker.pagesize count (residentFrames w pagemap)) := by
        have hloop : mapUsageLoop w ker pagemap 0 =
            .ok (0 + ofFrames ker.pagesize count (residentFrames w pagemap)) :=
          mapUsageLoop_eq .zero hframes (by rwa [zero_add])
        rw [zero_add] at hloop
        unfold pmMapUsage
        rw [hpagemap, bind_ok]
        exact hloop
      rw [processUsageLoop, husage, bind_ok,
        sizeT_add hordered (ofFrames_ordered _ _ _) hfits.left]
      exact ih (hordered.add (ofFrames_ordered _ _ _))
        (fun m hm => hread m (List.mem_cons_of_mem _ hm))
        (fun m hm => hcount m (List.mem_cons_of_mem _ hm)) hfits

end Sums

/-! ## All processes together -/

/-- The frames that the processes map, once for each page of each of them. -/
def allFrames (w : ℕ) (ker : PmKernel) (procs : List PmProcess) : List ℕ :=
  procs.flatMap (processFrames w ker)

/-- Every page map can be read, the kernel counts for every frame the pages of these processes
that map it, and no sum overflows. -/
structure Exact (w : ℕ) (ker : PmKernel) (procs : List PmProcess) : Prop where
  pagemaps : ∀ proc ∈ procs, ∀ map ∈ proc.maps, ∃ pagemap, pmMapPagemap ker proc map = .ok pagemap
  counts : ∀ f ∈ allFrames w ker procs, ker.kpagecount f = .ok ((allFrames w ker procs).count f)
  fits : ∀ proc ∈ procs, ker.pagesize * (processFrames w ker proc).length < 2 ^ w

section Totals

variable {w : ℕ} {ker : PmKernel} {procs : List PmProcess} {proc : PmProcess}

open MemUsage

/-- The usage of a process is the exact one, whatever the order of its mappings. -/
theorem Exact.usage_eq (h : Exact w ker procs) (hproc : proc ∈ procs) {maps : List PmMap}
    (hperm : maps.Perm proc.maps) : pmProcessUsage w ker { proc with maps := maps } =
      .ok (ofFrames ker.pagesize (allFrames w ker procs).count (processFrames w ker proc)) := by
  have hframes : (maps.flatMap fun map => residentFrames w (readPagemap ker proc map)).Perm
      (processFrames w ker proc) := hperm.flatMap_right _
  have hsum := ofFrames_perm ker.pagesize (allFrames w ker procs).count hframes
  have hall : ∀ map ∈ maps, ∀ f ∈ residentFrames w (readPagemap ker proc map),
      ker.kpagecount f = .ok ((allFrames w ker procs).count f) := by
    intro map hmap f hf
    refine h.counts f (List.mem_flatMap.mpr ⟨proc, hproc, ?_⟩)
    exact List.mem_flatMap.mpr ⟨map, hperm.subset hmap, hf⟩
  have hfits : (0 + ofFrames ker.pagesize (allFrames w ker procs).count
      (maps.flatMap fun map => residentFrames w (readPagemap ker proc map))).Fits w := by
    rw [zero_add, hsum]
    unfold Fits
    rw [ofFrames_vss]
    exact h.fits proc hproc
  have hloop : processUsageLoop w ker { proc with maps := maps } maps 0 = .ok (0 + ofFrames
      ker.pagesize (allFrames w ker procs).count
      (maps.flatMap fun map => residentFrames w (readPagemap ker proc map))) :=
    processUsageLoop_eq .zero (fun map hmap => h.pagemaps proc hproc map (hperm.subset hmap)) hall
      hfits
  rw [zero_add, hsum] at hloop
  exact hloop

/-- The proportional sizes of all processes, regrouped by frames. -/
theorem sum_pss_eq (pagesize : ℕ) (frames : List ℕ) :
    (ofFrames pagesize frames.count frames).pss =
      ∑ f ∈ frames.toFinset, frames.count f * (pagesize / frames.count f) := by
  rw [ofFrames_pss, Finset.sum_list_map_count]
  refine Finset.sum_congr rfl fun f hf => ?_
  have hpos : 1 ≤ frames.count f := List.count_pos_iff.mpr (List.mem_toFinset.mp hf)
  simp only [ofFrame, if_pos hpos, smul_eq_mul]

/-- A page divided by `c` and taken `c` times is a page, up to `c - 1`. -/
theorem mul_div_bounds (pagesize : ℕ) {c : ℕ} (hpos : 1 ≤ c) :
    c * (pagesize / c) ≤ pagesize ∧ pagesize ≤ c * (pagesize / c) + (c - 1) := by
  have hsum := Nat.div_add_mod pagesize c
  have hmod := Nat.mod_lt pagesize hpos
  omega

/-- The usages of all processes. -/
theorem Exact.mapM_eq (h : Exact w ker procs) : procs.mapM (pmProcessUsage w ker) =
    .ok (procs.map fun proc =>
      ofFrames ker.pagesize (allFrames w ker procs).count (processFrames w ker proc)) := by
  rw [mapM_eq_ok, List.forall₂_map_right_iff, List.forall₂_same]
  exact fun proc hproc => h.usage_eq hproc (List.Perm.refl _)

/-- **Proportional sizes are conservative.**  If the kernel's counts are exact, the sizes of
every process are in order, the proportional sizes of all processes together are at most the
frames in use and fall short of them by at most the number of further mappings, and no usage
depends on the order of the mappings. -/
theorem usage_conservative (h : Exact w ker procs) :
    ∃ usages, procs.mapM (pmProcessUsage w ker) = .ok usages ∧ (∀ u ∈ usages, u.Ordered) ∧
      (usages.map pss).sum ≤ ker.pagesize * (allFrames w ker procs).toFinset.card ∧
      ker.pagesize * (allFrames w ker procs).toFinset.card ≤ (usages.map pss).sum +
        ∑ f ∈ (allFrames w ker procs).toFinset, ((allFrames w ker procs).count f - 1) ∧
      ∀ proc ∈ procs, ∀ maps, maps.Perm proc.maps →
        pmProcessUsage w ker { proc with maps := maps } = pmProcessUsage w ker proc := by
  set frames := allFrames w ker procs with hframes
  have htotal : ((procs.map fun proc => ofFrames ker.pagesize frames.count
      (processFrames w ker proc)).map pss).sum =
        ∑ f ∈ frames.toFinset, frames.count f * (ker.pagesize / frames.count f) := by
    rw [← sum_pss_eq, ← sum_pss, hframes]
    exact congrArg pss (ofFrames_flatMap _ _ (processFrames w ker) procs).symm
  have hbounds : ∀ f ∈ frames.toFinset,
      frames.count f * (ker.pagesize / frames.count f) ≤ ker.pagesize ∧
        ker.pagesize ≤ frames.count f * (ker.pagesize / frames.count f) + (frames.count f - 1) :=
    fun f hf => mul_div_bounds _ (List.count_pos_iff.mpr (List.mem_toFinset.mp hf))
  have hcard : ker.pagesize * frames.toFinset.card = ∑ _f ∈ frames.toFinset, ker.pagesize := by
    rw [Finset.sum_const, smul_eq_mul, Nat.mul_comm]
  refine ⟨_, h.mapM_eq, ?_, ?_, ?_, ?_⟩
  · intro u hu
    obtain ⟨proc, -, rfl⟩ := List.mem_map.mp hu
    exact ofFrames_ordered _ _ _
  · rw [htotal, hcard]
    exact Finset.sum_le_sum fun f hf => (hbounds f hf).1
  · rw [htotal, hcard, ← Finset.sum_add_distrib]
    exact Finset.sum_le_sum fun f hf => (hbounds f hf).2
  · intro proc hproc maps hperm
    exact (h.usage_eq hproc hperm).trans (h.usage_eq hproc (List.Perm.refl _)).symm

/-- A page of `frame` that is present. -/
def presentEntry (frame : ℕ) : UInt64 := UInt64.ofNat (2 ^ 63 + frame)

/-- Three frames: the first is mapped three times, the second is swapped out, and the kernel
knows nothing of the others. -/
def sharedKernel : PmKernel where
  pagesize := 4096
  kpagecount f := if f = 5 then .ok 3 else if f = 7 then .ok 1 else .error (-1)

/-- A process whose page maps are read in full: from page `first` on `entries first`. -/
def PmProcess.ofEntries (maps : List PmMap) (entries : ℤ → List UInt64)
    (h : ∀ first, 8 * (entries first).length < 2 ^ 31) : PmProcess where
  maps := maps
  pagemap first numpages :=
    if numpages = (entries first).length then .ok (entries first) else .error 22
  unread _ _ _ := 0
  asked hread := by
    split at hread <;> cases hread
    simp_all
  at_once hread := by
    split at hread <;> cases hread
    exact h _

/-- A process with one mapping of a page of its own and two pages of the shared frame. -/
def sharedProcess : PmProcess :=
  .ofEntries [⟨0x8000, 0xB000⟩] (fun _ => [presentEntry 5, presentEntry 7, presentEntry 5])
    fun _ => by simp

/-- A process with one page of the shared frame, one that is swapped out and one that was never
touched. -/
def swappedProcess : PmProcess :=
  .ofEntries [⟨0x10000, 0x12000⟩, ⟨0x20000, 0x21000⟩]
    (fun first => if first = 16 then [presentEntry 5, UInt64.ofNat (2 ^ 62 + 9)] else [0])
    fun first => by split <;> simp

theorem exact_shared : Exact 32 sharedKernel [sharedProcess, swappedProcess] where
  pagemaps := by
    intro proc hproc map hmap
    simp only [List.mem_cons, List.not_mem_nil, or_false] at hproc
    obtain rfl | rfl := hproc
    · obtain rfl : map = ⟨0x8000, 0xB000⟩ := List.mem_singleton.mp hmap
      exact ⟨_, rfl⟩
    · obtain rfl | rfl : map = ⟨0x10000, 0x12000⟩ ∨ map = ⟨0x20000, 0x21000⟩ := by
        simpa [swappedProcess, PmProcess.ofEntries] using hmap
      · exact ⟨_, rfl⟩
      · exact ⟨_, rfl⟩
  counts := by
    have hframes : allFrames 32 sharedKernel [sharedProcess, swappedProcess] = [5, 7, 5, 5] := by
      decide
    rw [hframes]
    intro f hf
    simp only [List.mem_cons, List.not_mem_nil, or_false] at hf
    obtain rfl | rfl | rfl | rfl := hf <;> rfl
  fits := by decide

theorem usage_conservative_shared :
    ∃ usages, [sharedProcess, swappedProcess].mapM (pmProcessUsage 32 sharedKernel) = .ok usages ∧
      (usages.map pss).sum ≤ 8192 ∧ 8192 ≤ (usages.map pss).sum + 2 := by
  obtain ⟨usages, husages, -, hle, hge, -⟩ := usage_conservative exact_shared
  have hcard : sharedKernel.pagesize *
      (allFrames 32 sharedKernel [sharedProcess, swappedProcess]).toFinset.card = 8192 := by
    decide
  have hrest : ∑ f ∈ (allFrames 32 sharedKernel [sharedProcess, swappedProcess]).toFinset,
      ((allFrames 32 sharedKernel [sharedProcess, swappedProcess]).count f - 1) = 2 := by
    decide
  rw [hcard] at hle hge
  rw [hrest] at hge
  exact ⟨usages, husages, hle, hge⟩

end Totals

end SystemExtras.Pagemap
