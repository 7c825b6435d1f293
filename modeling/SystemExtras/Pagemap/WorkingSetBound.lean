import SystemExtras.Pagemap.WorkingSet

/-!
# Working sets as parts of the usage

A page is counted in the usage when its entry is present and not swapped out, and in the working
set when the frame in its entry was referenced, in `vss` even when it is swapped out.  Both are
sums over the entries of a page map: the working set is `sharedUsage + strayUsage`, and the usage
`sharedUsage + idleUsage`.  `workingset_le_iff` compares them, for a mapping and for a process.
-/

namespace SystemExtras.Pagemap

/-! ## Sums over entries -/

/-- In all four measures. -/
instance : LE MemUsage :=
  ⟨fun a b => a.vss ≤ b.vss ∧ a.rss ≤ b.rss ∧ a.pss ≤ b.pss ∧ a.uss ≤ b.uss⟩

instance (a b : MemUsage) : Decidable (a ≤ b) :=
  inferInstanceAs (Decidable (_ ∧ _ ∧ _ ∧ _))

theorem MemUsage.add_le_add_left_iff (a b c : MemUsage) : a + b ≤ a + c ↔ b ≤ c := by
  have hiff : ∀ x y z : ℕ, x + y ≤ x + z ↔ y ≤ z := fun x y z => by omega
  exact and_congr (hiff _ _ _) (and_congr (hiff _ _ _) (and_congr (hiff _ _ _) (hiff _ _ _)))

/-- A kernel all of whose entries can be read. -/
def tables (pagesize : ℕ) (flags count : ℕ → ℕ) : PmKernelTables where
  pagesize := pagesize
  kpagecount f := .ok (count f)
  kpageflags f := .ok (flags f)

section Pages

variable (w pagesize : ℕ) (flags count : ℕ → ℕ)

/-- The test of `pm_map_usage`. -/
def Resident (x : UInt64) : Prop := pmPagemapPresent x ≠ 0 ∧ pmPagemapSwapped x = 0

/-- The test of `pm_map_workingset`. -/
def Referenced (x : UInt64) : Prop := flags (sizeT w (pmPagemapPfn x)) &&& pmPageReferenced ≠ 0

instance (x : UInt64) : Decidable (Resident x) := inferInstanceAs (Decidable (_ ∧ _))

instance (x : UInt64) : Decidable (Referenced w flags x) := inferInstanceAs (Decidable (_ ≠ _))

/-- What the frame in an entry adds. -/
def frameUsage (x : UInt64) : MemUsage :=
  MemUsage.ofFrame pagesize (count (sizeT w (pmPagemapPfn x)))

/-- What an entry adds that is referenced. -/
def referencedUsage (x : UInt64) : MemUsage :=
  if pmPagemapSwapped x ≠ 0 then ⟨pagesize, 0, 0, 0⟩ else frameUsage w pagesize count x

/-- The exact working set. -/
def workingsetOf (pagemap : List UInt64) : MemUsage :=
  ((pagemap.filter fun x => Referenced w flags x).map (referencedUsage w pagesize count)).sum

/-- What is counted both in the working set and in the usage. -/
def sharedUsage (pagemap : List UInt64) : MemUsage :=
  ((pagemap.filter fun x => Referenced w flags x ∧ Resident x).map
    (frameUsage w pagesize count)).sum

/-- What is counted in the working set only: pages that are absent or swapped out, with
referenced frames. -/
def strayUsage (pagemap : List UInt64) : MemUsage :=
  ((pagemap.filter fun x => Referenced w flags x ∧ ¬ Resident x).map
    (referencedUsage w pagesize count)).sum

/-- What is counted in the usage only: resident pages that were not referenced. -/
def idleUsage (pagemap : List UInt64) : MemUsage :=
  ((pagemap.filter fun x => ¬ Referenced w flags x ∧ Resident x).map
    (frameUsage w pagesize count)).sum

end Pages

section Sums

variable {w pagesize : ℕ} {flags count : ℕ → ℕ} {proc : PmProcess} {x : UInt64}
  {pagemap : List UInt64}

open MemUsage

theorem referencedUsage_of_resident (h : Resident x) :
    referencedUsage w pagesize count x = frameUsage w pagesize count x := if_neg (not_not.mpr h.2)

theorem referencedUsage_ordered (x : UInt64) : (referencedUsage w pagesize count x).Ordered := by
  unfold referencedUsage
  split
  · exact ⟨le_rfl, le_rfl, Nat.zero_le _⟩
  · exact ofFrame_ordered _ _

/-- A sum over the entries with one property, split by another one. -/
theorem sum_filter_split (p q : UInt64 → Prop) [DecidablePred p] [DecidablePred q]
    (f : UInt64 → MemUsage) (pagemap : List UInt64) :
    ((pagemap.filter fun x => p x).map f).sum =
      ((pagemap.filter fun x => p x ∧ q x).map f).sum +
        ((pagemap.filter fun x => p x ∧ ¬ q x).map f).sum := by
  have hsplit :=
    (List.filter_append_perm (fun x => decide (q x)) (pagemap.filter fun x => p x)).map f
  rw [← hsplit.sum_eq, List.map_append, List.sum_append, List.filter_filter, List.filter_filter]
  simp [Bool.and_comm]

theorem workingsetOf_eq (pagemap : List UInt64) :
    workingsetOf w pagesize flags count pagemap =
      sharedUsage w pagesize flags count pagemap + strayUsage w pagesize flags count pagemap := by
  have hresident : ∀ x ∈ pagemap.filter fun x => Referenced w flags x ∧ Resident x,
      referencedUsage w pagesize count x = frameUsage w pagesize count x := by
    intro x hx
    exact referencedUsage_of_resident (of_decide_eq_true (List.mem_filter.mp hx).2).2
  rw [workingsetOf, sum_filter_split _ Resident, List.map_congr_left hresident]
  rfl

variable (flags) in
/-- The exact usage. -/
theorem ofFrames_resident (pagemap : List UInt64) :
    ofFrames pagesize count (residentFrames w pagemap) =
      sharedUsage w pagesize flags count pagemap + idleUsage w pagesize flags count pagemap := by
  have hframes : ofFrames pagesize count (residentFrames w pagemap) =
      ((pagemap.filter fun x => Resident x).map (frameUsage w pagesize count)).sum := by
    rw [ofFrames, residentFrames, List.map_map]
    rfl
  rw [hframes, sum_filter_split _ (Referenced w flags)]
  simp only [sharedUsage, idleUsage, and_comm]

/-- One page of the loop of `pm_map_workingset`. -/
theorem mapWorkingsetLoop_cons (rest : List UInt64) (locals : Locals) {ws : MemUsage}
    (hordered : ws.Ordered)
    (hfits : (ws + if Referenced w flags x then referencedUsage w pagesize count x else 0).Fits w) :
    ∃ locals', mapWorkingsetLoop w (tables pagesize flags count) (x :: rest) locals ws =
      mapWorkingsetLoop w (tables pagesize flags count) rest locals'
        (ws + if Referenced w flags x then referencedUsage w pagesize count x else 0) := by
  have hflags : flagsAnswer w (tables pagesize flags count) (pmPagemapPfn x) =
      .ok (flags (sizeT w (pmPagemapPfn x))) := rfl
  have hcount : pmKernelCount w (tables pagesize flags count).toPmKernel (pmPagemapPfn x) =
      .ok (count (sizeT w (pmPagemapPfn x))) := rfl
  rw [mapWorkingsetLoop]
  simp only [hflags, hcount, readInto_ok, ne_eq, not_true, if_false]
  by_cases href : Referenced w flags x
  · rw [if_pos href] at hfits ⊢
    rw [if_neg href]
    have hadd := sizeT_add hordered (referencedUsage_ordered x) hfits
    refine ⟨⟨flags (sizeT w (pmPagemapPfn x)), count (sizeT w (pmPagemapPfn x))⟩, ?_⟩
    rw [← hadd]
    by_cases hswap : pmPagemapSwapped x = 0
    · rw [if_neg (not_not.mpr hswap), referencedUsage, if_neg (not_not.mpr hswap)]
      rfl
    · -- the other three sizes do not change, and are in range
      have hvss : ws.vss < 2 ^ w := hfits.left
      have hpss := hordered.pss_le
      have huss := hordered.uss_le
      have hrss := hordered.rss_le
      rw [if_pos hswap, referencedUsage, if_pos hswap, pmMemusageAdd]
      simp only [add_zero, sizeT]
      rw [Nat.mod_eq_of_lt (show ws.rss < 2 ^ w by omega),
        Nat.mod_eq_of_lt (show ws.pss < 2 ^ w by omega),
        Nat.mod_eq_of_lt (show ws.uss < 2 ^ w by omega)]
      rfl
  · rw [if_neg href, add_zero, if_pos (not_not.mp href)]
    exact ⟨_, rfl⟩

variable (flags count) in
/-- The loop of `pm_map_workingset`. -/
theorem mapWorkingsetLoop_eq (locals : Locals) {ws : MemUsage} (hordered : ws.Ordered)
    (hfits : (ws + workingsetOf w pagesize flags count pagemap).Fits w) :
    mapWorkingsetLoop w (tables pagesize flags count) pagemap locals ws =
      some (ws + workingsetOf w pagesize flags count pagemap) := by
  induction pagemap generalizing ws locals with
  | nil => exact congrArg some (add_zero ws).symm
  | cons x rest ih =>
      have hsum : ws + workingsetOf w pagesize flags count (x :: rest) =
          ws + (if Referenced w flags x then referencedUsage w pagesize count x else 0) +
            workingsetOf w pagesize flags count rest := by
        by_cases href : Referenced w flags x
        · simp [workingsetOf, href, add_assoc]
        · simp [workingsetOf, href]
      rw [hsum] at hfits ⊢
      obtain ⟨locals', hpage⟩ := mapWorkingsetLoop_cons rest locals hordered hfits.left
      have hnext : (ws + if Referenced w flags x then referencedUsage w pagesize count x
          else 0).Ordered := by
        refine hordered.add ?_
        split
        · exact referencedUsage_ordered x
        · exact .zero
      rw [hpage, ih locals' hnext hfits]

theorem workingsetOf_ordered (pagemap : List UInt64) :
    (workingsetOf w pagesize flags count pagemap).Ordered := by
  apply Ordered.sum
  intro u hu
  obtain ⟨x, -, rfl⟩ := List.mem_map.mp hu
  exact referencedUsage_ordered x

theorem workingsetOf_flatMap {α : Type*} (entries : α → List UInt64) (l : List α) :
    workingsetOf w pagesize flags count (l.flatMap entries) =
      (l.map fun a => workingsetOf w pagesize flags count (entries a)).sum := by
  induction l with
  | nil => rfl
  | cons a l ih =>
      rw [List.flatMap_cons, workingsetOf, List.filter_append, List.map_append, List.sum_append,
        List.map_cons, List.sum_cons, ← ih]
      rfl

/-- No more than the pages of all entries. -/
theorem workingsetOf_vss_le (pagemap : List UInt64) :
    (workingsetOf w pagesize flags count pagemap).vss ≤ pagesize * pagemap.length := by
  have hpage : ∀ x, (referencedUsage w pagesize count x).vss = pagesize := by
    intro x
    unfold referencedUsage
    split <;> rfl
  have hsum : ∀ l : List UInt64,
      ((l.map (referencedUsage w pagesize count)).sum).vss = pagesize * l.length := by
    intro l
    induction l with
    | nil => rfl
    | cons x l ih =>
        rw [List.map_cons, List.sum_cons, add_vss, hpage, ih, List.length_cons, Nat.mul_succ,
          Nat.add_comm]
  rw [workingsetOf, hsum]
  exact Nat.mul_le_mul_left _ (List.length_filter_le _ _)

theorem residentFrames_length_le (pagemap : List UInt64) :
    (residentFrames w pagemap).length ≤ pagemap.length := by
  rw [residentFrames, List.length_map]
  exact List.length_filter_le _ _

/-- Sums over mappings that do not overflow. -/
theorem foldl_pmMemusageAdd {values : List MemUsage} {u : MemUsage} (hu : u.Ordered)
    (hvalues : ∀ v ∈ values, v.Ordered) (hfits : (u + values.sum).Fits w) :
    values.foldl (pmMemusageAdd w) u = u + values.sum := by
  induction values generalizing u with
  | nil => exact (add_zero u).symm
  | cons v values ih =>
      obtain ⟨hv, hrest⟩ := List.forall_mem_cons.mp hvalues
      rw [List.sum_cons, ← add_assoc] at hfits ⊢
      rw [List.foldl_cons, sizeT_add hu hv hfits.left]
      exact ih (hu.add hv) hrest hfits

end Sums

/-! ## The pages of a process -/

/-- The page maps of a process can be read, and addresses are those of a machine of `w` bits. -/
structure Mapped (w pagesize : ℕ) (proc : PmProcess) : Prop where
  pagemaps : ∀ map ∈ proc.maps, ∃ pagemap,
    pmMapPagemap (tables pagesize 0 0).toPmKernel proc map = .ok pagemap
  stop_lt : ∀ map ∈ proc.maps, map.stop < 2 ^ w

section Process

variable {w pagesize : ℕ} {flags count : ℕ → ℕ} {proc : PmProcess} {maps : List PmMap}

open MemUsage

theorem s32_le (n : ℕ) : s32 n ≤ n := by
  unfold s32 u32
  split <;> omega

/-- The pages of a page map fit into the mapping. -/
theorem pages_le {map : PmMap} {pagemap : List UInt64}
    (h : pmMapPagemap (tables pagesize flags count).toPmKernel proc map = .ok pagemap) :
    pagesize * pagemap.length ≤ map.stop - map.start := by
  have hbound : (s32 ((map.stop - map.start) / pagesize)).toNat ≤
      (map.stop - map.start) / pagesize := by
    have hs32 := s32_le ((map.stop - map.start) / pagesize)
    exact Int.toNat_le.mpr hs32
  have hfits : pagesize * (s32 ((map.stop - map.start) / pagesize)).toNat ≤
      map.stop - map.start := (Nat.mul_le_mul_left _ hbound).trans (Nat.mul_div_le _ _)
  unfold pmMapPagemap pmProcessPagemapRange at h
  split_ifs at h
  simp only at h
  split at h
  · cases h
  · split_ifs at h
    · cases h
      exact Nat.zero_le _
    · cases h
      rw [List.length_map, List.length_range]
      exact hfits

/-- Mappings that do not overlap fit into the address space. -/
theorem sum_sizes_le {n : ℕ} (hstop : ∀ map ∈ maps, map.stop ≤ n)
    (hdisjoint : maps.Pairwise fun a b => a.stop ≤ b.start ∨ b.stop ≤ a.start) :
    (maps.map fun map => map.stop - map.start).sum ≤ n := by
  -- the addresses of all mappings
  set addresses := maps.flatMap fun map => List.range' map.start (map.stop - map.start)
    with haddresses
  have hlength : addresses.length = (maps.map fun map => map.stop - map.start).sum := by
    rw [haddresses, List.length_flatMap]
    simp only [List.length_range']
  have hnodup : addresses.Nodup := by
    refine List.nodup_flatMap.mpr ⟨fun map _ => List.nodup_range', hdisjoint.imp ?_⟩
    intro a b hab x ha hb
    rw [List.mem_range'_1] at ha hb
    omega
  have hbelow : ∀ x ∈ addresses, x < n := by
    intro x hx
    obtain ⟨map, hmem, hx⟩ := List.mem_flatMap.mp hx
    have hstop := hstop map hmem
    rw [List.mem_range'_1] at hx
    omega
  rw [← hlength]
  exact length_le_of_nodup hnodup hbelow

variable (flags count) in
/-- Where the pages fit into the address space, no sum overflows. -/
theorem fits_of_pages {pagemap : List UInt64} (h : pagesize * pagemap.length < 2 ^ w) :
    (workingsetOf w pagesize flags count pagemap).Fits w ∧
      (ofFrames pagesize count (residentFrames w pagemap)).Fits w := by
  refine ⟨(workingsetOf_vss_le pagemap).trans_lt h, ?_⟩
  unfold Fits
  rw [ofFrames_vss]
  exact (Nat.mul_le_mul_left _ (residentFrames_length_le pagemap)).trans_lt h

/-- The working set of a mapping that fits. -/
theorem mapWorkingsetIs_of_pages {map : PmMap} {pagemap : List UInt64}
    (hpagemap : pmMapPagemap (tables pagesize flags count).toPmKernel proc map = .ok pagemap)
    (h : pagesize * pagemap.length < 2 ^ w) :
    MapWorkingsetIs w (tables pagesize flags count) proc map
      (workingsetOf w pagesize flags count pagemap) := by
  refine ⟨pagemap, hpagemap, fun locals => ?_⟩
  have hloop := mapWorkingsetLoop_eq flags count locals Ordered.zero
    (by rw [zero_add]; exact (fits_of_pages flags count h).1)
  rwa [zero_add] at hloop

/-- Both sums of a mapping. -/
theorem map_sums_eq {map : PmMap} {pagemap : List UInt64}
    (hpagemap : pmMapPagemap (tables pagesize flags count).toPmKernel proc map = .ok pagemap)
    (h : pagesize * pagemap.length < 2 ^ w) (locals : Locals) (wsOut : MemUsage) :
    pmMapWorkingset w (tables pagesize flags count) proc map locals wsOut =
        (0, sharedUsage w pagesize flags count pagemap +
          strayUsage w pagesize flags count pagemap) ∧
      pmMapUsage w (tables pagesize flags count).toPmKernel proc map =
        .ok (sharedUsage w pagesize flags count pagemap +
          idleUsage w pagesize flags count pagemap) := by
  obtain ⟨pagemap', hpagemap', hloop⟩ := mapWorkingsetIs_of_pages hpagemap h
  rw [hpagemap, Except.ok.injEq] at hpagemap'
  subst hpagemap'
  have husage : mapUsageLoop w (tables pagesize flags count).toPmKernel pagemap 0 =
      .ok (0 + ofFrames pagesize count (residentFrames w pagemap)) :=
    mapUsageLoop_eq Ordered.zero (fun _ _ => rfl)
      (by rw [zero_add]; exact (fits_of_pages flags count h).2)
  rw [zero_add] at husage
  constructor
  · rw [pmMapWorkingset, hpagemap, ← workingsetOf_eq]
    simp only [hloop, Option.getD_some]
  · rw [pmMapUsage, hpagemap, bind_ok, ← ofFrames_resident flags]
    exact husage

theorem readPagemap_of_ok {ker : PmKernel} {map : PmMap} {pagemap : List UInt64}
    (h : pmMapPagemap ker proc map = .ok pagemap) : readPagemap ker proc map = pagemap := by
  rw [readPagemap, h]

theorem length_le_flatMap {entries : PmMap → List UInt64} {map : PmMap} (h : map ∈ maps) :
    (entries map).length ≤ (maps.flatMap entries).length := by
  obtain ⟨before, behind, rfl⟩ := List.append_of_mem h
  rw [List.flatMap_append, List.flatMap_cons, List.length_append, List.length_append]
  omega

/-- Both sums of a process. -/
theorem process_sums_eq (hpagemaps : ∀ map ∈ proc.maps, ∃ pagemap,
      pmMapPagemap (tables pagesize flags count).toPmKernel proc map = .ok pagemap)
    {entries : List UInt64} (hentries : entries = proc.maps.flatMap
      (readPagemap (tables pagesize flags count).toPmKernel proc))
    (h : pagesize * entries.length < 2 ^ w) (frames : ℕ → Locals) (mapWs wsOut : MemUsage) :
    pmProcessWorkingset w (tables pagesize flags count) proc frames mapWs (some wsOut) false
        (.ok ()) =
        (0, some (sharedUsage w pagesize flags count entries +
          strayUsage w pagesize flags count entries)) ∧
      pmProcessUsage w (tables pagesize flags count).toPmKernel proc =
        .ok (sharedUsage w pagesize flags count entries +
          idleUsage w pagesize flags count entries) := by
  obtain ⟨hworkingset, husage⟩ := fits_of_pages flags count h
  constructor
  · set values := proc.maps.map fun map => workingsetOf w pagesize flags count
      (readPagemap (tables pagesize flags count).toPmKernel proc map) with hvalues
    have hsum : values.sum = workingsetOf w pagesize flags count entries := by
      rw [hentries, workingsetOf_flatMap]
    have hmaps : List.Forall₂ (MapWorkingsetIs w (tables pagesize flags count) proc) proc.maps
        values := by
      rw [hvalues, List.forall₂_map_right_iff, List.forall₂_same]
      intro map hmem
      obtain ⟨pagemap, hpagemap⟩ := hpagemaps map hmem
      have hread := readPagemap_of_ok hpagemap
      rw [hread]
      refine mapWorkingsetIs_of_pages hpagemap (lt_of_le_of_lt (Nat.mul_le_mul_left _ ?_) h)
      rw [hentries, ← hread]
      exact length_le_flatMap hmem
    have hfits : ((0 : MemUsage) + values.sum).Fits w := by rwa [zero_add, hsum]
    have hfold : values.foldl (pmMemusageAdd w) pmMemusageZero = 0 + values.sum := by
      refine foldl_pmMemusageAdd Ordered.zero (fun v hv => ?_) hfits
      obtain ⟨map, -, rfl⟩ := List.mem_map.mp hv
      exact workingsetOf_ordered _
    rw [zero_add, hsum, workingsetOf_eq] at hfold
    simp [pmProcessWorkingset, processWorkingsetLoop_eq hmaps, hfold]
  · have hframes : (proc.maps.flatMap fun map => residentFrames w
        (readPagemap (tables pagesize flags count).toPmKernel proc map)) =
        residentFrames w entries := by
      rw [hentries]
      simp only [residentFrames, List.filter_flatMap, List.map_flatMap]
    have hloop : processUsageLoop w (tables pagesize flags count).toPmKernel proc proc.maps 0 =
        .ok (0 + ofFrames pagesize count (proc.maps.flatMap fun map => residentFrames w
          (readPagemap (tables pagesize flags count).toPmKernel proc map))) :=
      processUsageLoop_eq Ordered.zero hpagemaps (fun _ _ _ _ => rfl)
        (by rw [zero_add, hframes]; exact husage)
    rw [zero_add, hframes, ofFrames_resident flags] at hloop
    exact hloop

/-- **When the working set is part of the usage.**  For a mapping, and for all mappings of a
process that do not overlap: in each measure, what is counted for pages that are absent or
swapped out is at most what is left out for resident pages that were not referenced. -/
theorem workingset_le_iff (h : Mapped w pagesize proc) (flags count : ℕ → ℕ) :
    (∀ map ∈ proc.maps, ∀ locals wsOut, ∃ pagemap ws usage,
      pmMapPagemap (tables pagesize flags count).toPmKernel proc map = .ok pagemap ∧
      pmMapWorkingset w (tables pagesize flags count) proc map locals wsOut = (0, ws) ∧
      pmMapUsage w (tables pagesize flags count).toPmKernel proc map = .ok usage ∧
      (ws ≤ usage ↔
        strayUsage w pagesize flags count pagemap ≤ idleUsage w pagesize flags count pagemap)) ∧
    ((proc.maps.Pairwise fun a b => a.stop ≤ b.start ∨ b.stop ≤ a.start) →
      ∀ frames mapWs wsOut, ∃ entries ws usage,
        entries = proc.maps.flatMap
          (readPagemap (tables pagesize flags count).toPmKernel proc) ∧
        pmProcessWorkingset w (tables pagesize flags count) proc frames mapWs (some wsOut) false
          (.ok ()) = (0, some ws) ∧
        pmProcessUsage w (tables pagesize flags count).toPmKernel proc = .ok usage ∧
        (ws ≤ usage ↔
          strayUsage w pagesize flags count entries ≤
            idleUsage w pagesize flags count entries)) := by
  have hpagemaps : ∀ map ∈ proc.maps, ∃ pagemap,
      pmMapPagemap (tables pagesize flags count).toPmKernel proc map = .ok pagemap := h.pagemaps
  constructor
  · intro map hmem locals wsOut
    obtain ⟨pagemap, hpagemap⟩ := hpagemaps map hmem
    have hpages := pages_le hpagemap
    have hstop := h.stop_lt map hmem
    obtain ⟨hws, husage⟩ := map_sums_eq (w := w) hpagemap (by omega) locals wsOut
    exact ⟨pagemap, _, _, hpagemap, hws, husage, add_le_add_left_iff _ _ _⟩
  · intro hdisjoint frames mapWs wsOut
    set entries := proc.maps.flatMap (readPagemap (tables pagesize flags count).toPmKernel proc)
      with hentries
    have hsizes : (proc.maps.map fun map => map.stop - map.start).sum ≤ 2 ^ w - 1 :=
      sum_sizes_le (fun map hmem => Nat.le_sub_one_of_lt (h.stop_lt map hmem)) hdisjoint
    have hpages : pagesize * entries.length ≤
        (proc.maps.map fun map => map.stop - map.start).sum := by
      rw [hentries, List.length_flatMap, ← List.sum_map_mul_left]
      refine List.sum_le_sum fun map hmem => ?_
      obtain ⟨pagemap, hpagemap⟩ := hpagemaps map hmem
      rw [readPagemap_of_ok hpagemap]
      exact pages_le hpagemap
    have hpos := Nat.two_pow_pos w
    obtain ⟨hws, husage⟩ := process_sums_eq (w := w) hpagemaps hentries (by omega) frames
      mapWs wsOut
    exact ⟨entries, _, _, hentries, hws, husage, add_le_add_left_iff _ _ _⟩

/-- Where no entry that is absent or swapped out has a referenced frame, nothing is counted in the
working set only. -/
theorem strayUsage_le {pagemap : List UInt64}
    (h : ∀ x ∈ pagemap, Referenced w flags x → Resident x) :
    strayUsage w pagesize flags count pagemap ≤ idleUsage w pagesize flags count pagemap := by
  have hnone : (pagemap.filter fun x => Referenced w flags x ∧ ¬ Resident x) = [] := by
    refine List.filter_eq_nil_iff.mpr fun x hx => ?_
    simpa using h x hx
  rw [strayUsage, hnone]
  exact ⟨Nat.zero_le _, Nat.zero_le _, Nat.zero_le _, Nat.zero_le _⟩

theorem mapped_pair (x y : UInt64) : Mapped 32 4096 (pairProcess x y) where
  pagemaps map hmem := by
    obtain rfl : map = ⟨0x8000, 0xA000⟩ := List.mem_singleton.mp hmem
    exact ⟨[x, y], rfl⟩
  stop_lt := by simp [pairProcess, PmProcess.ofEntries]

/-- A page that was referenced and one that was not. -/
theorem workingset_le_iff_pair : ∃ ws usage,
    pmProcessWorkingset 32 (tables 4096 (fun f => if f = 5 then 4 else 0) fun _ => 1)
        (pairProcess (presentEntry 5) (presentEntry 7)) (fun _ => ⟨0, 0⟩) ⟨1, 2, 3, 4⟩
        (some ⟨0, 0, 0, 0⟩) false (.ok ()) = (0, some ws) ∧
      pmProcessUsage 32 (tables 4096 (fun f => if f = 5 then 4 else 0) fun _ => 1).toPmKernel
        (pairProcess (presentEntry 5) (presentEntry 7)) = .ok usage ∧ ws ≤ usage := by
  obtain ⟨entries, ws, usage, hentries, hws, husage, hiff⟩ :=
    (workingset_le_iff (mapped_pair (presentEntry 5) (presentEntry 7))
      (fun f => if f = 5 then 4 else 0) fun _ => 1).2 (List.pairwise_singleton _ _)
      (fun _ => ⟨0, 0⟩) ⟨1, 2, 3, 4⟩ ⟨0, 0, 0, 0⟩
  refine ⟨ws, usage, hws, husage, hiff.mpr ?_⟩
  rw [hentries]
  decide

/-- Two pages that are absent, in a machine whose first frame was referenced. -/
theorem not_workingset_le_absent : ¬ ∀ ws usage,
    pmMapWorkingset 32 (tables 4096 (fun _ => 4) fun _ => 1) (pairProcess 0 0) ⟨0x8000, 0xA000⟩
        ⟨0, 0⟩ ⟨0, 0, 0, 0⟩ = (0, ws) →
      pmMapUsage 32 (tables 4096 (fun _ => 4) fun _ => 1).toPmKernel (pairProcess 0 0)
        ⟨0x8000, 0xA000⟩ = .ok usage → ws ≤ usage := by
  intro h
  exact absurd (h ⟨8192, 8192, 8192, 8192⟩ ⟨0, 0, 0, 0⟩ (by decide) (by decide)) (by decide)

end Process

end SystemExtras.Pagemap
