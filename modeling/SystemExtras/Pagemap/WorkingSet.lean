import SystemExtras.Pagemap.Usage

/-!
# Working sets of processes

The working set of a mapping is what its pages that were referenced use of the physical
memory.  `pm_map_workingset` is `pm_map_usage` with a further test, but the tests are others and
so is the way out:

* it does not look whether a page is present, and it counts a page that is swapped out in `vss`;
* it returns zero also when a read of the flags or of the count of a frame fails, and then has
  written nothing.

`reportsErrors_iff` says when the caller learns of all errors.

A variable into which nothing was read keeps its value; `Locals` are those of a call.
-/

namespace SystemExtras.Pagemap

/-! ## The code -/

/-- `PM_PAGE_REFERENCED`. -/
def pmPageReferenced : ℕ := 1 <<< 2

/-- `pm_kernel_t` with the flags: `kpageflags` is what reading the entry of a frame gives. -/
structure PmKernelTables extends PmKernel where
  kpageflags : ℕ → Except ℤ ℕ

/-- The code that is returned for an answer, and the variable afterwards.  After a short read the
code is `errno`, whatever that is then. -/
def readInto (answer : Except ℤ ℕ) (variable_ : ℕ) : ℤ × ℕ :=
  match answer with
  | .ok value => (0, value)
  | .error errno => (errno, variable_)

/-- What `flags` and `count` hold. -/
structure Locals where
  flags : ℕ
  count : ℕ

section Code

variable (w : ℕ) (ker : PmKernelTables) (proc : PmProcess)

/-- The answer to `pm_kernel_flags`. -/
def flagsAnswer (pfn : ℕ) : Except ℤ ℕ := ker.kpageflags (sizeT w pfn)

/-- The loop of `pm_map_workingset`; none where it is left for `out`. -/
def mapWorkingsetLoop : List UInt64 → Locals → MemUsage → Option MemUsage
  | [], _, ws => some ws
  | x :: rest, locals, ws =>
      let (error, flags) := readInto (flagsAnswer w ker (pmPagemapPfn x)) locals.flags
      if error ≠ 0 then none
      else if flags &&& pmPageReferenced = 0 then mapWorkingsetLoop rest ⟨flags, locals.count⟩ ws
      else
        let (error, count) :=
          readInto (pmKernelCount w ker.toPmKernel (pmPagemapPfn x)) locals.count
        if error ≠ 0 then none
        else
          let ws := { ws with vss := sizeT w (ws.vss + ker.pagesize) }
          if pmPagemapSwapped x ≠ 0 then mapWorkingsetLoop rest ⟨flags, count⟩ ws
          else mapWorkingsetLoop rest ⟨flags, count⟩
            { ws with
              rss := sizeT w (ws.rss + if 1 ≤ count then ker.pagesize else 0)
              pss := sizeT w (ws.pss + if 1 ≤ count then ker.pagesize / count else 0)
              uss := sizeT w (ws.uss + if count = 1 then ker.pagesize else 0) }

/-- `pm_map_workingset`: the code it returns, and `*ws_out`. -/
def pmMapWorkingset (map : PmMap) (locals : Locals) (wsOut : MemUsage) : ℤ × MemUsage :=
  match pmMapPagemap ker.toPmKernel proc map with
  | .error error => (error, wsOut)
  -- zero on both ways to `out`
  | .ok pagemap => (0, (mapWorkingsetLoop w ker pagemap locals pmMemusageZero).getD wsOut)

/-- The loop of `pm_process_workingset`.  `frames i` is what the variables of the call for map `i`
hold at its start. -/
def processWorkingsetLoop (frames : ℕ → Locals) :
    ℕ → List PmMap → MemUsage → MemUsage → Except ℤ MemUsage
  | _, [], ws, _ => .ok ws
  | i, map :: rest, ws, mapWs =>
      let (error, mapWs) := pmMapWorkingset w ker proc map (frames i) mapWs
      if error ≠ 0 then .error error
      else processWorkingsetLoop frames (i + 1) rest (pmMemusageAdd w ws mapWs) mapWs

/-- `pm_process_workingset`: the code it returns, and `*ws_out` if there is one.  `clearRefs` is
what opening the file for a reset gives. -/
def pmProcessWorkingset (frames : ℕ → Locals) (mapWs : MemUsage) (wsOut : Option MemUsage)
    (reset : Bool) (clearRefs : Except ℤ Unit) : ℤ × Option MemUsage :=
  let error := if reset then match clearRefs with
      | .ok () => 0
      | .error errno => errno
    else 0
  match wsOut with
  | none => (error, none)
  | some out =>
      match processWorkingsetLoop w ker proc frames 0 proc.maps pmMemusageZero mapWs with
      | .error error => (error, some out)
      | .ok ws => (error, some ws)

end Code

/-! ## Errors -/

/-- A read that is performed, with its answer, for a page map also how many entries are read. -/
inductive PmRead where
  | pagemap (numpages : ℤ) (answer : Except ℤ (List UInt64))
  | kernel (answer : Except ℤ ℕ)

/-- A page map is read in full, or is not there at all. -/
def PmRead.Succeeds : PmRead → Prop
  | .pagemap numpages answer =>
      ∃ range, answer = .ok range ∧ (range = [] ∨ (range.length : ℤ) = numpages)
  | .kernel answer => ∃ value, answer = .ok value

section Pagemaps

variable (ker : PmKernel) (proc : PmProcess) (map : PmMap)

/-- The page and the number of pages that `pm_process_pagemap_range` works with. -/
def firstpage : ℤ := s32 (map.start / ker.pagesize)

@[inherit_doc firstpage]
def numpages : ℤ := s32 ((map.stop - map.start) / ker.pagesize)

/-- The answer to the `read` of a page map. -/
def pagemapAnswer : Except ℤ (List UInt64) :=
  proc.pagemap (firstpage ker map) (numpages ker map)

/-- The read of a page map that is performed. -/
def pagemapRead : PmRead := .pagemap (numpages ker map) (pagemapAnswer ker proc map)

/-- The page map was read in full. -/
structure ReadInFull (pagemap : List UInt64) : Prop where
  nonempty : map.start < map.stop
  answer : pagemapAnswer ker proc map = .ok pagemap
  all : pagemap = [] ∨ (pagemap.length : ℤ) = numpages ker map

/-- The page map cannot be read, or fewer bytes were read than the conversion of their number
says. -/
def Refused : Prop :=
  map.stop ≤ map.start ∨ (∃ errno, pagemapAnswer ker proc map = .error errno) ∨
    ∃ range, pagemapAnswer ker proc map = .ok range ∧ range ≠ [] ∧
      ((8 * range.length : ℕ) : ℤ) < s32 ((numpages ker map).toNat * 8)

end Pagemaps

section Reads

variable (w : ℕ) (ker : PmKernelTables) (proc : PmProcess)

/-- The reads of `mapWorkingsetLoop`. -/
def mapWorkingsetReads : List UInt64 → Locals → List PmRead
  | [], _ => []
  | x :: rest, locals =>
      let (error, flags) := readInto (flagsAnswer w ker (pmPagemapPfn x)) locals.flags
      .kernel (flagsAnswer w ker (pmPagemapPfn x)) ::
        if error ≠ 0 then []
        else if flags &&& pmPageReferenced = 0 then mapWorkingsetReads rest ⟨flags, locals.count⟩
        else
          let (error, count) :=
            readInto (pmKernelCount w ker.toPmKernel (pmPagemapPfn x)) locals.count
          .kernel (pmKernelCount w ker.toPmKernel (pmPagemapPfn x)) ::
            if error ≠ 0 then [] else mapWorkingsetReads rest ⟨flags, count⟩

/-- The reads of `processWorkingsetLoop`. -/
def processWorkingsetReads (frames : ℕ → Locals) : ℕ → List PmMap → List PmRead
  | _, [] => []
  | i, map :: rest =>
      match pmMapPagemap ker.toPmKernel proc map with
      | .error error => [.pagemap (numpages ker.toPmKernel map) (.error error)]
      | .ok pagemap => pagemapRead ker.toPmKernel proc map ::
          (mapWorkingsetReads w ker pagemap (frames i) ++
            processWorkingsetReads frames (i + 1) rest)

/-- `ws` is computed from all pages of the mapping, whatever the variables held. -/
def MapWorkingsetIs (map : PmMap) (ws : MemUsage) : Prop :=
  ∃ pagemap, pmMapPagemap ker.toPmKernel proc map = .ok pagemap ∧
    ∀ locals, mapWorkingsetLoop w ker pagemap locals pmMemusageZero = some ws

/-- `pm_process_workingset` returns zero if and only if all its reads succeed, then with the sum
over the mappings, for which every page map was read in full, and otherwise it leaves `*ws_out` as
it was. -/
structure ReportsErrors (frames : ℕ → Locals) (mapWs wsOut : MemUsage) : Prop where
  zero_iff : (pmProcessWorkingset w ker proc frames mapWs (some wsOut) false (.ok ())).1 = 0 ↔
    ∀ read ∈ processWorkingsetReads w ker proc frames 0 proc.maps, read.Succeeds
  unchanged : (pmProcessWorkingset w ker proc frames mapWs (some wsOut) false (.ok ())).1 ≠ 0 →
    (pmProcessWorkingset w ker proc frames mapWs (some wsOut) false (.ok ())).2 = some wsOut
  sum : (pmProcessWorkingset w ker proc frames mapWs (some wsOut) false (.ok ())).1 = 0 →
    ∃ values, List.Forall₂ (MapWorkingsetIs w ker proc) proc.maps values ∧
      (pmProcessWorkingset w ker proc frames mapWs (some wsOut) false (.ok ())).2 =
        some (values.foldl (pmMemusageAdd w) pmMemusageZero)
  in_full : (pmProcessWorkingset w ker proc frames mapWs (some wsOut) false (.ok ())).1 = 0 →
    ∀ map ∈ proc.maps, ∃ pagemap, ReadInFull ker.toPmKernel proc map pagemap

/-- The flags of the frame of every page can be read, and its count where it is referenced. -/
def TablesReadable (pagemap : List UInt64) : Prop :=
  ∀ x ∈ pagemap, ∃ flags, flagsAnswer w ker (pmPagemapPfn x) = .ok flags ∧
    (flags &&& pmPageReferenced ≠ 0 →
      ∃ count, pmKernelCount w ker.toPmKernel (pmPagemapPfn x) = .ok count)

end Reads

section Errors

variable {w : ℕ} {ker : PmKernelTables} {proc : PmProcess} {x : UInt64} {pagemap : List UInt64}
  {frames : ℕ → Locals} {maps : List PmMap}

@[simp] theorem readInto_ok (value v : ℕ) : readInto (.ok value) v = (0, value) := rfl

@[simp] theorem succeeds_kernel_ok (value : ℕ) : (PmRead.kernel (.ok value)).Succeeds :=
  ⟨value, rfl⟩

@[simp] theorem not_succeeds_kernel_error (errno : ℤ) :
    ¬ (PmRead.kernel (.error errno)).Succeeds := fun ⟨_, h⟩ => nomatch h

@[simp] theorem not_succeeds_pagemap_error (numpages errno : ℤ) :
    ¬ (PmRead.pagemap numpages (.error errno)).Succeeds := fun ⟨_, h, _⟩ => nomatch h

/-- What `pm_map_pagemap` gives, by the answer to its `read`. -/
theorem pmMapPagemap_eq (ker : PmKernel) (proc : PmProcess) {map : PmMap}
    (h : map.start < map.stop) : pmMapPagemap ker proc map =
      match pagemapAnswer ker proc map with
      | .error errno => .error errno
      | .ok range =>
          if 8 * range.length = 0 then .ok []
          else if ((8 * range.length : ℕ) : ℤ) < s32 ((numpages ker map).toNat * 8) then
            .error (-1)
          else .ok ((List.range (numpages ker map).toNat).map fun i =>
            range.getD i (proc.unread (firstpage ker map) (numpages ker map) i)) :=
  if_neg (Nat.not_le.mpr h)

theorem refused_iff {ker : PmKernel} {map : PmMap} :
    Refused ker proc map ↔ ∃ errno, pmMapPagemap ker proc map = .error errno := by
  by_cases hrange : map.stop ≤ map.start
  · exact iff_of_true (Or.inl hrange) ⟨-1, if_pos hrange⟩
  · rw [Refused, or_iff_right hrange, pmMapPagemap_eq ker proc (Nat.not_le.mp hrange)]
    cases pagemapAnswer ker proc map with
    | error errno => simp
    | ok range =>
        by_cases hnil : range = []
        · simp [hnil]
        · have hpos : 8 * range.length ≠ 0 := by
            have := List.length_pos_of_ne_nil hnil
            omega
          by_cases hshort : ((8 * range.length : ℕ) : ℤ) < s32 ((numpages ker map).toNat * 8)
          · refine iff_of_true (Or.inr ⟨range, rfl, hnil, hshort⟩) ⟨-1, ?_⟩
            simp only [if_neg hpos, if_pos hshort]
          · refine iff_of_false ?_ ?_
            · rintro (⟨errno, h⟩ | ⟨range', h, -, hless⟩)
              · cases h
              · cases h
                exact hshort hless
            · rintro ⟨errno, h⟩
              simp only [if_neg hpos, if_neg hshort, reduceCtorEq] at h

/-- A page map that is read in full is what the caller gets. -/
theorem ReadInFull.pmMapPagemap_eq {ker : PmKernel} {map : PmMap}
    (h : ReadInFull ker proc map pagemap) : pmMapPagemap ker proc map = .ok pagemap := by
  rw [Pagemap.pmMapPagemap_eq ker proc h.nonempty, h.answer]
  rcases h.all with rfl | hall
  · rfl
  · by_cases hnil : pagemap = []
    · rw [hnil]
      rfl
    · have hpos : 8 * pagemap.length ≠ 0 := by
        have := List.length_pos_of_ne_nil hnil
        omega
      have hnum : (numpages ker map).toNat = pagemap.length := by omega
      have hbytes := proc.at_once h.answer
      have hs32 : s32 (pagemap.length * 8) = (pagemap.length * 8 : ℕ) :=
        s32_of_lt (by omega)
      have henough : ¬ ((8 * pagemap.length : ℕ) : ℤ) < s32 ((numpages ker map).toNat * 8) := by
        rw [hnum, hs32]
        omega
      have hentries : ((List.range (numpages ker map).toNat).map fun i =>
          pagemap.getD i (proc.unread (firstpage ker map) (numpages ker map) i)) = pagemap := by
        rw [hnum]
        refine List.ext_getElem (by simp) fun i h₁ h₂ => ?_
        rw [List.getElem_map, List.getElem_range, List.getD_eq_getElem?_getD,
          List.getElem?_eq_getElem h₂, Option.getD_some]
      simp only [if_neg hpos, if_neg henough, hentries]

/-- The read of a page map that is given to the caller succeeds if and only if it is read in
full. -/
theorem pagemapRead_succeeds_iff {ker : PmKernel} {map : PmMap}
    (h : pmMapPagemap ker proc map = .ok pagemap) :
    (pagemapRead ker proc map).Succeeds ↔ ReadInFull ker proc map pagemap := by
  have hrange : map.start < map.stop := by
    by_contra hle
    have herror : pmMapPagemap ker proc map = .error (-1) := if_pos (Nat.le_of_not_lt hle)
    rw [h] at herror
    cases herror
  constructor
  · rintro ⟨range, hanswer, hall⟩
    have hfull : ReadInFull ker proc map range := ⟨hrange, hanswer, hall⟩
    have heq := hfull.pmMapPagemap_eq
    rw [h, Except.ok.injEq] at heq
    rwa [heq]
  · exact fun hfull => ⟨pagemap, hfull.answer, hfull.all⟩

theorem tablesReadable_cons : TablesReadable w ker (x :: pagemap) ↔
    (∃ flags, flagsAnswer w ker (pmPagemapPfn x) = .ok flags ∧
      (flags &&& pmPageReferenced ≠ 0 →
        ∃ count, pmKernelCount w ker.toPmKernel (pmPagemapPfn x) = .ok count)) ∧
      TablesReadable w ker pagemap := List.forall_mem_cons

/-- All reads of a mapping succeed if and only if its tables can be read. -/
theorem mapWorkingsetReads_succeed_iff (locals : Locals) :
    (∀ read ∈ mapWorkingsetReads w ker pagemap locals, read.Succeeds) ↔
      TablesReadable w ker pagemap := by
  induction pagemap generalizing locals with
  | nil => simp [mapWorkingsetReads, TablesReadable]
  | cons x rest ih =>
      rw [tablesReadable_cons, mapWorkingsetReads, List.forall_mem_cons]
      cases hflags : flagsAnswer w ker (pmPagemapPfn x) with
      | error errno => simp
      | ok flags =>
          by_cases href : flags &&& pmPageReferenced = 0
          · simp [href, ih]
          · cases hcount : pmKernelCount w ker.toPmKernel (pmPagemapPfn x) with
            | error errno => simp [href]
            | ok count => simp [href, ih]

/-- The loop ends well on tables that can be read, and the variables do not matter. -/
theorem mapWorkingsetLoop_of_readable (h : TablesReadable w ker pagemap) (ws : MemUsage) :
    ∃ ws', ∀ locals, mapWorkingsetLoop w ker pagemap locals ws = some ws' := by
  induction pagemap generalizing ws with
  | nil => exact ⟨ws, fun _ => rfl⟩
  | cons x rest ih =>
      obtain ⟨⟨flags, hflags, hcount⟩, hrest⟩ := tablesReadable_cons.mp h
      by_cases href : flags &&& pmPageReferenced = 0
      · obtain ⟨ws', hws⟩ := ih hrest ws
        refine ⟨ws', fun locals => ?_⟩
        simp [mapWorkingsetLoop, hflags, href, hws]
      · obtain ⟨count, hcount⟩ := hcount href
        by_cases hswap : pmPagemapSwapped x = 0
        · obtain ⟨ws', hws⟩ := ih hrest _
          refine ⟨ws', fun locals => ?_⟩
          simp only [mapWorkingsetLoop, hflags, hcount, readInto_ok, href, hswap]
          exact hws _
        · obtain ⟨ws', hws⟩ := ih hrest { ws with vss := sizeT w (ws.vss + ker.pagesize) }
          refine ⟨ws', fun locals => ?_⟩
          simp [mapWorkingsetLoop, hflags, hcount, href, hswap, hws]

variable (w ker proc frames maps) in
/-- All reads of a list of mappings succeed if and only if all page maps are read in full and all
tables can be read. -/
theorem processWorkingsetReads_succeed_iff (i : ℕ) :
    (∀ read ∈ processWorkingsetReads w ker proc frames i maps, read.Succeeds) ↔
      ∀ map ∈ maps, ∃ pagemap, ReadInFull ker.toPmKernel proc map pagemap ∧
        TablesReadable w ker pagemap := by
  induction maps generalizing i with
  | nil => simp [processWorkingsetReads]
  | cons map rest ih =>
      rw [List.forall_mem_cons, processWorkingsetReads, ← ih (i + 1)]
      cases hpagemap : pmMapPagemap ker.toPmKernel proc map with
      | error errno =>
          refine iff_of_false (fun hall => ?_) fun hall => ?_
          · exact not_succeeds_pagemap_error _ _ (List.forall_mem_cons.mp hall).1
          · obtain ⟨⟨pagemap, hfull, -⟩, -⟩ := hall
            rw [hfull.pmMapPagemap_eq] at hpagemap
            cases hpagemap
      | ok pagemap =>
          have honly : (∃ pagemap, ReadInFull ker.toPmKernel proc map pagemap ∧
              TablesReadable w ker pagemap) ↔
              ReadInFull ker.toPmKernel proc map pagemap ∧ TablesReadable w ker pagemap := by
            refine ⟨fun ⟨pagemap', hfull, htables⟩ => ?_, fun h => ⟨pagemap, h⟩⟩
            have heq := hfull.pmMapPagemap_eq
            rw [hpagemap, Except.ok.injEq] at heq
            rw [heq]
            exact ⟨hfull, htables⟩
          simp only [List.forall_mem_cons, List.forall_mem_append,
            pagemapRead_succeeds_iff hpagemap, mapWorkingsetReads_succeed_iff, honly, and_assoc]

variable (w frames) in
/-- A page map that cannot be read is reported. -/
theorem processWorkingsetLoop_error (hnonzero : ∀ map ∈ maps, ∀ errno,
      pmMapPagemap ker.toPmKernel proc map = .error errno → errno ≠ 0)
    (h : ∃ map ∈ maps, ∃ errno, pmMapPagemap ker.toPmKernel proc map = .error errno) (i : ℕ)
    (ws mapWs : MemUsage) : ∃ errno ≠ 0,
      processWorkingsetLoop w ker proc frames i maps ws mapWs = .error errno := by
  induction maps generalizing i ws mapWs with
  | nil => simp at h
  | cons map rest ih =>
      rw [processWorkingsetLoop, pmMapWorkingset]
      cases hpagemap : pmMapPagemap ker.toPmKernel proc map with
      | error errno =>
          have hne := hnonzero map List.mem_cons_self errno hpagemap
          exact ⟨errno, hne, if_pos hne⟩
      | ok pagemap =>
          have hrest : ∃ map ∈ rest, ∃ errno,
              pmMapPagemap ker.toPmKernel proc map = .error errno := by
            obtain ⟨other, hmem, errno, herror⟩ := h
            rcases List.mem_cons.mp hmem with rfl | hmem
            · rw [hpagemap] at herror
              cases herror
            · exact ⟨other, hmem, errno, herror⟩
          exact ih (fun map hmem => hnonzero map (List.mem_cons_of_mem _ hmem)) hrest _ _ _

variable (w frames) in
/-- Nothing else is. -/
theorem processWorkingsetLoop_ok
    (h : ∀ map ∈ maps, ∃ pagemap, pmMapPagemap ker.toPmKernel proc map = .ok pagemap) (i : ℕ)
    (ws mapWs : MemUsage) :
    ∃ ws', processWorkingsetLoop w ker proc frames i maps ws mapWs = .ok ws' := by
  induction maps generalizing i ws mapWs with
  | nil => exact ⟨ws, rfl⟩
  | cons map rest ih =>
      obtain ⟨pagemap, hpagemap⟩ := h map List.mem_cons_self
      rw [processWorkingsetLoop, pmMapWorkingset, hpagemap]
      exact ih (fun map hmem => h map (List.mem_cons_of_mem _ hmem)) _ _ _

/-- The sum, when everything can be read. -/
theorem processWorkingsetLoop_eq {values : List MemUsage}
    (h : List.Forall₂ (MapWorkingsetIs w ker proc) maps values) (i : ℕ) (ws mapWs : MemUsage) :
    processWorkingsetLoop w ker proc frames i maps ws mapWs =
      .ok (values.foldl (pmMemusageAdd w) ws) := by
  induction h generalizing i ws mapWs with
  | nil => rfl
  | cons hmap hrest ih =>
      obtain ⟨pagemap, hpagemap, hloop⟩ := hmap
      rw [processWorkingsetLoop, pmMapWorkingset, hpagemap]
      simp only [hloop, Option.getD_some]
      exact ih _ _ _

theorem exists_values (h : ∀ map ∈ maps, ∃ pagemap,
      pmMapPagemap ker.toPmKernel proc map = .ok pagemap ∧ TablesReadable w ker pagemap) :
    ∃ values, List.Forall₂ (MapWorkingsetIs w ker proc) maps values := by
  induction maps with
  | nil => exact ⟨[], .nil⟩
  | cons map rest ih =>
      obtain ⟨hmap, hrest⟩ := List.forall_mem_cons.mp h
      obtain ⟨pagemap, hpagemap, hreadable⟩ := hmap
      obtain ⟨ws, hws⟩ := mapWorkingsetLoop_of_readable hreadable pmMemusageZero
      obtain ⟨values, hvalues⟩ := ih hrest
      exact ⟨ws :: values, .cons ⟨pagemap, hpagemap, hws⟩ hvalues⟩

/-- A page map that cannot be read gives an error other than zero, if the system calls do. -/
theorem pmMapPagemap_ne_zero (hnonzero : ∀ first numpages errno,
      proc.pagemap first numpages = .error errno → errno ≠ 0) {map : PmMap} {errno : ℤ}
    (h : pmMapPagemap ker.toPmKernel proc map = .error errno) : errno ≠ 0 := by
  by_cases hrange : map.stop ≤ map.start
  · rw [pmMapPagemap, pmProcessPagemapRange, if_pos hrange] at h
    cases h
    decide
  · rw [pmMapPagemap_eq ker.toPmKernel proc (Nat.not_le.mp hrange)] at h
    cases hanswer : pagemapAnswer ker.toPmKernel proc map with
    | error errno' =>
        rw [hanswer] at h
        cases h
        exact hnonzero _ _ _ hanswer
    | ok range =>
        rw [hanswer] at h
        simp only at h
        split_ifs at h
        cases h
        decide

/-- A process with one mapping of two pages. -/
def pairProcess (x y : UInt64) : PmProcess :=
  .ofEntries [⟨0x8000, 0xA000⟩] (fun _ => [x, y]) fun _ => by simp

theorem pairProcess_ne_zero (x y : UInt64) (first numpages errno : ℤ)
    (h : (pairProcess x y).pagemap first numpages = .error errno) : errno ≠ 0 := by
  simp only [pairProcess, PmProcess.ofEntries] at h
  split at h <;> cases h
  decide

/-- A kernel in which the flags of frame 9 cannot be read. -/
def holedKernel : PmKernelTables where
  pagesize := 4096
  kpagecount _ := .ok 1
  kpageflags f := if f = 9 then .error 5 else .ok 4

/-- From `2 ^ 28` pages on, and up to `2 ^ 29`, the bytes that are asked for are negative as an
`int`, so that a short read is not refused. -/
theorem not_refused_of_torn {map : PmMap} {range : List UInt64} (hrange : map.start < map.stop)
    (hanswer : pagemapAnswer ker.toPmKernel proc map = .ok range)
    (hge : 2 ^ 28 ≤ numpages ker.toPmKernel map) (hlt : numpages ker.toPmKernel map < 2 ^ 29) :
    ¬ Refused ker.toPmKernel proc map := by
  have hbytes : s32 ((numpages ker.toPmKernel map).toNat * 8) < 0 := by
    unfold s32 u32
    rw [if_neg (by omega)]
    omega
  rintro (hle | ⟨errno, herror⟩ | ⟨range', -, -, hless⟩)
  · omega
  · rw [hanswer] at herror
    cases herror
  · omega

end Errors

end SystemExtras.Pagemap
