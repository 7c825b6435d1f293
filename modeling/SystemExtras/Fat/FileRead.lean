import SystemExtras.Fat.Read

/-!
# Reading files

`file_read` seeks to the length of a request where it should seek to its offset, and
calls a read that reaches the end of the file a failure.  So it serves a request that
begins as far into the file as it is long and ends inside the file, and, because there it
does nothing to the cleared buffer, one that begins where no file goes
(`fileServed_iff`).  `fs_read` fails with it (`fsRead_files_iff`).
-/

namespace SystemExtras.Fat

/-! ## One file -/

/-- How much of a request `file_read` looks at. -/
def cutLength (off len : ℕ) : ℕ := min len (UINT32_MAX - off)

/-- The requests that `file_read` serves: those behind every file, and those that begin at their own
length and end in the file. -/
def SeeksRight (size off len : ℕ) : Prop :=
  UINT32_MAX ≤ off ∨ off = cutLength off len ∧ off + cutLength off len ≤ size

instance (size off len : ℕ) : Decidable (SeeksRight size off len) :=
  inferInstanceAs (Decidable (_ ∨ _))

/-- A read of a file has delivered the bytes of the file, and zero behind its end. -/
def ReadsFile (contents : List UInt8) (m m' : Mem) (out off len : ℕ) : Prop :=
  fileRead ⟨contents, false, true⟩ m out off len = .ok m' ∧
    ∀ i < len, m' (out + i) = contents.getD (off + i) 0

/-- Every file of this size, if it is as it was when it was imported and can be opened, is read
right into a cleared buffer. -/
def FileServed (size off len : ℕ) : Prop :=
  ∀ contents : List UInt8, contents.length = size → ∀ (m : Mem) (out : ℕ),
    (∀ i < len, m (out + i) = 0) → ∃ m', ReadsFile contents m m' out off len

section File

variable {size off len out : ℕ} {f : HostFile} {m m' : Mem}

/-- `file_read` below 2^32. -/
theorem fileRead_of_lt (hoff : off < UINT32_MAX) (hend : off + len < 2 ^ 64) :
    fileRead ⟨f.contents, false, true⟩ m out off len =
      if ((f.contents.drop (cutLength off len)).take (cutLength off len)).length ≠ cutLength off len
      then .error .failed
      else .ok (m.storeBytes out
        ((f.contents.drop (cutLength off len)).take (cutLength off len))) := by
  have hcut : (if u64 (off + len) > UINT32_MAX then sub64 UINT32_MAX off else len) =
      cutLength off len := by
    unfold cutLength UINT32_MAX at *
    rw [u64_of_lt hend, sub64_of_le (by omega) (by omega)]
    split <;> omega
  unfold fileRead
  rw [if_neg (by omega), hcut]
  rfl

theorem length_got (contents : List UInt8) (c : ℕ) :
    ((contents.drop c).take c).length = min c (contents.length - c) := by
  rw [List.length_take, List.length_drop]

/-- A read that succeeds has found `cutLength` bytes behind the place to which it went. -/
theorem fileRead_eq_ok (hoff : off < UINT32_MAX) (hend : off + len < 2 ^ 64)
    (hrun : fileRead ⟨f.contents, false, true⟩ m out off len = .ok m') :
    2 * cutLength off len ≤ f.contents.length ∧ m' = m.storeBytes out
      ((f.contents.drop (cutLength off len)).take (cutLength off len)) := by
  rw [fileRead_of_lt hoff hend] at hrun
  split at hrun
  · cases hrun
  · rename_i hgot
    rw [length_got, not_not] at hgot
    exact ⟨by omega, (Except.ok.inj hrun).symm⟩

theorem getD_map_range (g : ℕ → UInt8) (n j : ℕ) :
    ((List.range n).map g).getD j 0 = if j < n then g j else 0 := by
  rw [List.getD_eq_getElem?_getD, List.getElem?_map]
  split
  · rename_i hj
    rw [List.getElem?_range hj]
    rfl
  · rename_i hj
    rw [List.getElem?_eq_none (by rw [List.length_range]; omega)]
    rfl

/-- A request that is right for every file of the size begins at its own length: a file with a
single byte there tells it from every other place. -/
theorem seeksRight_of_reads (hlen : 1 ≤ len) (hend : off + len < 2 ^ 64)
    (h : ∀ contents : List UInt8, contents.length = size → ∃ m m' out,
      ReadsFile contents m m' out off len) : SeeksRight size off len := by
  unfold SeeksRight
  by_cases hoff : UINT32_MAX ≤ off
  · exact Or.inl hoff
  · obtain ⟨c, hc⟩ : ∃ c, cutLength off len = c := ⟨_, rfl⟩
    have hpos : 0 < c := by
      rw [← hc]
      unfold cutLength
      omega
    obtain ⟨marked, hmarked⟩ : ∃ marked : List UInt8,
        marked = (List.range size).map fun i => if i = c then 1 else 0 := ⟨_, rfl⟩
    have hlength : marked.length = size := by rw [hmarked, List.length_map, List.length_range]
    obtain ⟨m, m', out, hrun, hbytes⟩ := h marked hlength
    obtain ⟨hroom, rfl⟩ := fileRead_eq_ok (f := ⟨marked, false, true⟩) (not_le.mp hoff) hend hrun
    dsimp only at hroom hbytes
    rw [hc] at hroom hbytes ⊢
    have hgot : ((marked.drop c).take c).length = c := by
      rw [length_got]
      omega
    have hfirst := hbytes 0 hlen
    rw [Mem.storeBytes, if_pos (by omega), Nat.add_zero, Nat.sub_self, getD_take_drop hpos,
      Nat.add_zero, Nat.add_zero, hmarked, getD_map_range, getD_map_range, if_pos (by omega),
      if_pos rfl] at hfirst
    refine Or.inr ?_
    by_cases hlt : off < size
    · rw [if_pos hlt] at hfirst
      by_cases heq : off = c
      · exact ⟨heq, by omega⟩
      · rw [if_neg heq] at hfirst
        exact absurd hfirst (by decide)
    · rw [if_neg hlt] at hfirst
      exact absurd hfirst (by decide)

/-- **When `file_read` is right.** -/
theorem fileServed_iff (hsize : size < 2 ^ 32) (hlen : 1 ≤ len) (hend : off + len < 2 ^ 64) :
    FileServed size off len ↔ SeeksRight size off len := by
  constructor
  · intro hserved
    refine seeksRight_of_reads hlen hend fun contents hlength => ?_
    obtain ⟨m', hread⟩ := hserved contents hlength (fun _ => 0) 0 fun _ _ => rfl
    exact ⟨_, m', 0, hread⟩
  · intro hright contents hlength m out hzero
    have hbehind : ∀ i, UINT32_MAX ≤ off + i → contents.getD (off + i) 0 = 0 := by
      intro i hi
      unfold UINT32_MAX at hi
      rw [List.getD_eq_getElem?_getD, List.getElem?_eq_none (by omega), Option.getD_none]
    by_cases hoff : UINT32_MAX ≤ off
    · refine ⟨m, if_pos hoff, fun i hi => ?_⟩
      rw [hzero i hi, hbehind i (by omega)]
    · obtain ⟨heq, hroom⟩ := hright.resolve_left hoff
      have hgot : ((contents.drop (cutLength off len)).take (cutLength off len)).length =
          cutLength off len := by
        rw [length_got]
        omega
      refine ⟨m.storeBytes out
        ((contents.drop (cutLength off len)).take (cutLength off len)), ?_, fun i hi => ?_⟩
      · rw [fileRead_of_lt (f := ⟨contents, false, true⟩) (not_le.mp hoff) hend,
          if_neg (not_not_intro hgot)]
      · rw [Mem.storeBytes, hgot]
        by_cases hin : i < cutLength off len
        · rw [if_pos (by omega), Nat.add_sub_cancel_left, getD_take_drop hin, ← heq]
        · unfold cutLength at hin
          rw [if_neg (by unfold cutLength; omega), hzero i hi, hbehind i (by omega)]

end File

/-! ## Files in a volume -/

/-- Every file has its size, and is as it was when it was imported. -/
def Buffers.HasFiles (b : Buffers) (size : Extent → ℕ) : Prop :=
  ∀ e, (b.file e).contents.length = size e ∧ (b.file e).metadataChanged = false ∧
    (b.file e).opens = true

/-- Whatever the files and the other buffers hold, `fs_read` returns the bytes of the image. -/
def RequestServed (fs : Fs) (size : Extent → ℕ) (start len : ℕ) : Prop :=
  ∀ b : Buffers, b.HasFiles size → ∀ m, ∃ m', fsRead fs b m start len = .ok m' ∧
    ∀ i < len, m' i = imageByte fs.extents b (start + i)

section Volume

variable {start len : ℕ} {b : Buffers} {size : Extent → ℕ}

theorem fileRead_frame {f : HostFile} {m m' : Mem} {out off n : ℕ}
    (hrun : fileRead f m out off n = .ok m') (hend : off + n < 2 ^ 64) {i : ℕ}
    (hi : ¬ (out ≤ i ∧ i < out + n)) : m' i = m i := by
  unfold fileRead at hrun
  split at hrun
  · obtain rfl := Except.ok.inj hrun
    rfl
  · rename_i hoff
    dsimp only at hrun
    rw [u64_of_lt hend] at hrun
    have hcut : (if off + n > UINT32_MAX then sub64 UINT32_MAX off else n) ≤ n := by
      unfold UINT32_MAX at *
      rw [sub64_of_le (by omega) (by omega)]
      split <;> omega
    generalize (if off + n > UINT32_MAX then sub64 UINT32_MAX off else n) = c at hcut hrun
    split at hrun
    · cases hrun
    · split at hrun
      · cases hrun
      · split at hrun
        · cases hrun
        · rename_i hgot
          rw [not_not] at hgot
          obtain rfl := Except.ok.inj hrun
          exact Mem.storeBytes_apply_of_not_mem (by omega)

/-- A read writes to its part of the buffer only. -/
theorem extentRead_frame {e : Extent} {m m' : Mem} {out off n : ℕ}
    (hrun : extentRead b e m out off n = .ok m') (hend : off + n < 2 ^ 64) {i : ℕ}
    (hi : ¬ (out ≤ i ∧ i < out + n)) : m' i = m i := by
  have hbuffer : ∀ buf, bufferRead buf m out off n = .ok m' → m' i = m i := by
    intro buf hread
    obtain ⟨m₁, hread₁, hm₁⟩ : ∃ m₁, bufferRead buf m out off n = .ok m₁ ∧ _ :=
      bufferRead_spec buf m hend
    obtain rfl := Except.ok.inj (hread₁.symm.trans hread)
    rw [hm₁, if_neg hi]
  unfold extentRead at hrun
  split at hrun
  · exact hbuffer _ hrun
  · exact hbuffer _ hrun
  · exact hbuffer _ hrun
  · exact fileRead_frame hrun hend hi
  · exact hbuffer _ hrun

/-- The rounds of `fs_read` leave alone what is in no extent. -/
theorem readHits_frame {extents : List Extent} (hsane : ∀ e ∈ extents, e.Sane) :
    ∀ {m m' : Mem}, (extents.filterMap (intersection start len)).foldlM
        (fun m hit => extentRead b hit.extent m hit.rStart hit.eStart hit.len) m = .ok m' →
      ∀ i, (i < len → ∀ e ∈ extents, start + i ∉ e.bytes) → m' i = m i := by
  induction extents with
  | nil =>
      intro m m' hrun i _
      obtain rfl := Except.ok.inj hrun
      rfl
  | cons e extents ih =>
      intro m m' hrun i hnone
      obtain ⟨he, hrest⟩ := List.forall_mem_cons.mp hsane
      have hnone' : i < len → ∀ f ∈ extents, start + i ∉ f.bytes :=
        fun hlt f hf => hnone hlt f (List.mem_cons_of_mem e hf)
      rw [List.filterMap_cons] at hrun
      cases hi : intersection start len e with
      | none =>
          rw [hi] at hrun
          exact ih hrest hrun i hnone'
      | some h =>
          rw [hi] at hrun
          dsimp only at hrun
          rw [List.foldlM_cons, bind_eq_ok] at hrun
          obtain ⟨m₁, hread, hrun⟩ := hrun
          obtain ⟨-, -, hbound, -, -⟩ := bounds_of_intersection hi
          have hfits := he.2
          have hregion := (mem_of_intersection hi i).1
          rw [ih hrest hrun i hnone']
          exact extentRead_frame hread (by omega) fun hin =>
            hnone (hregion.mp hin).1 e List.mem_cons_self (hregion.mp hin).2

/-- What the round of an extent has written is there in the end. -/
theorem readHits_at {extents : List Extent} (hsane : ∀ e ∈ extents, e.Sane)
    (hdisjoint : extents.Pairwise fun e f => Disjoint e.bytes f.bytes) {e : Extent} {h : Hit}
    (he : e ∈ extents) (hi : intersection start len e = some h) :
    ∀ {m m' : Mem}, (extents.filterMap (intersection start len)).foldlM
        (fun m hit => extentRead b hit.extent m hit.rStart hit.eStart hit.len) m = .ok m' →
      ∃ m₁ m₂, extentRead b h.extent m₁ h.rStart h.eStart h.len = .ok m₂ ∧
        ∀ i, h.rStart ≤ i → i < h.rStart + h.len → m' i = m₂ i := by
  induction extents with
  | nil => exact absurd he List.not_mem_nil
  | cons f extents ih =>
      intro m m' hrun
      obtain ⟨hf, hrest⟩ := List.forall_mem_cons.mp hsane
      obtain ⟨hapart, hpairs⟩ := List.pairwise_cons.mp hdisjoint
      rw [List.filterMap_cons] at hrun
      rcases List.mem_cons.mp he with rfl | he
      · rw [hi] at hrun
        dsimp only at hrun
        rw [List.foldlM_cons, bind_eq_ok] at hrun
        obtain ⟨m₁, hread, hrun⟩ := hrun
        refine ⟨m, m₁, hread, fun i hlo hhi => ?_⟩
        have hin := (mem_of_intersection hi i).1.mp ⟨hlo, hhi⟩
        exact readHits_frame hrest hrun i fun _ g hg hmem =>
          Set.disjoint_left.mp (hapart g hg) hin.2 hmem
      · cases hf' : intersection start len f with
        | none =>
            rw [hf'] at hrun
            exact ih hrest hpairs he hrun
        | some h' =>
            rw [hf'] at hrun
            dsimp only at hrun
            rw [List.foldlM_cons, bind_eq_ok] at hrun
            obtain ⟨m₁, -, hrun⟩ := hrun
            exact ih hrest hpairs he hrun

/-- A file that is read right is served. -/
theorem serves_of_seeksRight (hfiles : b.HasFiles size) {h : Hit} (htype : h.extent.type = .file)
    (hsize : size h.extent < 2 ^ 32) (hpos : 1 ≤ h.len) (hend : h.eStart + h.len < 2 ^ 64)
    (hright : SeeksRight (size h.extent) h.eStart h.len) : b.Serves h := by
  intro m hzero
  obtain ⟨hlength, hchanged, hopens⟩ := hfiles h.extent
  have hfile : b.file h.extent = ⟨(b.file h.extent).contents, false, true⟩ := by
    rw [← hchanged, ← hopens]
  obtain ⟨m', hrun, hbytes⟩ := (fileServed_iff hsize hpos hend).mpr hright _ hlength m h.rStart
    fun i hi => hzero (h.rStart + i) (Nat.le_add_right _ i) (by omega)
  rw [← hfile] at hrun
  refine ⟨m', ?_, fun i => ?_⟩
  · unfold extentRead
    rw [htype]
    exact hrun
  · split
    · rename_i hin
      obtain ⟨j, rfl⟩ := Nat.exists_eq_add_of_le hin.1
      rw [hbytes j (by omega), Nat.add_sub_cancel_left]
      unfold Buffers.byte Buffers.contents
      rw [htype]
    · rename_i hout
      exact fileRead_frame hrun hend hout

end Volume

section Runs

variable {clusterSize dataSize start len : ℕ} {size : Extent → ℕ}

/-- A request that is served reads each of its files right. -/
theorem seeksRight_of_requestServed {fs : Fs} (hsane : ∀ e ∈ fs.extents, e.Sane)
    (hdisjoint : fs.extents.Pairwise fun e f => Disjoint e.bytes f.bytes) (hlen : 1 ≤ len)
    (hend : start + len < 2 ^ 64) (hserved : RequestServed fs size start len) {e : Extent} {h : Hit}
    (he : e ∈ fs.extents) (hi : intersection start len e = some h) (htype : e.type = .file) :
    SeeksRight (size e) h.eStart h.len := by
  obtain ⟨rfl, hpos, hbound, hrbound, hplace⟩ := bounds_of_intersection hi
  have hfits := (hsane _ he).2
  refine seeksRight_of_reads hpos (by omega) fun contents hlength => ?_
  -- the other files hold zeros
  obtain ⟨b, hb⟩ : ∃ b : Buffers, b.file = fun f => if f = h.extent then ⟨contents, false, true⟩
      else ⟨List.replicate (size f) 0, false, true⟩ :=
    ⟨⟨[], [], [], fun _ => [], _⟩, rfl⟩
  have hfiles : b.HasFiles size := by
    intro f
    rw [hb]
    dsimp only
    split
    · rename_i hf
      exact ⟨hf ▸ hlength, rfl, rfl⟩
    · exact ⟨List.length_replicate, rfl, rfl⟩
  obtain ⟨m', hrun, himage⟩ := hserved b hfiles Mem.zero
  rw [fsRead, fsReadLoop_eq b hlen hend _ hsane (Nat.lt_succ_self _)] at hrun
  obtain ⟨m₁, m₂, hread, hsame⟩ := readHits_at hsane hdisjoint he hi hrun
  refine ⟨m₁, m₂, h.rStart, ?_, fun i hlt => ?_⟩
  · unfold extentRead at hread
    rw [htype, hb] at hread
    simpa using hread
  · have hmem := (mem_of_intersection hi (h.rStart + i)).1.mp ⟨by omega, by omega⟩
    rw [← hsame _ (by omega) (by omega), himage _ hmem.1, imageByte_of_mem hdisjoint he hmem.2,
      ← (mem_of_intersection hi (h.rStart + i)).2 (by omega), Nat.add_sub_cancel_left]
    unfold Buffers.byte Buffers.contents
    rw [htype, hb]
    dsimp only
    rw [if_pos rfl]

/-- **When files are served at the right offset.**  In the volumes of `fsRead_flat`, and for files of
any sizes below 2^32, `file_read` is right for the part of a file that a request meets if and only
if that part begins at its own length and ends in the file, or begins where no file goes; and
`fs_read` is right for a request if and only if this holds of every file that it meets. -/
theorem filesServed_iff (hcs : clusterSize < 2 ^ 16) {calls : List Call} {v : Volume}
    (hrun : run clusterSize dataSize calls = some v)
    (hdisjoint : v.fs.extents.Pairwise fun e f => Disjoint e.bytes f.bytes)
    (hpos : ∀ e ∈ v.fs.extents, 0 < e.len) (hsize : ∀ e, size e < 2 ^ 32) (hlen : 1 ≤ len)
    (hend : start + len < 2 ^ 64) :
    (∀ h ∈ v.fs.extents.filterMap (intersection start len), h.extent.type = .file →
        (FileServed (size h.extent) h.eStart h.len ↔ SeeksRight (size h.extent) h.eStart h.len)) ∧
      (RequestServed v.fs size start len ↔
        ∀ h ∈ v.fs.extents.filterMap (intersection start len), h.extent.type = .file →
          SeeksRight (size h.extent) h.eStart h.len) := by
  have hsane : ∀ e ∈ v.fs.extents, e.Sane :=
    fun e he => ⟨hpos e he, (run_fits hcs hrun).extents e he⟩
  have hbounds : ∀ h ∈ v.fs.extents.filterMap (intersection start len), ∃ e ∈ v.fs.extents,
      intersection start len e = some h ∧ h.extent = e ∧ 1 ≤ h.len ∧
        h.eStart + h.len < 2 ^ 64 := by
    intro h hh
    obtain ⟨e, he, hi⟩ := List.mem_filterMap.mp hh
    obtain ⟨hextent, hone, hbound, -, -⟩ := bounds_of_intersection hi
    have hfits := (hsane e he).2
    exact ⟨e, he, hi, hextent, hone, by omega⟩
  refine ⟨fun h hh _ => ?_, fun hserved h hh htype => ?_, fun hright b hfiles m => ?_⟩
  · obtain ⟨-, -, -, -, hone, hfits⟩ := hbounds h hh
    exact fileServed_iff (hsize _) hone hfits
  · obtain ⟨e, he, hi, rfl, -⟩ := hbounds h hh
    exact seeksRight_of_requestServed hsane hdisjoint hlen hend hserved he hi htype
  · have hserves : ∀ e ∈ v.fs.extents, ∀ h, intersection start len e = some h → b.Serves h := by
      intro e he h hi
      have hh : h ∈ v.fs.extents.filterMap (intersection start len) :=
        List.mem_filterMap.mpr ⟨e, he, hi⟩
      obtain ⟨-, -, -, -, hone, hfits⟩ := hbounds h hh
      by_cases htype : h.extent.type = .file
      · exact serves_of_seeksRight hfiles htype (hsize _) hone hfits (hright h hh htype)
      · exact serves_of_ne_file htype hfits
    obtain ⟨m', hread, himage, -⟩ := fsRead_eq_image hsane hdisjoint hlen hend hserves m
    exact ⟨m', hread, himage⟩

end Runs

/-- A volume of sixteen clusters with a file of 2000 bytes. -/
theorem exists_fileVolume : ∃ v, run 512 8192 [⟨2000, .file⟩] = some v ∧
    v.fs.extents = ⟨2048, 2048, .file⟩ :: reservedExtents 512 ∧
      v.fs.extents.Pairwise fun e f => Disjoint e.bytes f.bytes := by
  have hsize : ValidSize 512 8192 := ⟨by decide, by decide, by decide, by decide, by decide⟩
  have hcalls : ValidCalls 512 [⟨2000, .file⟩] := by
    unfold ValidCalls
    decide
  obtain ⟨v, hrun, hinv⟩ := run_inv hsize hcalls
  refine ⟨v, hrun, ?_, hinv.disjoint hsize⟩
  have hmap : (run 512 8192 [⟨2000, .file⟩]).map (fun v => v.fs.extents) =
      some (⟨2048, 2048, .file⟩ :: reservedExtents 512) := by
    decide
  rw [hrun] at hmap
  exact Option.some.inj hmap

/-- The 500 bytes behind the first 500. -/
theorem filesServed_iff_second : ∃ v, run 512 8192 [⟨2000, .file⟩] = some v ∧
    RequestServed v.fs (fun _ => 2000) 2548 500 := by
  obtain ⟨v, hrun, hextents, hdisjoint⟩ := exists_fileVolume
  have hpos : ∀ e ∈ v.fs.extents, 0 < e.len := by
    rw [hextents]
    decide
  have hend : 2548 + 500 < 2 ^ 64 := by decide
  have hsize : ∀ e : Extent, (fun _ : Extent => 2000) e < 2 ^ 32 := by
    intro e
    norm_num
  have hserved := (filesServed_iff (by decide) hrun hdisjoint hpos hsize (by decide) hend).2
  rw [hextents] at hserved
  exact ⟨v, hrun, hserved.mpr (by decide)⟩

/-- The first sector of the file. -/
theorem not_filesServed_first : ∃ v, run 512 8192 [⟨2000, .file⟩] = some v ∧
    ¬ RequestServed v.fs (fun _ => 2000) 2048 512 ∧ ¬ FileServed 2000 0 512 := by
  obtain ⟨v, hrun, hextents, hdisjoint⟩ := exists_fileVolume
  have hsane : ∀ e ∈ v.fs.extents, e.Sane := by
    rw [hextents]
    unfold Extent.Sane
    decide
  have hmem : ⟨2048, 2048, .file⟩ ∈ v.fs.extents := by
    rw [hextents]
    exact List.mem_cons_self
  have hend : 2048 + 512 < 2 ^ 64 := by decide
  refine ⟨v, hrun, fun hserved => ?_, fun hserved => ?_⟩
  · have hright := seeksRight_of_requestServed hsane hdisjoint (by decide) hend hserved hmem
      (h := ⟨⟨2048, 2048, .file⟩, 0, 0, 512⟩) (by decide) rfl
    exact absurd hright (by decide)
  · have hright : SeeksRight 2000 0 512 := by
      refine seeksRight_of_reads (by decide) (by decide) fun contents hlength => ?_
      obtain ⟨m', hread⟩ := hserved contents hlength Mem.zero 0 fun _ _ => rfl
      exact ⟨_, m', 0, hread⟩
    exact absurd hright (by decide)

end SystemExtras.Fat
