import SystemExtras.Fat.Volume
import SystemExtras.Lib.Bytes
import SystemExtras.Lib.Run

/-!
# Reading the volume

`fs_read` clears the buffer, asks `fs_find_extent` for one extent after the other that
the request touches, and copies what the extent stands for: a sector, the FAT, a table
of entries or the contents of a file.  The extents are in no order, and what they stand
for may be shorter than they are.

When the extents do not overlap, what `fs_find_extent` returns are the nonempty
intersections of the request with the extents (`fsFindExtents_eq`), and if none of them
belongs to a file the buffer is a piece of one flat image, however the request is cut
(`fsRead_flat`).
-/

namespace SystemExtras.Fat

/-! ## The code -/

/-- How a read can go wrong. -/
inductive ReadFault where
  | assertion
  | failed
  | skyIsFalling
  | hang
  deriving DecidableEq, Repr

/-- A file of the host as `file_read` finds it: its bytes, whether its metadata has changed since it
was imported, and whether it can be opened. -/
structure HostFile where
  contents : List UInt8
  metadataChanged : Bool
  opens : Bool
  deriving DecidableEq, Repr

/-- What the extents stand for. -/
structure Buffers where
  boot : List UInt8
  info : List UInt8
  fat : List UInt8
  dir : Extent → List UInt8
  file : Extent → HostFile

/-- What `fs_find_extent` returns: the extent, where the two begin in each other, and how long they
overlap. -/
structure Hit where
  extent : Extent
  rStart : ℕ
  eStart : ℕ
  len : ℕ
  deriving DecidableEq, Repr

/-- What `fs_find_extent` puts into its results for an extent that the request touches. -/
def relativeTo (start len : ℕ) (e : Extent) : Hit :=
  let end_ := u64 (start + len)
  let eEnd := u64 (e.start + e.len)
  if e.start ≤ start then
    ⟨e, 0, sub64 start e.start, if end_ ≤ eEnd then len else sub64 eEnd start⟩
  else
    ⟨e, sub64 e.start start, 0, if eEnd ≤ end_ then e.len else sub64 end_ e.start⟩

/-- `fs_find_extent`, from the extents behind `last` on: what it returns and the extents behind
that. -/
def fsFindExtent (start len : ℕ) : List Extent → Except ReadFault (Option (Hit × List Extent))
  | [] => .ok none
  | e :: rest =>
      if start ≥ u64 (e.start + e.len) then fsFindExtent start len rest
      else if u64 (start + len) ≤ e.start then fsFindExtent start len rest
      else
        let hit := relativeTo start len e
        if hit.eStart < e.len ∧ u64 (hit.eStart + hit.len) ≤ e.len ∧ hit.rStart < len ∧
            u64 (hit.rStart + hit.len) ≤ len then .ok (some (hit, rest))
        else .error .assertion

/-- `buffer_read` to the address `out`. -/
def bufferRead (buf : List UInt8) (m : Mem) (out off len : ℕ) : Except ReadFault Mem :=
  if off ≥ buf.length then .ok (m.fill out len 0)
  else
    let cut := sub64 buf.length off
    let ends := u64 (off + len) > buf.length
    let m := if ends then m.fill (out + cut) (sub64 len cut) 0 else m
    let len := if ends then cut else len
    if u64 (off + len) ≤ buf.length then .ok (m.storeBytes out ((buf.drop off).take len))
    else .error .assertion

/-- `UINT32_MAX`. -/
def UINT32_MAX : ℕ := 2 ^ 32 - 1

/-- `file_read` to the address `out`.  The seek is to `len`, and `read` returns what there is. -/
def fileRead (f : HostFile) (m : Mem) (out off len : ℕ) : Except ReadFault Mem :=
  if off ≥ UINT32_MAX then .ok m
  else
    let len := if u64 (off + len) > UINT32_MAX then sub64 UINT32_MAX off else len
    if f.metadataChanged then .error .skyIsFalling
    else if !f.opens then .error .failed
    else
      let got := (f.contents.drop len).take len
      if got.length ≠ len then .error .failed else .ok (m.storeBytes out got)

/-- `extent_read`, and `dir_read`. -/
def extentRead (b : Buffers) (e : Extent) (m : Mem) (out off len : ℕ) : Except ReadFault Mem :=
  match e.type with
  | .boot => bufferRead b.boot m out off len
  | .info => bufferRead b.info m out off len
  | .fat => bufferRead b.fat m out off len
  | .file => fileRead (b.file e) m out off len
  | .dir => bufferRead (b.dir e) m out off len

/-- The loop of `fs_read`, from the extents behind `e` on. -/
def fsReadLoop (b : Buffers) (start len : ℕ) : ℕ → List Extent → Mem → Except ReadFault Mem
  | 0, _, _ => .error .hang
  | fuel + 1, rest, m => do
      match ← fsFindExtent start len rest with
      | none => .ok m
      | some (hit, rest) =>
          let m ← extentRead b hit.extent m hit.rStart hit.eStart hit.len
          fsReadLoop b start len fuel rest m

/-- `fs_read`.  Each round moves on in the list. -/
def fsRead (fs : Fs) (b : Buffers) (m : Mem) (start len : ℕ) : Except ReadFault Mem :=
  fsReadLoop b start len (fs.extents.length + 1) fs.extents (m.fill 0 len 0)

/-- The results of `fs_find_extent`, called until it returns null. -/
def fsFindExtents (start len : ℕ) : ℕ → List Extent → Except ReadFault (List Hit)
  | 0, _ => .error .hang
  | fuel + 1, rest => do
      match ← fsFindExtent start len rest with
      | none => .ok []
      | some (hit, rest) =>
          let hits ← fsFindExtents start len fuel rest
          .ok (hit :: hits)

/-! ## The flat image -/

/-- The part of the request `[start, start + len)` that falls into an extent, if there is one. -/
def intersection (start len : ℕ) (e : Extent) : Option Hit :=
  let lo := max start e.start
  let hi := min (start + len) (e.start + e.len)
  if lo < hi then some ⟨e, lo - start, lo - e.start, hi - lo⟩ else none

/-- What an extent stands for. -/
def Buffers.contents (b : Buffers) (e : Extent) : List UInt8 :=
  match e.type with
  | .boot => b.boot
  | .info => b.info
  | .fat => b.fat
  | .file => (b.file e).contents
  | .dir => b.dir e

/-- The byte of an extent, which is zero behind what the extent stands for. -/
def Buffers.byte (b : Buffers) (e : Extent) (off : ℕ) : UInt8 := (b.contents e).getD off 0

/-- The byte of the image at `x`, which is zero outside the extents. -/
def imageByte (extents : List Extent) (b : Buffers) (x : ℕ) : UInt8 :=
  match extents.find? fun e => e.start ≤ x ∧ x < e.start + e.len with
  | none => 0
  | some e => b.byte e (x - e.start)

/-! ## Finding extents -/

/-- An extent that is not empty and does not wrap around. -/
def Extent.Sane (e : Extent) : Prop := 0 < e.len ∧ e.start + e.len < 2 ^ 64

section Find

variable {start len : ℕ} {e : Extent} {extents : List Extent}

/-- Both cases of `fs_find_extent` put the beginning and the end of the intersection relative to the
request and to the extent. -/
theorem intersection_eq (he : e.Sane) (hlen : 0 < len) (hend : start + len < 2 ^ 64)
    (hlo : start < e.start + e.len)
    (hhi : e.start < start + len) :
    intersection start len e = some (relativeTo start len e) := by
  obtain ⟨hpos, hbound⟩ := he
  have hmeet : max start e.start < min (start + len) (e.start + e.len) := by omega
  unfold intersection relativeTo
  dsimp only
  rw [if_pos hmeet, u64_of_lt hend, u64_of_lt hbound]
  by_cases hin : e.start ≤ start
  · rw [if_pos hin, sub64_of_le hin (by omega), sub64_of_le hlo.le hbound]
    congr 2
    · omega
    · omega
    · split <;> omega
  · rw [if_neg hin, sub64_of_le (by omega) (by omega), sub64_of_le hhi.le hend]
    congr 2
    · omega
    · omega
    · split <;> omega

theorem bounds_of_intersection {h : Hit} (hi : intersection start len e = some h) :
    h.extent = e ∧ 0 < h.len ∧ h.eStart + h.len ≤ e.len ∧ h.rStart + h.len ≤ len ∧
      start + h.rStart = e.start + h.eStart := by
  unfold intersection at hi
  dsimp only at hi
  split at hi
  · cases hi
    exact ⟨rfl, by dsimp only; omega, by dsimp only; omega, by dsimp only; omega,
      by dsimp only; omega⟩
  · cases hi

/-- An extent is returned if it meets the request, and no assertion fails. -/
theorem fsFindExtent_cons (he : e.Sane) (hlen : 0 < len) (hend : start + len < 2 ^ 64) :
    fsFindExtent start len (e :: extents) = match intersection start len e with
      | none => fsFindExtent start len extents
      | some hit => .ok (some (hit, extents)) := by
  rw [fsFindExtent, u64_of_lt he.2, u64_of_lt hend]
  by_cases hmiss : start ≥ e.start + e.len
  · have hnone : intersection start len e = none := if_neg (by omega)
    rw [if_pos hmiss, hnone]
  · by_cases hmiss' : start + len ≤ e.start
    · have hnone : intersection start len e = none := if_neg (by omega)
      rw [if_neg hmiss, if_pos hmiss', hnone]
    · have hhit := intersection_eq he hlen hend (by omega) (by omega)
      obtain ⟨-, hpos, heb, hrb, -⟩ := bounds_of_intersection hhit
      have hbound := he.2
      rw [if_neg hmiss, if_neg hmiss', hhit]
      dsimp only
      rw [u64_of_lt (by omega), u64_of_lt (by omega), if_pos ⟨by omega, heb, by omega, hrb⟩]

/-- The next extent is the first of those that meet the request. -/
theorem fsFindExtent_cases (hsane : ∀ e ∈ extents, e.Sane) (hlen : 0 < len)
    (hend : start + len < 2 ^ 64) :
    (fsFindExtent start len extents = .ok none ∧ extents.filterMap (intersection start len) = []) ∨
      ∃ hit rest, fsFindExtent start len extents = .ok (some (hit, rest)) ∧
        extents.filterMap (intersection start len) =
          hit :: rest.filterMap (intersection start len) ∧ rest.length < extents.length ∧
        ∀ e ∈ rest, e ∈ extents := by
  induction extents with
  | nil => exact Or.inl ⟨rfl, rfl⟩
  | cons e extents ih =>
      obtain ⟨he, hrest⟩ := List.forall_mem_cons.mp hsane
      rw [fsFindExtent_cons he hlen hend, List.filterMap_cons]
      cases intersection start len e with
      | none =>
          refine (ih hrest).imp_right fun ⟨hit, rest, hfind, hhits, hlt, hsub⟩ => ?_
          exact ⟨hit, rest, hfind, hhits, Nat.lt_succ_of_lt hlt,
            fun e he => List.mem_cons_of_mem _ (hsub e he)⟩
      | some hit =>
          exact Or.inr ⟨hit, extents, rfl, rfl, Nat.lt_succ_self _,
            fun e he => List.mem_cons_of_mem _ he⟩

/-- **What `fs_find_extent` finds.** -/
theorem fsFindExtents_eq (hlen : 0 < len) (hend : start + len < 2 ^ 64) :
    ∀ {fuel : ℕ} {extents : List Extent},
    (∀ e ∈ extents, e.Sane) → extents.length < fuel →
      fsFindExtents start len fuel extents = .ok (extents.filterMap (intersection start len)) := by
  intro fuel
  induction fuel with
  | zero => exact fun _ hlt => absurd hlt (Nat.not_lt_zero _)
  | succ fuel ih =>
      intro extents hsane hlt
      rw [fsFindExtents]
      rcases fsFindExtent_cases hsane hlen hend with ⟨hfind, hhits⟩ | ⟨hit, rest, hfind, hhits, hless, hsub⟩
      · rw [hfind, hhits]
        rfl
      · rw [hfind, hhits, bind_ok]
        dsimp only
        rw [ih (fun e he => hsane e (hsub e he)) (by omega), bind_ok]

/-- `fs_read` reads the intersections in the order of the extents. -/
theorem fsReadLoop_eq (b : Buffers) (hlen : 0 < len) (hend : start + len < 2 ^ 64) :
    ∀ {fuel : ℕ} {extents : List Extent} (m : Mem), (∀ e ∈ extents, e.Sane) →
      extents.length < fuel → fsReadLoop b start len fuel extents m =
        (extents.filterMap (intersection start len)).foldlM
          (fun m hit => extentRead b hit.extent m hit.rStart hit.eStart hit.len) m := by
  intro fuel
  induction fuel with
  | zero => exact fun _ _ hlt => absurd hlt (Nat.not_lt_zero _)
  | succ fuel ih =>
      intro extents m hsane hlt
      rw [fsReadLoop]
      rcases fsFindExtent_cases hsane hlen hend with ⟨hfind, hhits⟩ | ⟨hit, rest, hfind, hhits, hless, hsub⟩
      · rw [hfind, hhits]
        rfl
      · rw [hfind, hhits, bind_ok, List.foldlM_cons]
        dsimp only
        exact bind_congr fun m => ih m (fun e he => hsane e (hsub e he)) (by omega)

end Find

/-! ## Filling the buffer -/

/-- Reading the part `h` of an extent into a cleared buffer writes that part and nothing else. -/
def Buffers.Serves (b : Buffers) (h : Hit) : Prop :=
  ∀ m : Mem, (∀ i, h.rStart ≤ i → i < h.rStart + h.len → m i = 0) →
    ∃ m', extentRead b h.extent m h.rStart h.eStart h.len = .ok m' ∧
      ∀ i, m' i = if h.rStart ≤ i ∧ i < h.rStart + h.len then
        b.byte h.extent (h.eStart + (i - h.rStart)) else m i

section Fill

variable {start len : ℕ} {b : Buffers}

theorem getD_take_drop {buf : List UInt8} {off n j : ℕ} (hj : j < n) :
    ((buf.drop off).take n).getD j 0 = buf.getD (off + j) 0 := by
  rw [List.getD_eq_getElem?_getD, List.getElem?_take_of_lt hj, List.getElem?_drop,
    ← List.getD_eq_getElem?_getD]

/-- `buffer_read` clears what is behind the buffer. -/
theorem bufferRead_spec (buf : List UInt8) (m : Mem) {out off len : ℕ} (h : off + len < 2 ^ 64) :
    ∃ m', bufferRead buf m out off len = .ok m' ∧
      ∀ i, m' i = if out ≤ i ∧ i < out + len then buf.getD (off + (i - out)) 0 else m i := by
  unfold bufferRead
  by_cases hout : off ≥ buf.length
  · refine ⟨_, if_pos hout, fun i => ?_⟩
    unfold Mem.fill
    split
    · rw [List.getD_eq_getElem?_getD, List.getElem?_eq_none (by omega), Option.getD_none]
    · rfl
  · rw [if_neg hout, u64_of_lt h]
    dsimp only
    by_cases hends : off + len > buf.length
    · have hcut : sub64 buf.length off = buf.length - off := sub64_of_le (by omega) (by omega)
      have hrest : sub64 len (buf.length - off) = len - (buf.length - off) :=
        sub64_of_le (by omega) (by omega)
      have hlength : ((buf.drop off).take (buf.length - off)).length = buf.length - off := by
        rw [List.length_take, List.length_drop, Nat.min_self]
      rw [if_pos hends, if_pos hends, hcut, hrest, u64_of_lt (by omega), if_pos (by omega)]
      refine ⟨_, rfl, fun i => ?_⟩
      unfold Mem.storeBytes
      rw [hlength]
      by_cases hi : out ≤ i ∧ i < out + (buf.length - off)
      · rw [if_pos hi, if_pos (by omega), getD_take_drop (by omega)]
      · rw [if_neg hi]
        unfold Mem.fill
        by_cases hzero : out + (buf.length - off) ≤ i ∧
            i < out + (buf.length - off) + (len - (buf.length - off))
        · rw [if_pos hzero, if_pos (by omega), List.getD_eq_getElem?_getD,
            List.getElem?_eq_none (by omega), Option.getD_none]
        · rw [if_neg hzero, if_neg (by omega)]
    · have hlength : ((buf.drop off).take len).length = len := by
        rw [List.length_take, List.length_drop]
        omega
      rw [if_neg hends, if_neg hends, u64_of_lt h, if_pos (by omega)]
      refine ⟨_, rfl, fun i => ?_⟩
      unfold Mem.storeBytes
      rw [hlength]
      split
      · rw [getD_take_drop (by omega)]
      · rfl

/-- Every extent but those of files is served. -/
theorem serves_of_ne_file {h : Hit} (htype : h.extent.type ≠ .file)
    (hbound : h.eStart + h.len < 2 ^ 64) : b.Serves h := by
  intro m _
  unfold extentRead Buffers.byte Buffers.contents
  cases htypeEq : h.extent.type with
  | file => exact absurd htypeEq htype
  | boot => exact bufferRead_spec b.boot m hbound
  | info => exact bufferRead_spec b.info m hbound
  | fat => exact bufferRead_spec b.fat m hbound
  | dir => exact bufferRead_spec (b.dir h.extent) m hbound

/-- The places of a hit in the buffer are those of the extent in the request. -/
theorem mem_of_intersection {e : Extent} {h : Hit} (hi : intersection start len e = some h)
    (i : ℕ) :
    (h.rStart ≤ i ∧ i < h.rStart + h.len ↔ i < len ∧ start + i ∈ e.bytes) ∧
      (h.rStart ≤ i → h.eStart + (i - h.rStart) = start + i - e.start) := by
  unfold intersection at hi
  dsimp only at hi
  unfold Extent.bytes
  rw [Set.mem_Ico]
  split at hi
  · cases hi
    dsimp only
    omega
  · cases hi

theorem not_mem_of_intersection {e : Extent} (hi : intersection start len e = none) {i : ℕ}
    (hlt : i < len) : start + i ∉ e.bytes := by
  unfold intersection at hi
  dsimp only at hi
  unfold Extent.bytes
  rw [Set.mem_Ico]
  split at hi
  · cases hi
  · omega

/-- The rounds of `fs_read` write the bytes of every extent where the request meets it. -/
theorem readHits_spec {extents : List Extent} :
    (extents.Pairwise fun e f => Disjoint e.bytes f.bytes) →
    (∀ e ∈ extents, ∀ h, intersection start len e = some h → b.Serves h) →
    ∀ m : Mem, (∀ i < len, ∀ e ∈ extents, start + i ∈ e.bytes → m i = 0) →
    ∃ m', (extents.filterMap (intersection start len)).foldlM
        (fun m hit => extentRead b hit.extent m hit.rStart hit.eStart hit.len) m = .ok m' ∧
      (∀ i < len, ∀ e ∈ extents, start + i ∈ e.bytes → m' i = b.byte e (start + i - e.start)) ∧
      ∀ i, (i < len → ∀ e ∈ extents, start + i ∉ e.bytes) → m' i = m i := by
  induction extents with
  | nil => exact fun _ _ m _ => ⟨m, rfl, fun i _ e he => absurd he List.not_mem_nil, fun i _ => rfl⟩
  | cons e extents ih =>
      intro hdisjoint hserves m hzero
      obtain ⟨he, hrest⟩ := List.pairwise_cons.mp hdisjoint
      obtain ⟨hserve, hserves⟩ := List.forall_mem_cons.mp hserves
      rw [List.filterMap_cons]
      cases hi : intersection start len e with
      | none =>
          obtain ⟨m', hrun, hin, hout⟩ := ih hrest hserves m fun i hlt f hf =>
            hzero i hlt f (List.mem_cons_of_mem e hf)
          refine ⟨m', hrun, fun i hlt f hf hmem => ?_, fun i hnone => ?_⟩
          · rcases List.mem_cons.mp hf with rfl | hf
            · exact absurd hmem (not_mem_of_intersection hi hlt)
            · exact hin i hlt f hf hmem
          · exact hout i fun hlt f hf => hnone hlt f (List.mem_cons_of_mem e hf)
      | some h =>
          have hplace := mem_of_intersection hi
          have hextent := (bounds_of_intersection hi).1
          obtain ⟨m₁, hread, hm₁⟩ := hserve h hi m fun i hlo hhi =>
            hzero i ((hplace i).1.mp ⟨hlo, hhi⟩).1 e List.mem_cons_self ((hplace i).1.mp ⟨hlo, hhi⟩).2
          have hother : ∀ i < len, ∀ f ∈ extents, start + i ∈ f.bytes → start + i ∉ e.bytes :=
            fun i _ f hf hmem hmem' => Set.disjoint_left.mp (he f hf) hmem' hmem
          have hkeep : ∀ i, (i < len → start + i ∉ e.bytes) → m₁ i = m i := by
            intro i hnot
            rw [hm₁, if_neg fun hin => hnot ((hplace i).1.mp hin).1 ((hplace i).1.mp hin).2]
          obtain ⟨m', hrun, hin, hout⟩ := ih hrest hserves m₁ fun i hlt f hf hmem => by
            rw [hkeep i fun _ => hother i hlt f hf hmem]
            exact hzero i hlt f (List.mem_cons_of_mem e hf) hmem
          refine ⟨m', ?_, fun i hlt f hf hmem => ?_, fun i hnone => ?_⟩
          · dsimp only
            rw [List.foldlM_cons, hread, bind_ok, hrun]
          · rcases List.mem_cons.mp hf with rfl | hf
            · have hregion := (hplace i).1.mpr ⟨hlt, hmem⟩
              rw [hout i fun _ g hg hmem' => hother i hlt g hg hmem' hmem, hm₁, if_pos hregion,
                (hplace i).2 hregion.1, hextent]
            · exact hin i hlt f hf hmem
          · rw [hout i fun hlt f hf => hnone hlt f (List.mem_cons_of_mem e hf),
              hkeep i fun hlt => hnone hlt e List.mem_cons_self]

/-- The byte of the image in an extent. -/
theorem imageByte_of_mem {extents : List Extent} {x : ℕ}
    (hdisjoint : extents.Pairwise fun e f => Disjoint e.bytes f.bytes) {e : Extent}
    (he : e ∈ extents) (hx : x ∈ e.bytes) : imageByte extents b x = b.byte e (x - e.start) := by
  unfold imageByte
  cases hfind : extents.find? fun e => e.start ≤ x ∧ x < e.start + e.len with
  | none =>
      have hnone := List.find?_eq_none.mp hfind e he
      exact absurd (decide_eq_true (Set.mem_Ico.mp hx)) hnone
  | some f =>
      have hf : x ∈ f.bytes := Set.mem_Ico.mpr (by simpa using List.find?_some hfind)
      have : Std.Symm fun e f : Extent => Disjoint e.bytes f.bytes := ⟨fun _ _ h => h.symm⟩
      have hsame : f = e := by
        by_contra hne
        exact Set.disjoint_left.mp (hdisjoint.forall (List.mem_of_find?_eq_some hfind) he hne) hf hx
      rw [hsame]

theorem imageByte_of_not_mem {extents : List Extent} {x : ℕ} (h : ∀ e ∈ extents, x ∉ e.bytes) :
    imageByte extents b x = 0 := by
  unfold imageByte
  have hnone : extents.find? (fun e => e.start ≤ x ∧ x < e.start + e.len) = none := by
    rw [List.find?_eq_none]
    intro e he hx
    exact h e he (Set.mem_Ico.mpr (by simpa using hx))
  rw [hnone]

theorem bytes_eq_map {m : Mem} {n : ℕ} {f : ℕ → UInt8} (h : ∀ i < n, m i = f i) :
    m.bytes 0 n = (List.range n).map f := by
  refine List.map_congr_left fun i hi => ?_
  rw [Nat.zero_add, h i (List.mem_range.mp hi)]

/-- A smaller request meets no other extents. -/
theorem intersection_of_subset {s n : ℕ} {e : Extent} {h : Hit} (hs : start ≤ s)
    (hn : s + n ≤ start + len) (hi : intersection s n e = some h) :
    ∃ h', intersection start len e = some h' := by
  unfold intersection at hi ⊢
  dsimp only at hi ⊢
  split at hi
  · exact ⟨_, if_pos (by omega)⟩
  · cases hi

/-- If every extent that the request meets is served, `fs_read` returns a piece of the image, and
leaves alone what is behind it. -/
theorem fsRead_eq_image {fs : Fs} (hsane : ∀ e ∈ fs.extents, e.Sane)
    (hdisjoint : fs.extents.Pairwise fun e f => Disjoint e.bytes f.bytes) (hlen : 0 < len)
    (hend : start + len < 2 ^ 64)
    (hserves : ∀ e ∈ fs.extents, ∀ h, intersection start len e = some h → b.Serves h) (m : Mem) :
    ∃ m', fsRead fs b m start len = .ok m' ∧
      (∀ i < len, m' i = imageByte fs.extents b (start + i)) ∧ ∀ i, len ≤ i → m' i = m i := by
  have hclear : ∀ i < len, m.fill 0 len 0 i = 0 := fun i hi => if_pos ⟨Nat.zero_le i, by omega⟩
  obtain ⟨m', hrun, hin, hout⟩ := readHits_spec hdisjoint hserves (m.fill 0 len 0)
    fun i hi _ _ _ => hclear i hi
  refine ⟨m', ?_, fun i hi => ?_, fun i hi => ?_⟩
  · rw [fsRead, fsReadLoop_eq b hlen hend _ hsane (Nat.lt_succ_self _), hrun]
  · by_cases hmem : ∃ e ∈ fs.extents, start + i ∈ e.bytes
    · obtain ⟨e, he, hx⟩ := hmem
      rw [hin i hi e he hx, imageByte_of_mem hdisjoint he hx]
    · have hnone : ∀ e ∈ fs.extents, start + i ∉ e.bytes := fun e he hx => hmem ⟨e, he, hx⟩
      rw [hout i fun _ => hnone, hclear i hi, imageByte_of_not_mem hnone]
  · rw [hout i fun hlt => absurd hlt (not_lt.mpr hi)]
    exact if_neg (by omega)

end Fill

/-! ## Volumes in use -/

section Runs

variable {clusterSize dataSize : ℕ}

theorem linkClusters_keeps {start : ℕ} {n : ℕ} : ∀ {fs fs' : Fs} {i : ℕ},
    linkClusters fs start i n = some fs' → fs'.clusterSize = fs.clusterSize ∧
      fs'.dataOffset = fs.dataOffset ∧ fs'.extents = fs.extents := by
  induction n with
  | zero =>
      intro fs fs' i h
      obtain rfl := Option.some.inj h
      exact ⟨rfl, rfl, rfl⟩
  | succ n ih =>
      intro fs fs' i h
      rw [linkClusters, Option.bind_eq_bind, Option.bind_eq_some_iff] at h
      obtain ⟨fs₁, hset, hrest⟩ := h
      unfold fsSetFat at hset
      split at hset
      · cases hset
        obtain ⟨hsize, hoffset, hextents⟩ := ih hrest
        exact ⟨hsize, hoffset, hextents⟩
      · cases hset

/-- No extent wraps around: a cluster number has 32 bits, and the size of a cluster 16. -/
structure Fits (clusterSize : ℕ) (fs : Fs) : Prop where
  clusterSize_eq : fs.clusterSize = clusterSize
  dataOffset_lt : fs.dataOffset < 2 ^ 42
  extents : ∀ e ∈ fs.extents, e.start + e.len < 2 ^ 64

theorem fits_init (clusterSize dataSize : ℕ) :
    Fits clusterSize (fsInit clusterSize dataSize).1 := by
  refine ⟨rfl, ?_, ?_⟩
  · unfold fsInit fsAddExtent defaultSectorSize
    dsimp only
    have hlt := u32_lt (u32 (divRoundUp64 dataSize clusterSize) + 2 + 512 / 4 - 1)
    exact (Nat.mod_le _ _).trans_lt (by omega)
  · unfold fsInit fsAddExtent defaultSectorSize
    dsimp only
    have hlt := u32_lt (u32 (divRoundUp64 dataSize clusterSize) + 2 + 512 / 4 - 1)
    generalize u32 (u32 (divRoundUp64 dataSize clusterSize) + 2 + 512 / 4 - 1) = n at hlt
    have hsize : u64 (n / (512 / 4) * 512) ≤ n / (512 / 4) * 512 := Nat.mod_le _ _
    have hstart : u64 (3 * 512) = 1536 := by decide
    simp only [List.forall_mem_cons, hstart]
    exact ⟨by omega, by omega, by omega, by omega, fun e he => absurd he List.not_mem_nil⟩

theorem Fits.alloc (hcs : clusterSize < 2 ^ 16) {fs fs' : Fs} {len : ℕ} {type : ExtentType}
    {result : Option (Extent × ℕ)} (h : Fits clusterSize fs)
    (halloc : fsAllocExtent fs len type = some (fs', result)) : Fits clusterSize fs' := by
  unfold fsAllocExtent at halloc
  split at halloc
  · cases halloc
    exact h
  · dsimp only at halloc
    split at halloc
    · cases halloc
      exact h
    · simp only [Option.bind_eq_bind, Option.bind_eq_some_iff] at halloc
      obtain ⟨fs₁, hlink, fs₂, hset, halloc⟩ := halloc
      obtain ⟨hsize, hoffset, hextents⟩ := linkClusters_keeps hlink
      unfold fsSetFat at hset
      split at hset
      · cases hset
        cases halloc
        refine ⟨hsize.trans h.clusterSize_eq, hoffset.trans_lt h.dataOffset_lt, ?_⟩
        unfold fsAddExtent
        dsimp only
        rw [hextents]
        refine List.forall_mem_cons.mpr ⟨?_, h.extents⟩
        have hspan : sub32 fs.nextCluster fatClusterZero * fs.clusterSize ≤ 2 ^ 32 * 2 ^ 16 :=
          Nat.mul_le_mul (u32_lt _).le (h.clusterSize_eq ▸ hcs.le)
        have hlen : u32 (divRoundUp64 len fs.clusterSize) * fs.clusterSize ≤ 2 ^ 32 * 2 ^ 16 :=
          Nat.mul_le_mul (u32_lt _).le (h.clusterSize_eq ▸ hcs.le)
        have hoff := h.dataOffset_lt
        rw [hsize, hoffset]
        dsimp only
        rw [u64_of_lt (by omega), u64_of_lt (by omega)]
        omega
      · cases hset

theorem run_fits (hcs : clusterSize < 2 ^ 16) {calls : List Call} {v : Volume}
    (hrun : run clusterSize dataSize calls = some v) : Fits clusterSize v.fs := by
  have hall : ∀ (calls : List Call) (w : Volume), Fits clusterSize w.fs →
      calls.foldlM Volume.alloc w = some v → Fits clusterSize v.fs := by
    intro calls
    induction calls with
    | nil =>
        intro w hw hrun
        obtain rfl := Option.some.inj hrun
        exact hw
    | cons c calls ih =>
        intro w hw hrun
        rw [List.foldlM_cons, Option.bind_eq_bind, Option.bind_eq_some_iff] at hrun
        obtain ⟨w', halloc, hrest⟩ := hrun
        refine ih w' ?_ hrest
        unfold Volume.alloc at halloc
        rw [Option.bind_eq_bind, Option.bind_eq_some_iff] at halloc
        obtain ⟨⟨fs, result⟩, hcall, hresult⟩ := halloc
        have hfits := hw.alloc hcs hcall
        cases result with
        | none =>
            obtain rfl := Option.some.inj hresult
            exact hfits
        | some r =>
            dsimp only at hresult
            split at hresult
            · obtain rfl := Option.some.inj hresult
              exact hfits
            · obtain rfl := Option.some.inj hresult
              exact hfits
  exact hall calls _ (fits_init clusterSize dataSize) hrun

/-- **The flat image.**  In a volume that `fs_init` and any calls of `fs_alloc_extent` have left with
extents that are not empty and do not overlap, `fs_find_extent` returns the nonempty intersections
of a request with the extents, each once and in order.  If none of them belongs to a file, `fs_read`
returns the bytes of the image, and a request that is cut in two returns the same bytes. -/
theorem fsRead_flat (hcs : clusterSize < 2 ^ 16) {calls : List Call} {v : Volume}
    (hrun : run clusterSize dataSize calls = some v)
    (hdisjoint : v.fs.extents.Pairwise fun e f => Disjoint e.bytes f.bytes)
    (hpos : ∀ e ∈ v.fs.extents, 0 < e.len) (b : Buffers) {start len : ℕ} (hlen : 1 ≤ len)
    (hend : start + len < 2 ^ 64) :
    fsFindExtents start len (v.fs.extents.length + 1) v.fs.extents =
        .ok (v.fs.extents.filterMap (intersection start len)) ∧
      ((∀ h ∈ v.fs.extents.filterMap (intersection start len), h.extent.type ≠ .file) →
        (∀ m, ∃ m', fsRead v.fs b m start len = .ok m' ∧
          ∀ i < len, m' i = imageByte v.fs.extents b (start + i)) ∧
        ∀ a c, 1 ≤ a → 1 ≤ c → len = a + c → ∀ m m₁ m₂, ∃ m' m₁' m₂',
          fsRead v.fs b m start len = .ok m' ∧ fsRead v.fs b m₁ start a = .ok m₁' ∧
            fsRead v.fs b m₂ (start + a) c = .ok m₂' ∧
              m'.bytes 0 len = m₁'.bytes 0 a ++ m₂'.bytes 0 c) := by
  have hsane : ∀ e ∈ v.fs.extents, e.Sane :=
    fun e he => ⟨hpos e he, (run_fits hcs hrun).extents e he⟩
  refine ⟨fsFindExtents_eq hlen hend hsane (Nat.lt_succ_self _), fun hnofile => ?_⟩
  have hserves : ∀ s n, start ≤ s → s + n ≤ start + len → ∀ e ∈ v.fs.extents, ∀ h,
      intersection s n e = some h → b.Serves h := by
    intro s n hs hn e he h hi
    obtain ⟨hextent, -, hbound, -, -⟩ := bounds_of_intersection hi
    have hfits := (hsane e he).2
    obtain ⟨h', hi'⟩ := intersection_of_subset hs hn hi
    refine serves_of_ne_file ?_ (by omega)
    rw [hextent, ← (bounds_of_intersection hi').1]
    exact hnofile h' (List.mem_filterMap.mpr ⟨e, he, hi'⟩)
  have hread : ∀ s n, start ≤ s → s + n ≤ start + len → 1 ≤ n → ∀ m, ∃ m',
      fsRead v.fs b m s n = .ok m' ∧ ∀ i < n, m' i = imageByte v.fs.extents b (s + i) := by
    intro s n hs hn hone m
    obtain ⟨m', hrun', himage, -⟩ :=
      fsRead_eq_image hsane hdisjoint hone (by omega) (hserves s n hs hn) m
    exact ⟨m', hrun', himage⟩
  refine ⟨hread start len le_rfl le_rfl hlen, fun a c ha hc hsum m m₁ m₂ => ?_⟩
  obtain ⟨m', hm, himage⟩ := hread start len le_rfl le_rfl hlen m
  obtain ⟨m₁', hm₁, himage₁⟩ := hread start a le_rfl (by omega) ha m₁
  obtain ⟨m₂', hm₂, himage₂⟩ := hread (start + a) c (by omega) (by omega) hc m₂
  refine ⟨m', m₁', m₂', hm, hm₁, hm₂, ?_⟩
  rw [bytes_eq_map himage, bytes_eq_map himage₁, bytes_eq_map himage₂, hsum, List.range_add,
    List.map_append, List.map_map]
  congr 2
  funext i
  exact congrArg _ (Nat.add_assoc start a i).symm

end Runs

/-- The extents of a volume of eight clusters with a table of 700 bytes. -/
def smallExtents : List Extent :=
  [⟨2048, 1024, .dir⟩, ⟨1536, 512, .fat⟩, ⟨1024, 512, .boot⟩, ⟨512, 512, .info⟩, ⟨0, 512, .boot⟩]

/-- A request that begins in the boot sector and ends in the table. -/
theorem fsRead_flat_small : ∃ v, run 512 4096 [⟨700, .dir⟩] = some v ∧
    v.fs.extents = smallExtents ∧ ∀ b m, ∃ m', fsRead v.fs b m 500 2000 = .ok m' ∧
      ∀ i < 2000, m' i = imageByte smallExtents b (500 + i) := by
  have hsize : ValidSize 512 4096 := ⟨by decide, by decide, by decide, by decide, by decide⟩
  have hcalls : ValidCalls 512 [⟨700, .dir⟩] := by
    unfold ValidCalls
    decide
  have hend : 500 + 2000 < 2 ^ 64 := by decide
  obtain ⟨v, hrun, hinv⟩ := run_inv hsize hcalls
  have hextents : v.fs.extents = smallExtents := by
    have hmap : (run 512 4096 [⟨700, .dir⟩]).map (fun v => v.fs.extents) = some smallExtents := by
      decide
    rw [hrun] at hmap
    exact Option.some.inj hmap
  have hpos : ∀ e ∈ v.fs.extents, 0 < e.len := by
    rw [hextents]
    decide
  refine ⟨v, hrun, hextents, fun b m => ?_⟩
  have hread := (fsRead_flat (by decide) hrun (hinv.disjoint hsize) hpos b (by decide) hend).2
  rw [hextents] at hread
  exact (hread (by decide)).1 m

end SystemExtras.Fat
