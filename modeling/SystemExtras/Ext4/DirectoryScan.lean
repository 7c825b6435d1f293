import SystemExtras.Ext4.FixupImage

/-!
# The scan of a directory buffer

The record loop of `recurse_dir` follows the lengths it finds in the buffer.  It does
not look whether a length is zero, and it looks at a header and a name without asking
whether they lie inside the buffer; only a short rest behind the last record is noticed,
and not by the marking pass.

`scanRound` is one round of the loop, the visit of the entry aside (`walk_eq_scanRound`),
and `Halts` says that the loop comes to its end after finitely many rounds, none of
which looks outside the buffer.  The loop changes the bytes it scans, but only inode
numbers it has passed: records may overlap, and then the length of the first one stands
in the inode number of the second, which is not zero before or after (`At.next`).  So
the bytes as they were read decide how the scan goes (`halts_iff_chainOk`).
-/

namespace SystemExtras.Ext4

open DevM

/-! ## The loop -/

/-- How a round ends. -/
inductive Round where
  /-- The loop is left. -/
  | stop (buf : Mem)
  /-- The round looks at a byte outside the buffer. -/
  | outside
  /-- The round has seen an entry with the given name, and the loop goes on at offset `o`. -/
  | next (name : List UInt8) (buf : Mem) (o : ℕ)

/-- The part of a round that looks at the record at `o`. -/
def recordRound (p : Fixup) (mode : Mode) (size : ℕ) (buf : Mem) (o : ℕ) : Round :=
  if size < o + 4 then .outside
  else if recInum buf o = 0 then .stop buf
  else if size < o + DirEntry.nameOffset then .outside
  else
    match entryName buf size o with
    | .error _ => .outside
    | .ok name =>
        .next name ((DirEntry.inode.at_ o).set buf (processInum p mode (recInum buf o)))
          (o + recLength buf o)

/-- One round of the loop, the visit of the entry aside. -/
def scanRound (p : Fixup) (mode : Mode) (size : ℕ) (buf : Mem) (o : ℕ) (prev : Option ℕ) : Round :=
  if size ≤ o then .stop buf
  else
    match prev, decide (mode ≠ .markInodeNums ∧ size - o ≤ 8) with
    | some q, true =>
        .stop ((DirEntry.recLen.at_ q).set buf ((DirEntry.recLen.at_ q).get buf + (size - o)))
    | _, _ => recordRound p mode size buf o

/-- The loop ends, and every round before looks at the buffer only. -/
inductive Halts (p : Fixup) (mode : Mode) (size : ℕ) : Mem → ℕ → Option ℕ → Prop where
  | stop {buf buf' : Mem} {o : ℕ} {prev : Option ℕ}
      (round : scanRound p mode size buf o prev = .stop buf') : Halts p mode size buf o prev
  | next {name : List UInt8} {buf buf' : Mem} {o o' : ℕ} {prev : Option ℕ}
      (round : scanRound p mode size buf o prev = .next name buf' o')
      (rest : Halts p mode size buf' o' (some o)) : Halts p mode size buf o prev

section Loop

variable {p : Fixup} {mode : Mode} {size : ℕ} {buf : Mem} {o : ℕ} {prev : Option ℕ}

theorem entryName_error {e : Stop} (h : entryName buf size o = .error e) : e = .undefined := by
  unfold entryName at h
  simp only at h
  split at h
  · cases h
    rfl
  · cases h

/-- The loop makes these rounds, with a visit in each one that goes on. -/
theorem walk_eq_scanRound (recurseDir : Mem → ℕ → DevM Stop Unit) (fuel : ℕ) :
    walk p mode recurseDir size (fuel + 1) buf o prev =
      match scanRound p mode size buf o prev with
      | .stop buf' => pure buf'
      | .outside => DevM.fail .undefined
      | .next name buf' o' => (do
          visitEntry p mode recurseDir (recFileType buf o) name (recInum buf o)
          walk p mode recurseDir size fuel buf' o' (some o)) := by
  have hname : ∀ k : List UInt8 → DevM Stop Mem,
      (DevM.query (fun _ => entryName buf size o) >>= k) =
        match entryName buf size o with
        | .error e => DevM.fail e
        | .ok name => k name := by
    intro k
    funext d
    cases hok : entryName buf size o with
    | error e => rfl
    | ok name => rfl
  -- the part of the body that both ways past the short rest share
  have hrecord : (if size < o + 4 then DevM.fail .undefined
      else if recInum buf o = 0 then pure buf
      else if size < o + DirEntry.nameOffset then DevM.fail .undefined
      else do
        let name ← DevM.query fun _ => entryName buf size o
        visitEntry p mode recurseDir (recFileType buf o) name (recInum buf o)
        walk p mode recurseDir size fuel
          ((DirEntry.inode.at_ o).set buf (processInum p mode (recInum buf o)))
          (o + recLength buf o) (some o)) =
      match recordRound p mode size buf o with
      | .stop buf' => pure buf'
      | .outside => DevM.fail .undefined
      | .next name buf' o' => (do
          visitEntry p mode recurseDir (recFileType buf o) name (recInum buf o)
          walk p mode recurseDir size fuel buf' o' (some o)) := by
    unfold recordRound
    by_cases hnumber : size < o + 4
    · rw [if_pos hnumber, if_pos hnumber]
    rw [if_neg hnumber, if_neg hnumber]
    by_cases hzero : recInum buf o = 0
    · rw [if_pos hzero, if_pos hzero]
    rw [if_neg hzero, if_neg hzero]
    by_cases hheader : size < o + DirEntry.nameOffset
    · rw [if_pos hheader, if_pos hheader]
    rw [if_neg hheader, if_neg hheader, hname]
    cases hok : entryName buf size o with
    | error e => rw [entryName_error hok]
    | ok name => rfl
  conv_lhs => unfold walk
  unfold scanRound
  by_cases hend : size ≤ o
  · rw [if_pos hend, if_pos hend]
  rw [if_neg hend, if_neg hend]
  cases prev with
  | none => exact hrecord
  | some q =>
      cases decide (mode ≠ .markInodeNums ∧ size - o ≤ 8) with
      | false => exact hrecord
      | true => rfl

/-- Where the visits of the entries return, the loop returns when it ends in this sense. -/
theorem walk_returns_iff {recurseDir : Mem → ℕ → DevM Stop Unit}
    (hvisit : ∀ fileType name inum d,
      (visitEntry p mode recurseDir fileType name inum).result d = .ok ()) (d : Device) :
    (∃ fuel b, (walk p mode recurseDir size fuel buf o prev).result d = .ok b) ↔
      Halts p mode size buf o prev := by
  constructor
  · rintro ⟨fuel, b, hok⟩
    induction fuel generalizing buf o prev d with
    | zero => cases hok
    | succ fuel ih =>
        rw [walk_eq_scanRound] at hok
        cases hround : scanRound p mode size buf o prev with
        | stop buf' => exact .stop hround
        | outside =>
            rw [hround] at hok
            cases hok
        | next name buf' o' =>
            rw [hround] at hok
            obtain ⟨-, -, hrest⟩ := DevM.result_bind_eq_ok.mp hok
            exact .next hround (ih _ hrest)
  · intro hhalts
    induction hhalts generalizing d with
    | @stop buf buf' o prev hround =>
        refine ⟨1, buf', ?_⟩
        rw [walk_eq_scanRound, hround]
        rfl
    | @next name buf buf' o o' prev hround _ ih =>
        obtain ⟨fuel, b, hrest⟩ := ih
          ((visitEntry p mode recurseDir (recFileType buf o) name (recInum buf o)).final d)
        refine ⟨fuel + 1, b, ?_⟩
        rw [walk_eq_scanRound, hround]
        exact DevM.result_bind_eq_ok.mpr ⟨(), hvisit _ _ _ _, hrest⟩

end Loop

/-! ## The chain of records -/

/-- Where the lengths in the buffer lead after `k` records. -/
def chainAt (buf : Mem) : ℕ → ℕ
  | 0 => 0
  | k + 1 => chainAt buf k + recLength buf (chainAt buf k)

/-- The loop is left at offset `o`: the buffer ends there, or nearly so and a record
came before, or the record is not in use. -/
def EndsAt (mode : Mode) (size : ℕ) (buf : Mem) (o : ℕ) (later : Prop) : Prop :=
  size ≤ o ∨ mode ≠ .markInodeNums ∧ size - o ≤ 8 ∧ later ∨ o + 4 ≤ size ∧ recInum buf o = 0

/-- Header and name of the record at `o` lie inside the buffer; a name may end with a
null byte before its length is used up. -/
structure RecordInside (buf : Mem) (size o : ℕ) : Prop where
  header : o + DirEntry.nameOffset ≤ size
  name : (∃ i < (DirEntry.nameLen.at_ o).get buf, o + DirEntry.nameOffset + i < size ∧
      buf (o + DirEntry.nameOffset + i) = 0) ∨
    o + DirEntry.nameOffset + (DirEntry.nameLen.at_ o).get buf ≤ size

/-- Every record on the chain, up to the one that ends the loop, is inside the buffer and
has a length. -/
def ChainOk (mode : Mode) (size : ℕ) (buf : Mem) : Prop :=
  ∀ k, (∀ j ≤ k, ¬ EndsAt mode size buf (chainAt buf j) (0 < j)) →
    RecordInside buf size (chainAt buf k) ∧ 0 < recLength buf (chainAt buf k)

section Rounds

variable {p : Fixup} {mode : Mode} {size : ℕ} {buf : Mem} {o : ℕ} {prev : Option ℕ}

/-- A name can be copied when it ends inside the buffer. -/
theorem entryName_ok_iff (hheader : o + DirEntry.nameOffset ≤ size) :
    (∃ name, entryName buf size o = .ok name) ↔ RecordInside buf size o := by
  have hmem : 0 ∈ buf.bytes (o + DirEntry.nameOffset)
      (min ((DirEntry.nameLen.at_ o).get buf) (size - (o + DirEntry.nameOffset))) ↔
      ∃ i < (DirEntry.nameLen.at_ o).get buf, o + DirEntry.nameOffset + i < size ∧
        buf (o + DirEntry.nameOffset + i) = 0 := by
    unfold Mem.bytes
    rw [List.mem_map]
    constructor
    · rintro ⟨i, hi, hzero⟩
      rw [List.mem_range] at hi
      exact ⟨i, by omega, by omega, hzero⟩
    · rintro ⟨i, hi, hlt, hzero⟩
      exact ⟨i, List.mem_range.mpr (by omega), hzero⟩
  have hlength : (buf.bytes (o + DirEntry.nameOffset)
      (min ((DirEntry.nameLen.at_ o).get buf) (size - (o + DirEntry.nameOffset)))).length =
      min ((DirEntry.nameLen.at_ o).get buf) (size - (o + DirEntry.nameOffset)) := by
    simp [Mem.bytes]
  unfold entryName
  simp only [hlength]
  constructor
  · rintro ⟨name, hok⟩
    split at hok
    · cases hok
    · rename_i hfits
      refine ⟨hheader, ?_⟩
      by_cases hnull : 0 ∈ buf.bytes (o + DirEntry.nameOffset)
          (min ((DirEntry.nameLen.at_ o).get buf) (size - (o + DirEntry.nameOffset)))
      · exact Or.inl (hmem.mp hnull)
      · have hlong : ¬ min ((DirEntry.nameLen.at_ o).get buf) (size - (o + DirEntry.nameOffset)) <
            (DirEntry.nameLen.at_ o).get buf := fun hlt => hfits ⟨hlt, hnull⟩
        exact Or.inr (by omega)
  · intro hinside
    rw [if_neg]
    · exact ⟨_, rfl⟩
    · rintro ⟨hlong, hnull⟩
      rcases hinside.name with hzero | hfits
      · exact hnull (hmem.mpr hzero)
      · omega

/-- The short rest is looked at when a record came before. -/
theorem scanRound_eq_recordRound (hend : o < size)
    (h : ¬ (mode ≠ .markInodeNums ∧ size - o ≤ 8 ∧ prev.isSome = true)) :
    scanRound p mode size buf o prev = recordRound p mode size buf o := by
  unfold scanRound
  rw [if_neg (by omega)]
  cases prev with
  | none => rfl
  | some q =>
      have hlong : ¬ (mode ≠ .markInodeNums ∧ size - o ≤ 8) :=
        fun hshort => h ⟨hshort.1, hshort.2, rfl⟩
      rw [decide_eq_false hlong]

theorem scanRound_of_endsAt (h : EndsAt mode size buf o (prev.isSome = true)) :
    ∃ buf', scanRound p mode size buf o prev = .stop buf' := by
  by_cases hend : size ≤ o
  · unfold scanRound
    exact ⟨_, if_pos hend⟩
  by_cases hshort : mode ≠ .markInodeNums ∧ size - o ≤ 8 ∧ prev.isSome = true
  · obtain ⟨hmode, hle, hprev⟩ := hshort
    obtain ⟨q, rfl⟩ := Option.isSome_iff_exists.mp hprev
    unfold scanRound
    rw [if_neg hend, decide_eq_true ⟨hmode, hle⟩]
    exact ⟨_, rfl⟩
  rcases h with h | h | ⟨hroom, hzero⟩
  · exact absurd h hend
  · exact absurd h hshort
  · rw [scanRound_eq_recordRound (by omega) hshort]
    unfold recordRound
    rw [if_neg (by omega), if_pos hzero]
    exact ⟨_, rfl⟩

/-- What a round does that does not end the loop. -/
theorem scanRound_of_not_endsAt (h : ¬ EndsAt mode size buf o (prev.isSome = true)) :
    (RecordInside buf size o → ∃ name, scanRound p mode size buf o prev =
      .next name ((DirEntry.inode.at_ o).set buf (processInum p mode (recInum buf o)))
        (o + recLength buf o)) ∧
    (¬ RecordInside buf size o → scanRound p mode size buf o prev = .outside) := by
  unfold EndsAt at h
  push Not at h
  obtain ⟨hend, hshort, hnumber⟩ := h
  rw [scanRound_eq_recordRound hend fun hrest => hshort hrest.1 hrest.2.1 hrest.2.2]
  unfold recordRound
  constructor
  · intro hinside
    have hheader := hinside.header
    obtain ⟨name, hname⟩ := (entryName_ok_iff hheader).mpr hinside
    have hroom : o + 4 ≤ size := by
      unfold DirEntry.nameOffset at hheader
      omega
    refine ⟨name, ?_⟩
    rw [if_neg (by omega), if_neg (hnumber hroom), if_neg (by omega), hname]
  · intro hinside
    by_cases hroom : size < o + 4
    · rw [if_pos hroom]
    rw [if_neg hroom, if_neg (hnumber (by omega))]
    by_cases hheader : size < o + DirEntry.nameOffset
    · rw [if_pos hheader]
    rw [if_neg hheader]
    cases hname : entryName buf size o with
    | error e => rfl
    | ok name => exact absurd ((entryName_ok_iff (by omega)).mp ⟨name, hname⟩) hinside

theorem scanRound_ne_stop (h : ¬ EndsAt mode size buf o (prev.isSome = true)) (buf' : Mem) :
    scanRound p mode size buf o prev ≠ .stop buf' := by
  intro hround
  by_cases hinside : RecordInside buf size o
  · obtain ⟨name, hnext⟩ := (scanRound_of_not_endsAt h).1 hinside
    rw [hnext] at hround
    cases hround
  · rw [(scanRound_of_not_endsAt h).2 hinside] at hround
    cases hround

theorem scanRound_eq_next (h : ¬ EndsAt mode size buf o (prev.isSome = true))
    {name : List UInt8} {buf' : Mem} {o' : ℕ}
    (hround : scanRound p mode size buf o prev = .next name buf' o') :
    RecordInside buf size o ∧ o' = o + recLength buf o ∧
      buf' = (DirEntry.inode.at_ o).set buf (processInum p mode (recInum buf o)) := by
  by_cases hinside : RecordInside buf size o
  · obtain ⟨name', hnext⟩ := (scanRound_of_not_endsAt h).1 hinside
    obtain ⟨-, hbuf, ho⟩ := Round.next.inj (hnext.symm.trans hround)
    exact ⟨hinside, ho.symm, hbuf.symm⟩
  · rw [(scanRound_of_not_endsAt h).2 hinside] at hround
    cases hround

end Rounds

/-! ## The bytes that change -/

/-- The loop has passed `k` records and stands at `o`, with the bytes `b`.  Only numbers of
records it has passed differ from what was read. -/
structure At (buf : Mem) (k : ℕ) (b : Mem) (o : ℕ) (prev : Option ℕ) : Prop where
  place : o = chainAt buf k
  later : prev.isSome = true ↔ 0 < k
  behind : ∀ x, o + 4 ≤ x → b x = buf x
  number : recInum b o = 0 ↔ recInum buf o = 0

theorem At.start (buf : Mem) : At buf 0 buf 0 none where
  place := rfl
  later := by simp
  behind := fun _ _ => rfl
  number := Iff.rfl

namespace At

variable {buf b : Mem} {k o : ℕ} {prev : Option ℕ}

theorem recLength_eq (h : At buf k b o prev) : recLength b o = recLength buf o :=
  Mem.load_congr fun i _ => h.behind _ (by simp only [Field.at_, DirEntry.recLen]; omega)

theorem nameLen_eq (h : At buf k b o prev) :
    (DirEntry.nameLen.at_ o).get b = (DirEntry.nameLen.at_ o).get buf :=
  Mem.load_congr fun i _ => h.behind _ (by simp only [Field.at_, DirEntry.nameLen]; omega)

theorem inside_iff (h : At buf k b o prev) {size : ℕ} :
    RecordInside b size o ↔ RecordInside buf size (chainAt buf k) := by
  have hbyte : ∀ i, b (o + DirEntry.nameOffset + i) = buf (o + DirEntry.nameOffset + i) := by
    intro i
    exact h.behind _ (by unfold DirEntry.nameOffset; omega)
  rw [← h.place]
  constructor
  · rintro ⟨hheader, hname⟩
    rw [h.nameLen_eq] at hname
    simp only [hbyte] at hname
    exact ⟨hheader, hname⟩
  · rintro ⟨hheader, hname⟩
    refine ⟨hheader, ?_⟩
    rw [h.nameLen_eq]
    simp only [hbyte]
    exact hname

theorem endsAt_iff (h : At buf k b o prev) {mode : Mode} {size : ℕ} :
    EndsAt mode size b o (prev.isSome = true) ↔
      EndsAt mode size buf (chainAt buf k) (0 < k) := by
  unfold EndsAt
  rw [h.later, h.number, h.place]

/-- The number of a record that begins less than four bytes behind another one covers the
first byte of the other's length. -/
theorem recInum_ne_zero_of_overlap {m : Mem} {o : ℕ} (hpos : 0 < recLength m o)
    (hshort : recLength m o < 4) {m' : Mem} (hbyte : m' (o + 4) = m (o + 4)) :
    recInum m' (o + recLength m o) ≠ 0 := by
  have hlow : recLength m o = (m (o + 4)).toNat + 256 * m.load (o + 4 + 1) 1 := rfl
  intro hzero
  have hload : m'.load (o + recLength m o) 4 = 0 := hzero
  have hcovered := Mem.byte_of_load m' (o + recLength m o) 4
    (show 4 - recLength m o < 4 by omega)
  rw [hload, Nat.zero_div, show o + recLength m o + (4 - recLength m o) = o + 4 by omega,
    hbyte] at hcovered
  rw [hcovered] at hlow
  have : (UInt8.ofNat 0).toNat = 0 := rfl
  omega

/-- Passing a record with a length keeps the invariant. -/
theorem next (h : At buf k b o prev) (hpos : 0 < recLength buf o) (v : ℕ) :
    At buf (k + 1) ((DirEntry.inode.at_ o).set b v) (o + recLength buf o) (some o) := by
  have hkept : ∀ x, o + 4 ≤ x → (DirEntry.inode.at_ o).set b v x = buf x := by
    intro x hx
    have hstore : (DirEntry.inode.at_ o).set b v x = b x :=
      Mem.store_apply_of_not_mem (Or.inr hx)
    rw [hstore, h.behind x hx]
  refine ⟨?_, ?_, fun x hx => hkept x (by omega), ?_⟩
  · rw [chainAt, ← h.place]
  · simp
  · by_cases hshort : recLength buf o < 4
    · have hnew := recInum_ne_zero_of_overlap hpos hshort (hkept (o + 4) le_rfl)
      have hold := recInum_ne_zero_of_overlap hpos hshort (rfl : buf (o + 4) = buf (o + 4))
      exact iff_of_false hnew hold
    · have hsame : recInum ((DirEntry.inode.at_ o).set b v) (o + recLength buf o) =
          recInum buf (o + recLength buf o) :=
        Mem.load_congr fun i _ => hkept _ (by simp only [Field.at_, DirEntry.inode]; omega)
      rw [hsame]

end At

/-! ## Where the scan ends -/

section Ends

variable {p : Fixup} {mode : Mode} {size : ℕ} {buf b : Mem} {k o : ℕ} {prev : Option ℕ}

/-- A scan along a good chain ends: every record it passes takes it nearer to the end of
the buffer. -/
theorem At.halts (h : At buf k b o prev) (hok : ChainOk mode size buf)
    (hbefore : ∀ j < k, ¬ EndsAt mode size buf (chainAt buf j) (0 < j)) :
    Halts p mode size b o prev := by
  induction hn : size - o using Nat.strong_induction_on generalizing k b o prev with
  | _ n ih =>
      by_cases hends : EndsAt mode size b o (prev.isSome = true)
      · obtain ⟨buf', hround⟩ := scanRound_of_endsAt (p := p) hends
        exact .stop hround
      have hhere : ∀ j ≤ k, ¬ EndsAt mode size buf (chainAt buf j) (0 < j) := by
        intro j hj
        obtain hlt | rfl := Nat.lt_or_eq_of_le hj
        · exact hbefore j hlt
        · exact fun hend => hends (h.endsAt_iff.mpr hend)
      obtain ⟨hinside, hpos⟩ := hok k hhere
      rw [← h.place] at hpos
      obtain ⟨name, hround⟩ := (scanRound_of_not_endsAt (p := p) hends).1 (h.inside_iff.mpr hinside)
      rw [h.recLength_eq] at hround
      have hroom : o < size := by
        have := h.place ▸ hinside.header
        unfold DirEntry.nameOffset at this
        omega
      exact .next hround (ih (size - (o + recLength buf o)) (by omega) (h.next hpos _)
        (fun j hj => hhere j (by omega)) rfl)

/-- Outside the renumbering pass the number of an entry does not become zero. -/
theorem processInum_ne_zero (hmode : mode ≠ .updateInodeNums) {inum : ℕ} (hlt : inum < 2 ^ 32)
    (hne : inum ≠ 0) : processInum p mode inum % 2 ^ 32 ≠ 0 := by
  cases mode with
  | sanityCheckPass =>
      change inum % 2 ^ 32 ≠ 0
      rwa [Nat.mod_eq_of_lt hlt]
  | markInodeNums =>
      have hbound : inum ||| 0x80000000 < 2 ^ 32 := Nat.or_lt_two_pow hlt (by norm_num)
      have hle : inum ≤ inum ||| 0x80000000 := Nat.left_le_or
      change (inum ||| 0x80000000) % 2 ^ 32 ≠ 0
      rw [Nat.mod_eq_of_lt hbound]
      omega
  | updateInodeNums => exact absurd rfl hmode

/-- Nothing ends the loop at `o`, whether or not a record came before. -/
theorem not_endsAt_of_later (h : ¬ EndsAt mode size b o True) (later : Prop) :
    ¬ EndsAt mode size b o later := by
  rintro (hend | ⟨hpass, hshort, -⟩ | hnumber)
  · exact h (Or.inl hend)
  · exact h (Or.inr (Or.inl ⟨hpass, hshort, trivial⟩))
  · exact h (Or.inr (Or.inr hnumber))

/-- At a record without a length the loop stays for ever. -/
theorem not_halts_of_recLength_zero (hmode : mode ≠ .updateInodeNums)
    (hlive : ¬ EndsAt mode size b o True) (hzero : recLength b o = 0) :
    ¬ Halts p mode size b o prev := by
  intro hhalts
  induction hhalts with
  | stop hround => exact scanRound_ne_stop (not_endsAt_of_later hlive _) _ hround
  | @next name b buf' o o' prev hround hrest ih =>
      obtain ⟨hinside, ho, rfl⟩ := scanRound_eq_next (not_endsAt_of_later hlive _) hround
      rw [hzero, Nat.add_zero] at ho
      subst ho
      have hheader := hinside.header
      unfold DirEntry.nameOffset at hheader
      have hne : recInum b o' ≠ 0 := fun h => hlive (Or.inr (Or.inr ⟨by omega, h⟩))
      apply ih
      · rintro (hend | hshort | ⟨-, hnumber⟩)
        · exact hlive (Or.inl hend)
        · exact hlive (Or.inr (Or.inl hshort))
        · have hself :
              recInum ((DirEntry.inode.at_ o').set b (processInum p mode (recInum b o'))) o' =
              processInum p mode (recInum b o') % 2 ^ 32 := Field.get_set_self _ _ _
          rw [hself] at hnumber
          exact processInum_ne_zero hmode (Field.get_lt _ _) hne hnumber
      · have hapart : (DirEntry.recLen.at_ o').Disjoint (DirEntry.inode.at_ o') :=
          Or.inr (by simp [Field.at_, DirEntry.inode, DirEntry.recLen])
        exact (Field.get_set_of_disjoint hapart _ _).trans hzero

/-- A scan that ends has met good records only. -/
theorem Halts.chainOk_from (hhalts : Halts p mode size b o prev) (hmode : mode ≠ .updateInodeNums)
    (hsize : 8 < size) (h : At buf k b o prev) {i : ℕ} (hi : k ≤ i)
    (hlive : ∀ j ≤ i, ¬ EndsAt mode size buf (chainAt buf j) (0 < j)) :
    RecordInside buf size (chainAt buf i) ∧ 0 < recLength buf (chainAt buf i) := by
  induction hhalts generalizing k with
  | stop hround =>
      have hends := fun hend => hlive k hi (h.endsAt_iff.mp hend)
      exact absurd hround (scanRound_ne_stop hends _)
  | @next name b buf' o o' prev hround hrest ih =>
      have hends := fun hend => hlive k hi (h.endsAt_iff.mp hend)
      obtain ⟨hinside, rfl, rfl⟩ := scanRound_eq_next hends hround
      have hpos : 0 < recLength buf o := by
        by_contra hzero
        have hlater : ¬ EndsAt mode size b o True := by
          rintro (hend | ⟨hpass, hshort, -⟩ | hnumber)
          · exact hends (Or.inl hend)
          · obtain rfl | hk := Nat.eq_zero_or_pos k
            · have hstart : o = 0 := h.place
              omega
            · exact hends (Or.inr (Or.inl ⟨hpass, hshort, h.later.mpr hk⟩))
          · exact hends (Or.inr (Or.inr hnumber))
        have hlen : recLength b o = 0 := by
          rw [h.recLength_eq]
          omega
        exact not_halts_of_recLength_zero hmode hlater hlen (.next hround hrest)
      obtain rfl | hlt := Nat.eq_or_lt_of_le hi
      · exact ⟨h.inside_iff.mp hinside, h.place ▸ hpos⟩
      · rw [h.recLength_eq] at ih
        exact ih (h.next hpos _) hlt

end Ends

/-- The renumbering pass and the sanity check leave the loop at the same places. -/
theorem ChainOk.update {size : ℕ} {buf : Mem} (h : ChainOk .sanityCheckPass size buf) :
    ChainOk .updateInodeNums size buf := by
  have hends : ∀ o later, EndsAt .updateInodeNums size buf o later ↔
      EndsAt .sanityCheckPass size buf o later := by
    intro o later
    simp [EndsAt]
  intro k hlive
  exact h k fun j hj hend => hlive j hj ((hends _ _).mpr hend)

/-- The loop of a directory's scan ends and looks at the buffer only, in each of the three
passes, exactly when the records it meets have a length and lie inside the buffer. -/
theorem halts_iff_chainOk {p : Fixup} {size : ℕ} {buf : Mem} (hblock : 1024 ≤ p.info.blockSize)
    (hsize : size % p.info.blockSize = 0) :
    (∀ mode, Halts p mode size buf 0 none) ↔ ∀ mode, ChainOk mode size buf := by
  constructor
  · intro hhalts
    have hpass : ∀ mode, mode ≠ .updateInodeNums → ChainOk mode size buf := by
      intro mode hmode k hlive
      have hpos : 0 < size := by
        by_contra hnone
        exact hlive 0 (Nat.zero_le k) (Or.inl (by omega))
      have hle : p.info.blockSize ≤ size := Nat.le_of_dvd hpos (Nat.dvd_of_mod_eq_zero hsize)
      exact (hhalts mode).chainOk_from hmode (by omega) (At.start buf) (Nat.zero_le k) hlive
    intro mode
    cases mode with
    | sanityCheckPass => exact hpass _ (by decide)
    | markInodeNums => exact hpass _ (by decide)
    | updateInodeNums => exact (hpass .sanityCheckPass (by decide)).update
  · intro hok mode
    exact (At.start buf).halts (hok mode) fun j hj => absurd hj (Nat.not_lt_zero j)

/-- A block with one entry, which is as long as `recLen` says. -/
def oneEntry (recLen : ℕ) : Mem :=
  Mem.zero.assign [(DirEntry.inode, 2), (DirEntry.recLen, recLen), (DirEntry.nameLen, 1)]

theorem chainOk_oneEntry (mode : Mode) : ChainOk mode 2048 (oneEntry 2048) := by
  intro k hlive
  cases k with
  | zero =>
      refine ⟨⟨by decide, Or.inr ?_⟩, ?_⟩
      · change 8 + (DirEntry.nameLen.at_ 0).get (oneEntry 2048) ≤ 2048
        decide
      · change 0 < recLength (oneEntry 2048) 0
        decide
  | succ k =>
      have hend : chainAt (oneEntry 2048) 1 = 2048 := by decide
      exact absurd (Or.inl hend.ge) (hlive 1 (by omega))

theorem halts_iff_chainOk_oneEntry :
    (∀ mode, Halts twoGroupsFixup mode 2048 (oneEntry 2048) 0 none) ∧
      ∀ mode, ChainOk mode 2048 (oneEntry 2048) := by
  have hblock : 1024 ≤ twoGroupsFixup.info.blockSize := by decide
  have hsize : 2048 % twoGroupsFixup.info.blockSize = 0 := by decide
  exact ⟨(halts_iff_chainOk hblock hsize).mpr chainOk_oneEntry, chainOk_oneEntry⟩

/-- With an entry of length zero the sanity check never ends. -/
theorem not_halts_oneEntry_zero : ¬ ∀ (p : Fixup) (size : ℕ) (buf : Mem),
    1024 ≤ p.info.blockSize → size % p.info.blockSize = 0 →
      ∀ mode, Halts p mode size buf 0 none := by
  intro hall
  have hlive : ¬ EndsAt .sanityCheckPass 2048 (oneEntry 0) 0 True := by
    rintro (hend | ⟨-, hshort, -⟩ | ⟨-, hnumber⟩)
    · exact absurd hend (by decide)
    · exact absurd hshort (by decide)
    · exact absurd hnumber (by decide)
  have hlen : recLength (oneEntry 0) 0 = 0 := by decide
  exact not_halts_of_recLength_zero (by decide) hlive hlen
    (hall twoGroupsFixup 2048 (oneEntry 0) (by decide) (by decide) .sanityCheckPass)

end SystemExtras.Ext4
