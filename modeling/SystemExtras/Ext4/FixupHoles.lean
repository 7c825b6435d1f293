import Mathlib.Data.List.TakeWhile
import SystemExtras.Ext4.FixupPasses

/-!
# Directories with holes

A deleted entry leaves a record with inode number 0 where it stood, also at the
start of a block.  `recurse_dir` takes the first such record for the end of the
directory, so it sees the records in front of it only (`front`), and it gets to
those directories that `front` records lead to (`Scans`).

`recurseDir_effect` is the exact effect of a pass: it writes the blocks of the
directories it gets to, and changes the numbers in their `front` records and no
others.  So the two passes renumber the whole tree exactly when every directory is
got to and the entries behind a hole have numbers that stay
(`renumbersAll_iff`).
-/

namespace SystemExtras.Ext4

open DevM

/-! ## What a pass gets to -/

namespace DirTree

variable (T : DirTree)

/-- The records in front of the first one that is not in use. -/
def front (p : Fixup) (d : Device) (n : ℕ) : List ℕ :=
  (T.records n).takeWhile fun r => recInum (T.buf p d n) r ≠ 0

/-- A record in front of the first hole of the directory `n` leads into `m`. -/
def FrontSub (p : Fixup) (d : Device) (n m : ℕ) : Prop :=
  n ∈ T.dirs ∧ ∃ r ∈ T.front p d n, T.Enters p d n r ∧ recInum (T.buf p d n) r = m

/-- The directories that a pass over `n` gets to. -/
def Scans (p : Fixup) (d : Device) (n m : ℕ) : Prop := Relation.ReflTransGen (T.FrontSub p d) n m

end DirTree

/-- A tree of directories in which records that are not in use may stand anywhere. -/
structure HoleyImage (p : Fixup) (T : DirTree) (d : Device) : Prop extends DirImage p T d where
  blocks_ne_nil : ∀ n ∈ T.dirs, T.blocks n ≠ []
  /-- One entry leads to a directory. -/
  parent : ∀ n ∈ T.dirs, ∀ m ∈ T.dirs, ∀ r r', T.Enters p d n r → T.Enters p d m r' →
    recInum (T.buf p d n) r = recInum (T.buf p d m) r' → n = m ∧ r = r'

section Reach

variable {p : Fixup} {T : DirTree} {d₀ : Device} {n m r r' : ℕ}

theorem front_prefix_records (p : Fixup) (T : DirTree) (d₀ : Device) (n : ℕ) :
    T.front p d₀ n <+: T.records n := List.takeWhile_prefix _

theorem front_subset (hr : r ∈ T.front p d₀ n) : r ∈ T.live p d₀ n :=
  mem_live.mpr ⟨(front_prefix_records p T d₀ n).subset hr, by simpa using List.mem_takeWhile_imp hr⟩

/-- The record behind the front is not in use. -/
theorem exists_records_eq (p : Fixup) (T : DirTree) (d₀ : Device) (n : ℕ) :
    ∃ rest, T.records n = T.front p d₀ n ++ rest ∧
    ∀ z ∈ rest.head?, z ∉ T.live p d₀ n := by
  refine ⟨(T.records n).dropWhile fun r => recInum (T.buf p d₀ n) r ≠ 0,
    List.takeWhile_append_dropWhile.symm, ?_⟩
  intro z hz hlive
  have := List.head?_dropWhile_not (fun r => decide (recInum (T.buf p d₀ n) r ≠ 0)) (T.records n)
  rw [Option.mem_def] at hz
  rw [hz] at this
  exact recInum_ne_zero_of_live hlive (by simpa using this)

theorem DirTree.Scans.reach (h : T.Scans p d₀ n m) : Relation.ReflTransGen (T.IsSub p d₀) n m := by
  induction h with
  | refl => exact .refl
  | tail _ hsub ih =>
      obtain ⟨-, r, -, hent, heq⟩ := hsub
      exact ih.tail ⟨r, hent, heq⟩

variable (hI : HoleyImage p T d₀)

include hI

theorem HoleyImage.depth_le_of_scans (h : T.Scans p d₀ n m) :
    T.depth m ≤ T.depth n := by
  induction h with
  | refl => exact le_rfl
  | tail hreach hsub ih =>
      obtain ⟨hc, r, -, hent, rfl⟩ := hsub
      exact (hI.toDirImage.depth_lt hc hent).le.trans ih

/-- Different records of a directory lead to different parts of the tree. -/
theorem HoleyImage.scans_apart (hn : n ∈ T.dirs) (hr : T.Enters p d₀ n r) (hr' : T.Enters p d₀ n r')
    (hne : r ≠ r') (h : T.Scans p d₀ (origInum p T d₀ n r) m) :
    ¬ T.Scans p d₀ (origInum p T d₀ n r') m := by
  -- neither of two different subdirectories is below the other
  have hbelow : ∀ r r', T.Enters p d₀ n r → T.Enters p d₀ n r' → r ≠ r' →
      ¬ T.Scans p d₀ (origInum p T d₀ n r) (origInum p T d₀ n r') := by
    intro r r' hr hr' hne hscan
    rcases Relation.ReflTransGen.cases_tail hscan with heq | ⟨c, hreach, hc, s, -, hs, heq⟩
    · exact hne (hI.parent n hn n hn r r' hr hr' heq.symm).2
    · obtain ⟨rfl, -⟩ := hI.parent c hc n hn s r' hs hr' heq
      have hle := hI.depth_le_of_scans hreach
      have hlt := hI.toDirImage.depth_lt hn hr
      exact absurd (hle.trans_lt hlt) (lt_irrefl _)
  intro h'
  have hunique : Relator.RightUnique (Function.swap (T.FrontSub p d₀)) := by
    rintro c a b ⟨ha, s, -, hs, hsc⟩ ⟨hb, s', -, hs', hsc'⟩
    exact (hI.parent a ha b hb s s' hs hs' (hsc.trans hsc'.symm)).1
  rcases Relation.ReflTransGen.total_of_right_unique hunique
    (Relation.reflTransGen_swap.mpr h) (Relation.reflTransGen_swap.mpr h') with hcase | hcase
  · exact hbelow r' r hr' hr hne.symm (Relation.reflTransGen_swap.mp hcase)
  · exact hbelow r r' hr hr' hne (Relation.reflTransGen_swap.mp hcase)

end Reach

/-! ## Effects -/

open Classical in
/-- The numbers `val`, except that the front records of the directories in `D` are
done with. -/
noncomputable def scanVal (p : Fixup) (T : DirTree) (d₀ : Device) (mode : Mode) (D : Set ℕ)
    (val : ℕ → ℕ → ℕ) : ℕ → ℕ → ℕ := fun m r =>
  if m ∈ D ∧ r ∈ T.front p d₀ m then mode.target p (origInum p T d₀ m r) else val m r

/-- The pass has not touched the directories in `D`. -/
def Unscanned (p : Fixup) (T : DirTree) (d₀ : Device) (mode : Mode) (D : Set ℕ)
    (val : ℕ → ℕ → ℕ) : Prop :=
  ∀ m ∈ D, ∀ r ∈ T.front p d₀ m, val m r = mode.start (origInum p T d₀ m r)

/-- The program returns `a`, deals with the directories in `D`, and writes their blocks. -/
structure Effect {α : Type} (p : Fixup) (T : DirTree) (d₀ : Device) (mode : Mode)
    (x : DevM Stop α) (d : Device) (a : α) (D : Set ℕ) (val : ℕ → ℕ → ℕ) : Prop where
  result : x.result d = .ok a
  holds : Holds p T d₀ d₀ (scanVal p T d₀ mode D val) (x.final d)
  places : ∀ place, place ∈ (x.writes d).map Write.place ↔
    ∃ m ∈ D, ∃ b ∈ T.blocks m, place = (b * p.info.blockSize, p.info.blockSize)

section Effects

variable {p : Fixup} {T : DirTree} {d₀ d : Device} {mode : Mode} {D D' : Set ℕ}
  {val : ℕ → ℕ → ℕ} {α β : Type} {a : α} {b : β} {x : DevM Stop α} {f : α → DevM Stop β}

theorem scanVal_of_mem {m r : ℕ} (hm : m ∈ D) (hr : r ∈ T.front p d₀ m) :
    scanVal p T d₀ mode D val m r = mode.target p (origInum p T d₀ m r) := if_pos ⟨hm, hr⟩

theorem scanVal_of_not_mem {m : ℕ} (hm : m ∉ D) (r : ℕ) :
    scanVal p T d₀ mode D val m r = val m r := if_neg fun h => hm h.1

theorem scanVal_of_not_front {m r : ℕ} (hr : r ∉ T.front p d₀ m) :
    scanVal p T d₀ mode D val m r = val m r := if_neg fun h => hr h.2

theorem scanVal_empty : scanVal p T d₀ mode ∅ val = val := by
  funext m r
  exact scanVal_of_not_mem (Set.notMem_empty m) r

theorem scanVal_scanVal :
    scanVal p T d₀ mode D' (scanVal p T d₀ mode D val) = scanVal p T d₀ mode (D ∪ D') val := by
  funext m r
  by_cases hr : r ∈ T.front p d₀ m
  · by_cases h' : m ∈ D'
    · rw [scanVal_of_mem h' hr, scanVal_of_mem (Or.inr h') hr]
    · rw [scanVal_of_not_mem h']
      by_cases h : m ∈ D
      · rw [scanVal_of_mem h hr, scanVal_of_mem (Or.inl h) hr]
      · rw [scanVal_of_not_mem h, scanVal_of_not_mem fun hm => hm.elim h h']
  · rw [scanVal_of_not_front hr, scanVal_of_not_front hr, scanVal_of_not_front hr]

theorem Unscanned.mono (h : Unscanned p T d₀ mode D val) (hle : D' ⊆ D) :
    Unscanned p T d₀ mode D' val :=
  fun m hm => h m (hle hm)

/-- Work on other directories leaves them fresh. -/
theorem Unscanned.scanVal (h : Unscanned p T d₀ mode D val) (hapart : ∀ m ∈ D, m ∉ D') :
    Unscanned p T d₀ mode D (Ext4.scanVal p T d₀ mode D' val) := by
  intro m hm r hr
  rw [scanVal_of_not_mem (hapart m hm), h m hm r hr]

namespace Effect

theorem pure (h : Holds p T d₀ d₀ val d) :
    Effect p T d₀ mode (Pure.pure a : DevM Stop α) d a ∅ val where
  result := rfl
  holds := by rwa [scanVal_empty]
  places := by
    intro place
    simp [writes, Pure.pure]

theorem bind (hx : Effect p T d₀ mode x d a D val)
    (hf : Effect p T d₀ mode (f a) (x.final d) b D' (scanVal p T d₀ mode D val)) :
    Effect p T d₀ mode (x >>= f) d b (D ∪ D') val where
  result := (bind_of_ok hx.result).1.trans hf.result
  holds := by
    rw [final_bind_of_ok hx.result, ← scanVal_scanVal]
    exact hf.holds
  places := by
    intro place
    rw [(bind_of_ok hx.result).2, List.map_append, List.mem_append, hx.places, hf.places]
    simp only [Set.mem_union, or_and_right, exists_or]

theorem query_bind {g : Device → Except Stop α} (hg : g d = .ok a)
    (hf : Effect p T d₀ mode (f a) d b D val) :
    Effect p T d₀ mode (DevM.query g >>= f) d b D val where
  result := (bind_of_ok (x := DevM.query g) hg).1.trans hf.result
  holds := by
    rw [final_bind_of_ok (x := DevM.query g) hg]
    exact hf.holds
  places := by
    intro place
    rw [(bind_of_ok (x := DevM.query g) hg).2]
    exact hf.places place

end Effect

end Effects

/-! ## One entry -/

/-- The directories that record `r` of `n` leads to. -/
def below (p : Fixup) (T : DirTree) (d₀ : Device) (n r : ℕ) : Set ℕ :=
  {m | T.Enters p d₀ n r ∧ T.Scans p d₀ (origInum p T d₀ n r) m}

/-- What `recurse_dir` does on every directory of less than the given depth. -/
def RecursesExactly (p : Fixup) (T : DirTree) (d₀ : Device) (mode : Mode) (bound : ℕ)
    (recurseDir : Mem → ℕ → DevM Stop Unit) : Prop :=
  ∀ n ∈ T.dirs, T.depth n < bound → ∀ inode inode₀ val d, readInode p n d₀ = .ok inode₀ →
    inode.SameOn inode₀ 0 DirTree.inodeBytes → Holds p T d₀ d₀ val d →
    Unscanned p T d₀ mode {m | T.Scans p d₀ n m} val →
    Effect p T d₀ mode (recurseDir inode (T.size p n)) d () {m | T.Scans p d₀ n m} val

section Scan

variable {p : Fixup} {T : DirTree} {d₀ d : Device} {mode : Mode} {n r : ℕ} {val : ℕ → ℕ → ℕ}

theorem sameNav_self : SameNav p T d₀ d₀ := ⟨rfl, fun _ _ => rfl⟩

/-- The number that a pass finds first leads to its inode. -/
theorem start_cases (mode : Mode) {v : ℕ} (hv : v < 2 ^ 31) (hnew : p.newInum v < 2 ^ 31) :
    mode.start v &&& 0x7fffffff = v ∧ (mode = .updateInodeNums → Marked (mode.start v)) := by
  have hmeets : mode.start v = mode.start v ∨ mode.start v = mode.target p v := Or.inl rfl
  rcases meets_cases hmeets hv hnew with ⟨rfl, hmark, -⟩ | h
  · exact absurd (marked_or_bit31 v) hmark
  · exact h

variable (hI : HoleyImage p T d₀) (hn : n ∈ T.dirs)

include hI hn

theorem visitEntry_effect {recurseDir : Mem → ℕ → DevM Stop Unit}
    (hrec : RecursesExactly p T d₀ mode (T.depth n) recurseDir) (hr : r ∈ T.live p d₀ n)
    (hH : Holds p T d₀ d₀ val d) (hF : Unscanned p T d₀ mode (below p T d₀ n r) val) :
    Effect p T d₀ mode (visitEntry p mode recurseDir (recFileType (T.buf p d₀ n) r)
      (recName (T.buf p d₀ n) r)
        (mode.start (origInum p T d₀ n r))) d () (below p T d₀ n r) val := by
  have hD := hI.toDirImage
  have hentry := hI.entry n hn r hr
  obtain ⟨inode, hread, -, -⟩ := hentry.inode
  have hlow : mode.start (origInum p T d₀ n r) &&& 0x7fffffff = origInum p T d₀ n r :=
    (start_cases mode hentry.inum_lt hentry.newInum_lt).1
  have hmark : mode = .updateInodeNums → Marked (mode.start (origInum p T d₀ n r)) :=
    (start_cases mode hentry.inum_lt hentry.newInum_lt).2
  unfold visitEntry
  apply Effect.query_bind (isEntryDir_eq hD sameNav_self hn hr hH hread hlow hmark)
  by_cases hent : T.Enters p d₀ n r
  · obtain ⟨hdir, hdot, hdotdot⟩ := (hD.enters_iff hn hr hread).mp hent
    obtain ⟨inode', hread', hsame⟩ := hH.readInode hD sameNav_self (refers_of_live hn hr) hread
    obtain ⟨hsize, hlt⟩ := hD.dirSize_eq hent.2.1 hread hsame
    have hbelow : below p T d₀ n r = {m | T.Scans p d₀ (origInum p T d₀ n r) m} := by
      ext m
      exact and_iff_right hent
    rw [if_pos ⟨hdir, hdot, hdotdot, hmark⟩, hlow]
    apply Effect.query_bind hread'
    rw [if_neg (by simp [isDirInode_congr hsame, hdir]), if_neg (not_le.mpr hlt), hsize,
      hbelow]
    rw [hbelow] at hF
    exact hrec _ hent.2.1 (hD.depth_lt hn hent) inode' inode val d hread hsame hH hF
  · have hnot : ¬ (isDirInode inode = true ∧ recName (T.buf p d₀ n) r ≠ [46] ∧
        recName (T.buf p d₀ n) r ≠ [46, 46] ∧
        (mode = .updateInodeNums → Marked (mode.start (origInum p T d₀ n r)))) :=
      fun hc => hent ((hD.enters_iff hn hr hread).mpr ⟨hc.1, hc.2.1, hc.2.2.1⟩)
    have hbelow : below p T d₀ n r = ∅ := by
      ext m
      exact iff_of_false (fun h => hent h.1) (Set.notMem_empty m)
    rw [if_neg hnot, hbelow]
    exact Effect.pure hH

/-- The directories that the records `rs` of `n` lead to. -/
def belowAll (p : Fixup) (T : DirTree) (d₀ : Device) (n : ℕ) (rs : List ℕ) : Set ℕ :=
  {m | ∃ r ∈ rs, m ∈ below p T d₀ n r}

omit hI hn in
theorem belowAll_cons (rs : List ℕ) :
    belowAll p T d₀ n (r :: rs) = below p T d₀ n r ∪ belowAll p T d₀ n rs := by
  ext m
  simp [belowAll]

omit hI hn in
theorem belowAll_nil : belowAll p T d₀ n [] = ∅ := by
  ext m
  simp [belowAll]

/-- The records in front of the hole are visited and get their new numbers. -/
theorem walk_effect {recurseDir : Mem → ℕ → DevM Stop Unit}
    (hrec : RecursesExactly p T d₀ mode (T.depth n) recurseDir) (rest : List ℕ)
    (hrest : ∀ z ∈ rest.head?, z ∉ T.live p d₀ n) (rs : List ℕ) :
    ∀ fuel o prev val new d, rs.length < fuel →
      Tiles (T.buf p d₀ n) p.info.blockSize (T.size p n) o (rs ++ rest) →
      rs ++ rest <:+ T.records n → (∀ r ∈ rs, r ∈ T.live p d₀ n) →
      (∀ r ∈ rs, new r = mode.start (origInum p T d₀ n r)) → Holds p T d₀ d₀ val d →
      Unscanned p T d₀ mode (belowAll p T d₀ n rs) val →
      Effect p T d₀ mode (walk p mode recurseDir (T.size p n) fuel (T.renum p d₀ new n) o prev) d
        (T.renum p d₀ (fun r => if r ∈ rs then mode.target p (origInum p T d₀ n r) else new r) n)
        (belowAll p T d₀ n rs) val := by
  have hD := hI.toDirImage
  induction rs with
  | nil =>
      intro fuel o prev val new d hfuel htiles hsuffix _ _ hH _
      obtain ⟨fuel, rfl⟩ : ∃ f, fuel = f + 1 := ⟨fuel - 1, by omega⟩
      rw [belowAll_nil]
      have hbuf :
          (fun r => if r ∈ [] then mode.target p (origInum p T d₀ n r) else new r) = new := by
        simp
      rw [hbuf]
      cases rest with
      | nil =>
          have ho : T.size p n ≤ o := Nat.le_of_eq (Eq.symm htiles)
          unfold walk
          rw [if_pos ho]
          exact Effect.pure hH
      | cons z rest =>
          -- the record that is not in use ends the loop
          obtain ⟨rfl, hok, htail⟩ := htiles
          have hz : z ∈ T.records n := hsuffix.subset List.mem_cons_self
          have hmin := hok.minLength
          have hle := htail.le
          rw [walk_record (show z + 12 ≤ T.size p n by omega),
            show (DirEntry.inode.at_ z).get (T.renum p d₀ new n) = 0 from
              recInum_renum_of_dead hD hn hz (hrest z rfl), if_pos rfl]
          exact Effect.pure hH
  | cons r rs ih =>
      rintro fuel o prev val new d hfuel ⟨rfl, hok, htail⟩ hsuffix hlive hnew hH hF
      obtain ⟨fuel, rfl⟩ : ∃ f, fuel = f + 1 := ⟨fuel - 1, by omega⟩
      have hr := hlive r List.mem_cons_self
      have hmem : r ∈ T.records n := live_subset hr
      have hentry := hI.entry n hn r hr
      have hmin := hok.minLength
      have hle := htail.le
      have hmeets : mode.start (origInum p T d₀ n r) = mode.start (origInum p T d₀ n r) ∨
          mode.start (origInum p T d₀ n r) = mode.target p (origInum p T d₀ n r) := Or.inl rfl
      obtain ⟨hpos, hlt⟩ := meets_bounds hmeets (origInum_pos hr) hentry.inum_lt hentry.newInum_lt
      have hinum : (DirEntry.inode.at_ r).get (T.renum p d₀ new n) =
          mode.start (origInum p T d₀ n r) := by
        rw [show (DirEntry.inode.at_ r).get (T.renum p d₀ new n) = u32 (new r) from
          recInum_renum hD hn hr, hnew r List.mem_cons_self, u32_of_lt hlt]
      have hname : entryName (T.renum p d₀ new n) (T.size p n) r =
          .ok (recName (T.buf p d₀ n) r) := by
        rw [entryName_eq (recordOk_renum hD hn hmem) (by rwa [recLength_renum hD hn hmem]),
          recName_renum hD hn hmem]
      have hnodup : r ∉ rs := by
        intro hmem
        have := (htail.mem r (List.mem_append_left _ hmem)).1
        omega
      rw [walk_record (show r + 12 ≤ T.size p n by omega), hinum, if_neg (by omega)]
      refine Effect.query_bind (g := fun _ => entryName (T.renum p d₀ new n) (T.size p n) r) hname ?_
      rw [show (DirEntry.fileType.at_ r).get (T.renum p d₀ new n) = recFileType (T.buf p d₀ n) r
          from recFileType_renum hD hn hmem,
        show (DirEntry.recLen.at_ r).get (T.renum p d₀ new n) = recLength (T.buf p d₀ n) r
          from recLength_renum hD hn hmem,
        processInum_start (origInum_pos hr) hentry.inum_lt hentry.newInum_lt, set_renum hD hn hr,
        belowAll_cons]
      rw [belowAll_cons] at hF
      refine (visitEntry_effect hI hn hrec hr hH (hF.mono Set.subset_union_left)).bind ?_
      have hapart : ∀ m ∈ belowAll p T d₀ n rs, m ∉ below p T d₀ n r := by
        rintro m ⟨s, hs, hent, hscan⟩ ⟨hent', hscan'⟩
        exact hI.scans_apart hn hent hent' (fun h => hnodup (h ▸ hs)) hscan hscan'
      have hnew' : ∀ s ∈ rs, Function.update new r (mode.target p (origInum p T d₀ n r)) s =
          mode.start (origInum p T d₀ n s) := by
        intro s hs
        have hne : s ≠ r := fun h => hnodup (h ▸ hs)
        rw [Function.update_of_ne hne]
        exact hnew s (List.mem_cons_of_mem _ hs)
      have hrun := ih fuel _ (some r) _ _ _ (by simpa using hfuel) htail
        ((List.suffix_cons r _).trans hsuffix) (fun s hs => hlive s (List.mem_cons_of_mem _ hs))
        hnew' (visitEntry_effect hI hn hrec hr hH (hF.mono Set.subset_union_left)).holds
        ((hF.mono Set.subset_union_right).scanVal hapart)
      have hbuf : T.renum p d₀ (fun s => if s ∈ r :: rs then mode.target p (origInum p T d₀ n s)
            else new s) n =
          T.renum p d₀ (fun s => if s ∈ rs then mode.target p (origInum p T d₀ n s)
            else Function.update new r (mode.target p (origInum p T d₀ n r)) s) n := by
        funext x
        apply renum_congr
        intro s _ _ _
        by_cases hsr : s = r
        · subst hsr
          simp [hnodup]
        · simp [hsr]
      rw [hbuf]
      exact hrun

/-- Writing back a directory puts the new numbers into the blocks from `k` on. -/
theorem writeBlocks_holds (new : ℕ → ℕ) (rest : List ℕ) :
    ∀ k val d, (T.blocks n).drop k = rest → Holds p T d₀ d₀ val d →
      (writeBlocks p false (T.renum p d₀ new n) (k * p.info.blockSize) rest).result d = .ok () ∧
      Holds p T d₀ d₀
        (Function.update val n fun r => if k ≤ r / p.info.blockSize then new r else val n r)
        ((writeBlocks p false (T.renum p d₀ new n) (k * p.info.blockSize) rest).final d) ∧
      ((writeBlocks p false (T.renum p d₀ new n) (k * p.info.blockSize) rest).writes d).map
          Write.place = rest.map fun b => (b * p.info.blockSize, p.info.blockSize) := by
  have hD := hI.toDirImage
  induction rest with
  | nil =>
      intro k val d hdrop hH
      refine ⟨rfl, hH.congr fun m hm r hr => ?_, rfl⟩
      by_cases hmn : m = n
      · -- no record lies behind the last block
        subst hmn
        have hlen : (T.blocks m).length ≤ k := List.drop_eq_nil_iff.mp hdrop
        have hblock := hD.live_block_lt hm hr
        rw [Function.update_self, if_neg (by omega)]
      · rw [Function.update_of_ne hmn]
  | cons b rest ih =>
      intro k val d hdrop hH
      obtain ⟨hk, rfl, hrest⟩ := exists_getElem_of_drop_cons hdrop
      obtain ⟨hoff, hseek⟩ := hD.seek_block hn hk
      have hfirst : writeBlock p false (T.blocks n)[k]
          (fun i => T.renum p d₀ new n (k * p.info.blockSize + i)) =
          DevM.write ⟨(T.blocks n)[k] * p.info.blockSize, p.info.blockSize,
            fun i => T.renum p d₀ new n (k * p.info.blockSize + i)⟩ := by
        unfold writeBlock
        simp only [if_neg (show ¬ (false = true) by simp), hoff, if_pos hseek]
      have hnext : k * p.info.blockSize + p.info.blockSize = (k + 1) * p.info.blockSize := by ring
      obtain ⟨hres, hholds, hplaces⟩ := ih (k + 1) _ _ hrest (hH.write_block hD rfl hn hk new)
      unfold writeBlocks
      rw [hfirst, hnext]
      have hwrite : (DevM.write ⟨(T.blocks n)[k] * p.info.blockSize, p.info.blockSize,
          fun i => T.renum p d₀ new n (k * p.info.blockSize + i)⟩ : DevM Stop Unit).result d =
          .ok () := rfl
      refine ⟨(bind_of_ok hwrite).1.trans hres, ?_, ?_⟩
      · rw [final_bind_of_ok hwrite]
        refine hholds.congr fun m hm r hr => ?_
        by_cases hmn : m = n
        · subst hmn
          simp only [Function.update_self]
          split_ifs <;> first | rfl | omega
        · rw [Function.update_of_ne hmn, Function.update_of_ne hmn, Function.update_of_ne hmn]
      · rw [(bind_of_ok hwrite).2, List.map_append, List.map_cons]
        exact congrArg₂ _ rfl hplaces

omit hI in
/-- A pass gets to the directory itself and to what its front records lead to. -/
theorem scans_eq : {m | T.Scans p d₀ n m} = belowAll p T d₀ n (T.front p d₀ n) ∪ {n} := by
  ext m
  constructor
  · intro h
    rcases Relation.ReflTransGen.cases_head h with rfl | ⟨c, ⟨-, r, hr, hent, rfl⟩, hreach⟩
    · exact Or.inr rfl
    · exact Or.inl ⟨r, hr, hent, hreach⟩
  · rintro (⟨r, hr, hent, hreach⟩ | rfl)
    · exact Relation.ReflTransGen.head ⟨hn, r, hr, hent, rfl⟩ hreach
    · exact Relation.ReflTransGen.refl

/-- No record leads back to the directory it is in. -/
theorem not_mem_belowAll (rs : List ℕ) : n ∉ belowAll p T d₀ n rs := by
  rintro ⟨r, -, hent, hscan⟩
  have hle := hI.depth_le_of_scans hscan
  have hlt := hI.toDirImage.depth_lt hn hent
  exact absurd (hle.trans_lt hlt) (lt_irrefl _)

theorem writeBlocks_effect {new : ℕ → ℕ}
    (hnew : new = fun r => if r ∈ T.front p d₀ n then mode.target p (origInum p T d₀ n r)
      else val n r) (hH : Holds p T d₀ d₀ val d) :
    Effect p T d₀ mode (writeBlocks p false (T.renum p d₀ new n) 0 (T.blocks n)) d () {n} val := by
  obtain ⟨hres, hholds, hplaces⟩ := writeBlocks_holds hI hn new (T.blocks n) 0 val d rfl hH
  rw [Nat.zero_mul] at hres hholds hplaces
  refine ⟨hres, hholds.congr fun m hm r hr => ?_, fun place => ?_⟩
  · by_cases hmn : m = n
    · subst hmn
      rw [Function.update_self, if_pos (Nat.zero_le _), hnew]
      by_cases hfront : r ∈ T.front p d₀ m
      · rw [scanVal_of_mem (Set.mem_singleton m) hfront]
        exact if_pos hfront
      · rw [scanVal_of_not_front hfront]
        exact if_neg hfront
    · rw [Function.update_of_ne hmn, scanVal_of_not_mem (show m ∉ ({n} : Set ℕ) from hmn)]
  · rw [hplaces, List.mem_map]
    constructor
    · rintro ⟨b, hb, rfl⟩
      exact ⟨n, rfl, b, hb, rfl⟩
    · rintro ⟨m, rfl, b, hb, rfl⟩
      exact ⟨b, hb, rfl⟩

omit hn in
/-- The exact effect of a pass that writes. -/
theorem recurseDir_effect (hmode : mode ≠ .sanityCheckPass) (fuel : ℕ) :
    RecursesExactly p T d₀ mode fuel (recurseDir p mode fuel) := by
  have hD := hI.toDirImage
  induction fuel with
  | zero => exact fun n _ hdepth => absurd hdepth (Nat.not_lt_zero _)
  | succ fuel ih =>
      intro n hn hdepth inode inode₀ val d hread hsame hH hF
      obtain ⟨inode₁, hread₁, hdir⟩ := hI.inode n hn
      rw [hread] at hread₁
      cases hread₁
      have hmod : T.size p n % p.info.blockSize = 0 := Nat.mul_mod_right _ _
      have hdiv : T.size p n / p.info.blockSize = (T.blocks n).length :=
        Nat.mul_div_cancel_left _ hD.blockSize_pos
      have hrec : RecursesExactly p T d₀ mode (T.depth n) (recurseDir p mode fuel) :=
        fun m hm hlt => ih m hm (by omega)
      have htiles := hI.tiles n hn
      have hlength := htiles.length_le
      obtain ⟨rest, hrecords, hrest⟩ := exists_records_eq p T d₀ n
      rw [hrecords] at htiles
      have hshort : (T.front p d₀ n).length < T.size p n + 1 := by
        have := (front_prefix_records p T d₀ n).length_le
        omega
      rw [scans_eq hn] at hF ⊢
      unfold recurseDir
      rw [if_neg (not_not.mpr hmod), hdiv]
      apply Effect.query_bind (hH.blockList hD sameNav_self hn hread hdir hsame fuel)
      refine Effect.query_bind (g := fun d => readBlocks p d (T.blocks n))
        (hH.readBlocks hD sameNav_self hn) ?_
      rw [if_neg (not_le.mpr hdir.size_lt : ¬ 2 ^ 31 ≤ T.size p n), decide_eq_false hmode]
      have hwalk := walk_effect hI hn hrec rest hrest (T.front p d₀ n) (T.size p n + 1) 0 none val
        (val n) d hshort htiles (hrecords ▸ List.suffix_rfl) (fun r hr => front_subset hr)
        (fun r hr => hF n (Or.inr rfl) r hr) hH (hF.mono Set.subset_union_left)
      refine hwalk.bind (writeBlocks_effect hI hn ?_ hwalk.holds)
      funext r
      rw [scanVal_of_not_mem (not_mem_belowAll hI hn _)]

end Scan

/-! ## Both passes -/

/-- A pass over the whole tree. -/
def rootPass (p : Fixup) (mode : Mode) (fuel : ℕ) (root : Mem) : DevM Stop Unit :=
  recurseDir p mode fuel root (dirSize root)

/-- The marking pass and then the updating pass go through every directory and replace
the number of every entry in use. -/
structure RenumbersAll (p : Fixup) (T : DirTree) (fuel : ℕ) (root : Mem) (d₀ d₁ d₂ : Device) :
    Prop where
  mark : (rootPass p .markInodeNums fuel root).result d₀ = .ok ()
  marked : d₁ = (rootPass p .markInodeNums fuel root).final d₀
  update : (rootPass p .updateInodeNums fuel root).result d₁ = .ok ()
  updated : d₂ = (rootPass p .updateInodeNums fuel root).final d₁
  recurses : ∀ n ∈ T.dirs, ∀ b ∈ T.blocks n,
    (b * p.info.blockSize, p.info.blockSize) ∈
      ((rootPass p .markInodeNums fuel root).writes d₀).map Write.place ∧
    (b * p.info.blockSize, p.info.blockSize) ∈
      ((rootPass p .updateInodeNums fuel root).writes d₁).map Write.place
  renumbers : ∀ n ∈ T.dirs, ∀ r ∈ T.live p d₀ n,
    recInum (T.buf p d₂ n) r = p.computeNewInum (recInum (T.buf p d₀ n) r)
  leaves : ∀ n ∈ T.dirs, ∀ r ∈ T.records n, r ∉ T.live p d₀ n →
    (T.buf p d₂ n).SameOn (T.buf p d₀ n) r (r + recLength (T.buf p d₀ n) r)

section Passes

variable {p : Fixup} {T : DirTree} {d₀ : Device} {fuel n r : ℕ} {root : Mem}

/-- The directories that a pass over the tree gets to. -/
def scanned (p : Fixup) (T : DirTree) (d₀ : Device) : Set ℕ := {m | T.Scans p d₀ EXT4_ROOT_INO m}

/-- The numbers after both passes. -/
noncomputable def passVal (p : Fixup) (T : DirTree) (d₀ : Device) : ℕ → ℕ → ℕ :=
  scanVal p T d₀ .updateInodeNums (scanned p T d₀)
    (scanVal p T d₀ .markInodeNums (scanned p T d₀) (origInum p T d₀))

theorem passVal_of_front (hn : n ∈ scanned p T d₀) (hr : r ∈ T.front p d₀ n) :
    passVal p T d₀ n r = p.newInum (origInum p T d₀ n r) := scanVal_of_mem hn hr

theorem passVal_of_not_front (hr : r ∉ T.front p d₀ n) :
    passVal p T d₀ n r = origInum p T d₀ n r := by
  unfold passVal
  rw [scanVal_of_not_front hr, scanVal_of_not_front hr]

variable (hI : HoleyImage p T d₀)

include hI

theorem HoleyImage.computeNewInum_eq (hn : n ∈ T.dirs) (hr : r ∈ T.live p d₀ n) :
    p.computeNewInum (recInum (T.buf p d₀ n) r) = p.newInum (recInum (T.buf p d₀ n) r) :=
  have hentry := hI.entry n hn r hr
  Ext4.computeNewInum_eq (origInum_pos hr) hentry.inum_lt hentry.newInum_lt

variable (hfuel : T.depth EXT4_ROOT_INO < fuel) (hread : readInode p EXT4_ROOT_INO d₀ = .ok root)

include hfuel hread

theorem rootPass_effect {mode : Mode} {val : ℕ → ℕ → ℕ} {d : Device}
    (hmode : mode ≠ .sanityCheckPass) (hH : Holds p T d₀ d₀ val d)
    (hF : Unscanned p T d₀ mode (scanned p T d₀) val) :
    Effect p T d₀ mode (rootPass p mode fuel root) d () (scanned p T d₀) val := by
  obtain ⟨root₁, hread₁, hdir⟩ := hI.inode _ hI.root_mem
  rw [hread] at hread₁
  cases hread₁
  unfold rootPass
  rw [hdir.dirSize_eq]
  exact recurseDir_effect hI hmode fuel _ hI.root_mem hfuel root root val d hread
    (fun _ _ _ => rfl) hH hF

theorem markPass_effect : Effect p T d₀ .markInodeNums (rootPass p .markInodeNums fuel root) d₀ ()
    (scanned p T d₀) (origInum p T d₀) :=
  rootPass_effect hI hfuel hread (by decide) hI.toDirImage.holds fun _ _ _ _ => rfl

theorem updatePass_effect : Effect p T d₀ .updateInodeNums
    (rootPass p .updateInodeNums fuel root) ((rootPass p .markInodeNums fuel root).final d₀) ()
    (scanned p T d₀) (scanVal p T d₀ .markInodeNums (scanned p T d₀) (origInum p T d₀)) :=
  rootPass_effect hI hfuel hread (by decide) (markPass_effect hI hfuel hread).holds
    fun _ hm _ hr => scanVal_of_mem hm hr

/-- The number in a record after both passes. -/
theorem recInum_passes (hn : n ∈ T.dirs) (hr : r ∈ T.live p d₀ n) :
    recInum (T.buf p ((rootPass p .updateInodeNums fuel root).final
      ((rootPass p .markInodeNums fuel root).final d₀)) n) r = u32 (passVal p T d₀ n r) := by
  rw [(updatePass_effect hI hfuel hread).holds.buf n hn, recInum_renum hI.toDirImage hn hr]
  rfl

/-- An entry behind a hole keeps its number. -/
theorem recInum_passes_of_not_front (hn : n ∈ T.dirs) (hr : r ∈ T.live p d₀ n)
    (hnot : r ∉ T.front p d₀ n) :
    recInum (T.buf p ((rootPass p .updateInodeNums fuel root).final
      ((rootPass p .markInodeNums fuel root).final d₀)) n) r = recInum (T.buf p d₀ n) r := by
  have hlt := (hI.entry n hn r hr).inum_lt
  rw [recInum_passes hI hfuel hread hn hr, passVal_of_not_front hnot]
  exact u32_of_lt (hlt.trans (by decide))

/-- If all is well nevertheless, the number is one that stays. -/
theorem RenumbersAll.stays {d₁ d₂ : Device} (h : RenumbersAll p T fuel root d₀ d₁ d₂)
    (hn : n ∈ T.dirs) (hr : r ∈ T.live p d₀ n) (hnot : r ∉ T.front p d₀ n) :
    p.computeNewInum (recInum (T.buf p d₀ n) r) = recInum (T.buf p d₀ n) r := by
  rw [← h.renumbers n hn r hr, h.updated, h.marked]
  exact recInum_passes_of_not_front hI hfuel hread hn hr hnot

end Passes

/-- The passes renumber the whole tree if and only if they get to every directory and
every entry behind a hole has a number that stays. -/
theorem renumbersAll_iff {p : Fixup} {T : DirTree} {d₀ : Device} {fuel : ℕ} {root : Mem}
    (hI : HoleyImage p T d₀) (hfuel : T.depth EXT4_ROOT_INO < fuel)
    (hread : readInode p EXT4_ROOT_INO d₀ = .ok root) :
    (∃ d₁ d₂, RenumbersAll p T fuel root d₀ d₁ d₂) ↔
      (∀ n ∈ T.dirs, T.Scans p d₀ EXT4_ROOT_INO n) ∧
      ∀ n ∈ T.dirs, ∀ r ∈ T.live p d₀ n, r ∉ T.front p d₀ n →
        p.computeNewInum (recInum (T.buf p d₀ n) r) = recInum (T.buf p d₀ n) r := by
  have hD := hI.toDirImage
  have hmark := markPass_effect hI hfuel hread
  have hupdate := updatePass_effect hI hfuel hread
  constructor
  · rintro ⟨d₁, d₂, h⟩
    refine ⟨fun n hn => ?_, fun n hn r hr hnot => h.stays hI hfuel hread hn hr hnot⟩
    -- a block of the directory was written, and it is in no other
    have hlen := List.length_pos_iff.mpr (hI.blocks_ne_nil n hn)
    obtain ⟨m, hm, b, hb, hplace⟩ :=
      (hmark.places _).mp (h.recurses n hn _ (List.getElem_mem hlen)).1
    have heq : (T.blocks n)[0] = b :=
      Nat.eq_of_mul_eq_mul_right hD.blockSize_pos (congrArg Prod.fst hplace)
    obtain ⟨j, hj, rfl⟩ := List.mem_iff_getElem.mp hb
    have hmdirs : m ∈ T.dirs := mem_dirs_of_reach hI.root_mem (DirTree.Scans.reach hm)
    obtain ⟨rfl, -⟩ := DirTree.block_inj hD.blocks_nodup hn hmdirs hlen hj heq
    exact hm
  · rintro ⟨hscans, hstays⟩
    refine ⟨_, _, hmark.result, rfl, hupdate.result, rfl, fun n hn b hb => ?_, fun n hn r hr => ?_,
      fun n hn r hr hdead => ?_⟩
    · exact ⟨(hmark.places _).mpr ⟨n, hscans n hn, b, hb, rfl⟩,
        (hupdate.places _).mpr ⟨n, hscans n hn, b, hb, rfl⟩⟩
    · by_cases hfront : r ∈ T.front p d₀ n
      · have hnew := (hI.entry n hn r hr).newInum_lt
        rw [recInum_passes hI hfuel hread hn hr, passVal_of_front (hscans n hn) hfront,
          hI.computeNewInum_eq hn hr]
        exact u32_of_lt (hnew.trans (by decide))
      · rw [recInum_passes_of_not_front hI hfuel hread hn hr hfront, hstays n hn r hr hfront]
    · rw [hupdate.holds.buf n hn]
      intro x h₁ h₂
      apply renum_of_not_mem
      intro s hs
      have hne : s ≠ r := fun h => hdead (h ▸ hs)
      rcases hD.live_apart hn hs hr hne with h | h <;> omega

/-! ## A hole in a small image -/

section Holed

/-- The small image with a deleted entry in front of the file in its second directory. -/
def holed : Device where
  size := twoGroups.size
  bytes := twoGroups.bytes.assign (entryAt 28696 0 12 EXT4_FT_UNKNOWN [103] ++
    entryAt 28708 26 2012 EXT4_FT_UNKNOWN [102])

def holedTree : DirTree where
  dirs := twoGroupsTree.dirs
  blocks := twoGroupsTree.blocks
  records n := if n = 2 then [0, 12, 24] else [0, 12, 24, 36]
  depth := twoGroupsTree.depth

/-- Nothing in front of the second directory is different. -/
theorem holed_sameOn {lo hi : ℕ} (h : hi ≤ 28672) : holed.bytes.SameOn twoGroups.bytes lo hi := by
  have hfields : ∀ f ∈ entryAt 28696 0 12 EXT4_FT_UNKNOWN [103] ++
      entryAt 28708 26 2012 EXT4_FT_UNKNOWN [102], 28672 ≤ f.1.offset := by decide
  intro x _ hx
  apply Mem.assign_apply_of_not_mem
  intro f hf
  have := hfields f hf
  omega

theorem readExt_holed : readExt holed = .ok twoGroupsFixup := by
  have h := readExt_eq_ok.mp readExt_twoGroups
  have hsb : holed.slice 1024 Sb.size = twoGroups.slice 1024 Sb.size :=
    Device.slice_congr (holed_sameOn (by decide))
  refine readExt_eq_ok.mpr ⟨h.sb_le, hsb ▸ h.parse, h.noRecover, hsb ▸ h.descSize, h.descLen_lt,
    h.desc_le, ?_, h.filetype, h.inodeSize_pos, h.perBlock_pos, h.newInodesPerGroup⟩
  rw [h.bgDesc]
  exact (Device.slice_congr (holed_sameOn (by decide))).symm

theorem readInode_holed : ∀ v ∈ [2, 25, 26], readInode twoGroupsFixup v holed =
    .ok (holed.slice (inodeOffset twoGroupsFixup v) sizeofInode) := by
  intro v hv
  obtain ⟨hipg, hdesc, hseek, hle, -⟩ := readInode_eq_ok.mp (readInode_twoGroups v hv)
  exact readInode_eq_ok.mpr ⟨hipg, hdesc, hseek, hle, rfl⟩

theorem live_holed : ∀ n ∈ holedTree.dirs, holedTree.live twoGroupsFixup holed n =
    if n = 2 then [0, 12, 24] else [0, 12, 36] := by decide

/-- The entries in use. -/
theorem entries_holed : ∀ n ∈ holedTree.dirs, ∀ r ∈ if n = 2 then [0, 12, 24] else [0, 12, 36],
    let buf := holedTree.buf twoGroupsFixup holed n
    let inum := recInum buf r
    let isDir := isDirInode (holed.slice (inodeOffset twoGroupsFixup inum) sizeofInode)
    inum ∈ [2, 25, 26] ∧ inum < 2 ^ 31 ∧ twoGroupsFixup.newInum inum < 2 ^ 31 ∧
      (recFileType buf r = EXT4_FT_UNKNOWN ∨ (recFileType buf r = EXT4_FT_DIR ↔ isDir = true)) ∧
      (isDir = true → inum ∈ holedTree.dirs ∧ (recName buf r ≠ [46] → recName buf r ≠ [46, 46] →
        holedTree.depth inum < holedTree.depth n)) := by decide

/-- One of them leads into a directory. -/
theorem enters_holed : ∀ n ∈ holedTree.dirs, ∀ r ∈ if n = 2 then [0, 12, 24] else [0, 12, 36],
    recInum (holedTree.buf twoGroupsFixup holed n) r ∈ holedTree.dirs →
    recName (holedTree.buf twoGroupsFixup holed n) r ≠ [46] →
    recName (holedTree.buf twoGroupsFixup holed n) r ≠ [46, 46] → n = 2 ∧ r = 24 := by
  decide

theorem navBytes_holed : ∀ x ∈ holedTree.navBytes twoGroupsFixup holed,
    8320 ≤ x ∧ x < 8420 ∨ 24576 ≤ x ∧ x < 24804 := by
  have hmaps : ∀ n ∈ holedTree.dirs,
      mapBlocks twoGroupsFixup (holed.slice (inodeOffset twoGroupsFixup n) sizeofInode) = [] := by
    decide
  rintro x (⟨v, hv, hx⟩ | ⟨n, hn, inode, hread, b, hb, -⟩)
  · have hmem : v ∈ [2, 25, 26] := by
      rcases hv with hv | ⟨n, hn, r, hr, rfl⟩
      · exact inums_of_mem_dirs hv
      · exact (entries_holed n hn r (live_holed n hn ▸ hr)).1
    exact inodeBytes_twoGroups hmem hx
  · rw [(readInode_eq_ok.mp hread).2.2.2.2, hmaps n hn] at hb
    cases hb

theorem dirInode_holed : ∀ n ∈ holedTree.dirs, ∃ inode,
    readInode twoGroupsFixup n holed = .ok inode ∧
      DirInode twoGroupsFixup (holedTree.blocks n) inode holed := by
  have hfacts : ∀ n ∈ holedTree.dirs,
      let inode := holed.slice (inodeOffset twoGroupsFixup n) sizeofInode
      n ∈ [2, 25, 26] ∧ isDirInode inode = true ∧ Inode.iFlags.get inode = 0 ∧
        Inode.iBlocksLo.get inode * INODE_BLOCK_SIZE = 2048 * (holedTree.blocks n).length ∧
        2048 * (holedTree.blocks n).length < 2 ^ 31 ∧ mapBlocks twoGroupsFixup inode = [] ∧
        blockList twoGroupsFixup 1 inode (holedTree.blocks n).length holed =
          .ok (holedTree.blocks n) := by decide
  intro n hn
  obtain ⟨hmem, hdir, hflags, hblocks, hlt, hmap, hlist⟩ := hfacts n hn
  refine ⟨_, readInode_holed n hmem, hdir, hblocks, hlt, ?_, ?_, hlist⟩
  · intro h
    rw [hflags] at h
    exact absurd rfl h
  · rw [hmap]
    intro b hb
    cases hb

theorem holed_image : HoleyImage twoGroupsFixup holedTree holed where
  readExt := readExt_holed
  size_lt := by decide
  root_mem := by decide
  reachable := by
    intro n hn
    rcases mem_dirs_twoGroups hn with rfl | rfl
    · exact Relation.ReflTransGen.refl
    · refine Relation.ReflTransGen.single ⟨24, ⟨?_, ?_⟩, ?_⟩
      · decide
      · decide
      · decide
  inode := dirInode_holed
  blocks_nodup := by decide
  blocks_le := by decide
  tiles := by decide
  entry := by
    intro n hn r hr
    obtain ⟨hmem, hlt, hnew, htype, hsub⟩ := entries_holed n hn r (live_holed n hn ▸ hr)
    exact ⟨hlt, hnew, _, readInode_holed _ hmem, htype, hsub⟩
  dirs_nav := disjoint_of_bounds dirBytes_twoGroups navBytes_holed fun x h h' => by omega
  blocks_ne_nil := by decide
  parent := by
    intro n hn m hm r r' hr hr' _
    obtain ⟨hr, hmem, hdot, hdotdot⟩ := hr
    obtain ⟨hr', hmem', hdot', hdotdot'⟩ := hr'
    obtain ⟨rfl, rfl⟩ := enters_holed n hn r (live_holed n hn ▸ hr) hmem hdot hdotdot
    obtain ⟨rfl, rfl⟩ := enters_holed m hm r' (live_holed m hm ▸ hr') hmem' hdot' hdotdot'
    exact ⟨rfl, rfl⟩

/-- The inode of its root directory. -/
def holedRoot : Mem := holed.slice (inodeOffset twoGroupsFixup 2) sizeofInode

theorem renumbersAll_iff_holed :
    (∃ d₁ d₂, RenumbersAll twoGroupsFixup holedTree 2 holedRoot holed d₁ d₂) ↔
      (∀ n ∈ holedTree.dirs, holedTree.Scans twoGroupsFixup holed EXT4_ROOT_INO n) ∧
      ∀ n ∈ holedTree.dirs, ∀ r ∈ holedTree.live twoGroupsFixup holed n,
        r ∉ holedTree.front twoGroupsFixup holed n →
          twoGroupsFixup.computeNewInum (recInum (holedTree.buf twoGroupsFixup holed n) r) =
            recInum (holedTree.buf twoGroupsFixup holed n) r :=
  renumbersAll_iff holed_image (by decide) (readInode_holed 2 (by decide))

/-- The file behind the deleted entry keeps its old number, which is that of another inode by
then. -/
theorem not_renumbersAll_holed : HoleyImage twoGroupsFixup holedTree holed ∧
    ¬ ∃ d₁ d₂, RenumbersAll twoGroupsFixup holedTree 2 holedRoot holed d₁ d₂ := by
  refine ⟨holed_image, ?_⟩
  have hfacts : 25 ∈ holedTree.dirs ∧ 36 ∈ holedTree.live twoGroupsFixup holed 25 ∧
      36 ∉ holedTree.front twoGroupsFixup holed 25 ∧
      twoGroupsFixup.computeNewInum (recInum (holedTree.buf twoGroupsFixup holed 25) 36) ≠
        recInum (holedTree.buf twoGroupsFixup holed 25) 36 := by decide
  obtain ⟨hn, hr, hnot, hne⟩ := hfacts
  rintro ⟨d₁, d₂, h⟩
  exact hne (h.stays holed_image (by decide) (readInode_holed 2 (by decide)) hn hr hnot)

end Holed

end SystemExtras.Ext4
