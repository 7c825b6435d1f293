import SystemExtras.Fat.ImportRuns

/-!
# Runs of the import, forwards

From stacks of items that are apart, and with names that come in a good order, a run
leaves the tables of the plan.  `Owns` says which items a run may have changed, so
that the import of a child can be used inside the import of its parent
(`Owns.trans`), and `Filled` is the invariant of the loop over the names.
-/

namespace SystemExtras.Fat

/-! ## Forwards -/

/-- From the state `σ₀` on, whose items `mine` may be used, the run has come to `σ` with the free
items `fl` and the items `held` in its hands, and has changed no other item. -/
structure Owns (σ₀ : State) (mine : List ℕ) (σ : State) (fl held : List ℕ) : Prop where
  ends : Ends σ.next σ.freeItemsHead fl
  nodup : (held ++ fl).Nodup
  bound : ∀ k ∈ held ++ fl, k < σ.itemCount
  mem : ∀ k ∈ held ++ fl, k ∈ mine ∨ σ₀.itemCount ≤ k
  count : σ₀.itemCount ≤ σ.itemCount
  frame : ∀ k < σ₀.itemCount, k ∉ mine → σ.items k = σ₀.items k

namespace Owns

variable {σ₀ σ σ' : State} {mine fl fl' held lent : List ℕ} {k : ℕ}

theorem not_mem_free (h : Owns σ₀ mine σ fl held) (hk : k ∈ held) : k ∉ fl :=
  fun hfree => List.disjoint_of_nodup_append h.nodup hk hfree

/-- Only the items and the head of the free list matter. -/
theorem congr (h : Owns σ₀ mine σ fl held) (hitems : σ'.items = σ.items)
    (hcount : σ'.itemCount = σ.itemCount) (hhead : σ'.freeItemsHead = σ.freeItemsHead) :
    Owns σ₀ mine σ' fl held := by
  have hnext : σ'.next = σ.next := by
    unfold State.next
    rw [hitems]
  refine ⟨?_, h.nodup, ?_, h.mem, ?_, ?_⟩
  · rw [hnext, hhead]
    exact h.ends
  · rw [hcount]
    exact h.bound
  · rw [hcount]
    exact h.count
  · rw [hitems]
    exact h.frame

/-- A held item is assigned. -/
theorem setItem (h : Owns σ₀ mine σ fl held) (hk : k ∈ held) (item : Item) :
    Owns σ₀ mine (σ.setItem k item) fl held := by
  refine ⟨?_, h.nodup, h.bound, h.mem, h.count, ?_⟩
  · rw [next_setItem]
    refine h.ends.congr fun j hj => Function.update_of_ne ?_ _ _
    rintro rfl
    exact h.not_mem_free hk hj
  · intro j hj hmine
    have hne : j ≠ k := by
      rintro rfl
      rcases h.mem j (List.mem_append_left _ hk) with hin | hle
      · exact hmine hin
      · exact absurd hj (Nat.not_lt.mpr hle)
    exact (Function.update_of_ne hne _ _).trans (h.frame j hj hmine)

theorem freeItem (h : Owns σ₀ mine σ fl (k :: held)) :
    Owns σ₀ mine (freeItem σ k) (k :: fl) held := by
  have hset := h.setItem List.mem_cons_self { σ.items k with next := σ.freeItemsHead }
  have hperm : (held ++ k :: fl).Perm (k :: held ++ fl) := List.perm_middle
  refine ⟨⟨rfl, ?_⟩, hperm.nodup_iff.mpr h.nodup, ?_, ?_, h.count, hset.frame⟩
  · have hlink : (Fat.freeItem σ k).next k = σ.freeItemsHead := by
      rw [next_freeItem, Function.update_self]
    rw [hlink]
    exact hset.ends
  · exact fun j hj => h.bound j (hperm.mem_iff.mp hj)
  · exact fun j hj => h.mem j (hperm.mem_iff.mp hj)

theorem allocItem (junk : Junk) (h : Owns σ₀ mine σ fl held) :
    ∃ fl', Owns σ₀ mine (allocItem junk σ).2 fl' ((allocItem junk σ).1 :: held) ∧
      ∀ j ∈ held, (allocItem junk σ).2.items j = σ.items j := by
  cases hhead : σ.freeItemsHead with
  | some k =>
      have hends := h.ends
      rw [hhead] at hends
      cases fl with
      | nil => cases hends
      | cons j fl =>
          obtain ⟨hj, hrest⟩ := hends
          obtain rfl := Option.some.inj hj
          have hperm : (held ++ k :: fl).Perm (k :: held ++ fl) := List.perm_middle
          simp only [Fat.allocItem, hhead]
          refine ⟨fl, ⟨hrest, hperm.nodup_iff.mp h.nodup, ?_, ?_, h.count, h.frame⟩,
            fun _ _ => trivial⟩
          · exact fun j hj => h.bound j (hperm.mem_iff.mpr hj)
          · exact fun j hj => h.mem j (hperm.mem_iff.mpr hj)
  | none =>
      simp only [Fat.allocItem, hhead]
      have hfresh : ∀ j ∈ held ++ fl, j ≠ σ.itemCount := fun j hj => (h.bound j hj).ne
      refine ⟨fl, ⟨?_, ?_, ?_, ?_, ?_, ?_⟩, ?_⟩
      · change Ends (σ.setItem σ.itemCount (junk.fresh σ.itemCount)).next σ.freeItemsHead fl
        rw [next_setItem]
        refine h.ends.congr fun j hj => Function.update_of_ne ?_ _ _
        exact hfresh j (List.mem_append_right _ hj)
      · exact List.nodup_cons.mpr ⟨fun hmem => hfresh _ hmem rfl, h.nodup⟩
      · intro j hj
        rcases List.mem_cons.mp hj with rfl | hj
        · exact Nat.lt_succ_self _
        · exact Nat.lt_succ_of_lt (h.bound j hj)
      · intro j hj
        rcases List.mem_cons.mp hj with rfl | hj
        · exact Or.inr h.count
        · exact h.mem j hj
      · exact h.count.trans (Nat.le_succ _)
      · intro j hj hmine
        have hne : j ≠ σ.itemCount := (hj.trans_le h.count).ne
        exact (Function.update_of_ne hne _ _).trans (h.frame j hj hmine)
      · intro j hj
        exact Function.update_of_ne (hfresh j (List.mem_append_left _ hj)) _ _

/-- An item that is held by a caller is lent to the run. -/
theorem lend (h : Owns σ₀ mine σ fl held) (hk : k < σ₀.itemCount) (hmine : k ∉ mine) :
    Owns σ₀ (k :: mine) σ fl (held ++ [k]) := by
  have hfree : k ∉ held ++ fl := by
    intro hmem
    rcases h.mem k hmem with hin | hle
    · exact hmine hin
    · exact absurd hk (Nat.not_lt.mpr hle)
  have hperm : (held ++ [k] ++ fl).Perm (k :: (held ++ fl)) := by
    rw [List.append_assoc]
    exact List.perm_middle
  refine ⟨h.ends, hperm.nodup_iff.mpr (List.nodup_cons.mpr ⟨hfree, h.nodup⟩), ?_, ?_, h.count, ?_⟩
  · intro j hj
    rcases List.mem_cons.mp (hperm.mem_iff.mp hj) with rfl | hj
    · exact hk.trans_le h.count
    · exact h.bound j hj
  · intro j hj
    rcases List.mem_cons.mp (hperm.mem_iff.mp hj) with rfl | hj
    · exact Or.inl List.mem_cons_self
    · exact (h.mem j hj).imp_left (List.mem_cons_of_mem _)
  · exact fun j hj hnot => h.frame j hj fun hin => hnot (List.mem_cons_of_mem _ hin)

/-- The free items at the start of a run inside a run. -/
theorem restart (h : Owns σ₀ mine σ fl held) : Owns σ fl σ fl [] := by
  refine ⟨h.ends, (List.nodup_append'.mp h.nodup).2.1, ?_, fun k hk => Or.inl hk, le_rfl,
    fun _ _ _ => rfl⟩
  exact fun k hk => h.bound k (List.mem_append_right _ hk)

/-- A run inside a run, which was given the free items and those in `lent`. -/
theorem trans (h : Owns σ₀ mine σ fl (lent ++ held)) (h' : Owns σ (lent ++ fl) σ' fl' lent) :
    Owns σ₀ mine σ' fl' (lent ++ held) ∧ ∀ j ∈ held, σ'.items j = σ.items j := by
  have hout : ∀ j ∈ held, j < σ.itemCount ∧ j ∉ lent ++ fl := by
    intro j hj
    refine ⟨h.bound j (by simp [hj]), fun hmem => ?_⟩
    rcases List.mem_append.mp hmem with hlent | hfree
    · exact List.disjoint_of_nodup_append (List.nodup_append.mp h.nodup).1 hlent hj
    · exact h.not_mem_free (List.mem_append_right _ hj) hfree
  have hmem : ∀ j, j ∈ lent ++ fl' → j ∈ lent ++ fl ∨ σ.itemCount ≤ j := h'.mem
  have hperm : (lent ++ held ++ fl').Perm (held ++ (lent ++ fl')) := by
    rw [List.append_assoc]
    exact List.perm_append_comm_assoc lent held fl'
  refine ⟨⟨h'.ends, hperm.nodup_iff.mpr ?_, ?_, ?_, h.count.trans h'.count, ?_⟩, ?_⟩
  · rw [List.nodup_append']
    refine ⟨(List.nodup_append'.mp (List.nodup_append'.mp h.nodup).1).2.1, h'.nodup, ?_⟩
    intro j hj hj'
    rcases hmem j hj' with hin | hle
    · exact (hout j hj).2 hin
    · exact absurd (hout j hj).1 (Nat.not_lt.mpr hle)
  · intro j hj
    rcases List.mem_append.mp (hperm.mem_iff.mp hj) with hheld | hnew
    · exact (hout j hheld).1.trans_le h'.count
    · exact h'.bound j hnew
  · intro j hj
    rcases List.mem_append.mp (hperm.mem_iff.mp hj) with hheld | hnew
    · exact h.mem j (by simp [hheld])
    · rcases hmem j hnew with hin | hle
      · refine h.mem j ?_
        rcases List.mem_append.mp hin with hlent | hfree
        · simp [hlent]
        · simp [hfree]
      · exact Or.inr (h.count.trans hle)
  · intro j hj hmine
    have hnot : j ∉ lent ++ fl := by
      intro hin
      have : j ∈ lent ++ held ++ fl := by
        rcases List.mem_append.mp hin with hlent | hfree
        · simp [hlent]
        · simp [hfree]
      rcases h.mem j this with hin | hle
      · exact hmine hin
      · exact absurd hj (Nat.not_lt.mpr hle)
    exact (h'.frame j (hj.trans_le h.count) hnot).trans (h.frame j hj hmine)
  · intro j hj
    exact h'.frame j (hout j hj).1 (hout j hj).2

end Owns

/-! ## Filling a table -/

/-- What an item says about a child. -/
def Item.content (item : Item) : List UInt8 × Bool × Imported := (item.name, item.isDir, item.imp)

/-- What the item of a child should say. -/
def Child.content (c : Child) : List UInt8 × Bool × Imported :=
  (convertedName c.name, c.isDir, ⟨c.first, u32 c.size, c.table⟩)

/-- The entry that the import makes for a child. -/
def Child.dirent (c : Child) : FatDirent :=
  fatDirentSet (convertedName c.name) (if c.isDir then fatAttrSubdir else 0) c.first (u32 c.size)

/-- An entry depends only on what its item says. -/
def direntOf (content : List UInt8 × Bool × Imported) : FatDirent :=
  fatDirentSet content.1 (if content.2.1 then fatAttrSubdir else 0) content.2.2.firstCluster
    content.2.2.size

theorem length_patchDotDot (my : ℕ) (dirs : List Dir) (d : Option ℕ) :
    (patchDotDot my dirs d).length = dirs.length := by
  cases d with
  | none => rfl
  | some d => exact List.length_modify ..

/-- One round of the loop that fills a table, with an item at hand. -/
theorem fillEntries_cons {my n k : ℕ} {σ : State} {es : List FatDirent}
    (h : ∀ d, (σ.items k).imp.dotDotDirent = some d → d < σ.dirs.length) :
    fillEntries my (n + 1) (some k) σ es = fillEntries my n (σ.next k)
      (freeItem { σ with dirs := patchDotDot my σ.dirs (σ.items k).imp.dotDotDirent } k)
      ((σ.items k).dirent :: es) := by
  rw [fillEntries]
  cases hdot : (σ.items k).imp.dotDotDirent with
  | none => rfl
  | some d =>
      simp only [if_pos (h d hdot)]
      rfl

theorem fillEntries_forth {my : ℕ} {σ₀ : State} {mine lent : List ℕ} : ∀ {il : List ℕ}
    {items : Option ℕ} {σ : State} {fl : List ℕ} (es : List FatDirent),
      Owns σ₀ mine σ fl (il ++ lent) → Ends σ.next items il →
      (∀ k ∈ il, ∀ d, (σ.items k).imp.dotDotDirent = some d → d < σ.dirs.length) →
      ∃ σ' fl', fillEntries my il.length items σ es =
          .ok (σ', (il.map fun k => (σ.items k).dirent).reverse ++ es) ∧
        Owns σ₀ mine σ' fl' lent ∧
        σ'.dirs = (il.map fun k => (σ.items k).imp.dotDotDirent).foldl (patchDotDot my) σ.dirs ∧
        σ'.fs = σ.fs ∧ σ'.imp = σ.imp ∧ ∀ k ∈ lent, σ'.items k = σ.items k := by
  intro il
  induction il with
  | nil =>
      intro items σ fl es howns hends _
      exact ⟨σ, fl, rfl, howns, rfl, rfl, rfl, fun _ _ => rfl⟩
  | cons k il ih =>
      intro items σ fl es howns hends hdirs
      obtain ⟨rfl, hends⟩ := hends
      set σ₁ : State :=
        { σ with dirs := patchDotDot my σ.dirs (σ.items k).imp.dotDotDirent } with hσ₁
      have howns₁ : Owns σ₀ mine (freeItem σ₁ k) (k :: fl) (il ++ lent) :=
        Owns.freeItem (howns.congr rfl rfl rfl)
      have hne : ∀ j ∈ il ++ lent, j ≠ k := by
        rintro j hj rfl
        exact (List.nodup_cons.mp (List.nodup_append'.mp howns.nodup).1).1 hj
      have hitems : ∀ j ∈ il ++ lent, (freeItem σ₁ k).items j = σ.items j :=
        fun j hj => Function.update_of_ne (hne j hj) _ _
      have hends₁ : Ends (freeItem σ₁ k).next (σ.next k) il := by
        refine hends.congr fun j hj => ?_
        unfold State.next
        rw [hitems j (List.mem_append_left _ hj)]
      have hdirs₁ : ∀ j ∈ il, ∀ d, ((freeItem σ₁ k).items j).imp.dotDotDirent = some d →
          d < (freeItem σ₁ k).dirs.length := by
        intro j hj d hd
        rw [hitems j (List.mem_append_left _ hj)] at hd
        refine (hdirs j (List.mem_cons_of_mem _ hj) d hd).trans_eq ?_
        exact (length_patchDotDot ..).symm
      obtain ⟨σ', fl', hfill, howns', hdirs', hfs, himp, hlent⟩ :=
        ih ((σ.items k).dirent :: es) howns₁ hends₁ hdirs₁
      have hmap : ∀ {β : Type} (f : Item → β), il.map (fun j => f ((freeItem σ₁ k).items j)) =
          il.map fun j => f (σ.items j) :=
        fun f => List.map_congr_left fun j hj => by rw [hitems j (List.mem_append_left _ hj)]
      refine ⟨σ', fl', ?_, howns', ?_, hfs, himp, ?_⟩
      · rw [List.length_cons, fillEntries_cons (hdirs k List.mem_cons_self), hfill,
          hmap Item.dirent]
        simp
      · rw [hdirs', hmap fun item => item.imp.dotDotDirent]
        rfl
      · intro j hj
        rw [hlent j hj, hitems j (List.mem_append_right _ hj)]

/-! ## The `..` entries -/

theorem modify_length_append {α : Type*} (f : α → α) (l : List α) (a : α) (l' : List α) :
    (l ++ a :: l').modify l.length f = l ++ f a :: l' := by
  induction l with
  | nil => rfl
  | cons b l ih => rw [List.cons_append, List.length_cons, List.modify_succ_cons, ih,
      List.cons_append]

theorem entries_patchDotDot (my : ℕ) (dirs : List Dir) (d : ℕ) :
    (patchDotDot my dirs (some d)).map Dir.entries =
      (dirs.map Dir.entries).modify d fun es => es.modify 0 (fatDirentSetFirstCluster · my) := by
  change (dirs.modify d _).map Dir.entries = _
  induction dirs generalizing d with
  | nil => cases d <;> rfl
  | cons dir dirs ih =>
      cases d with
      | zero => rfl
      | succ d => simp only [List.modify_succ_cons, List.map_cons, ih]

section Tables

variable {row : Child → FatDirent} {clusterSize : ℕ}

/-- The parent of a directory is filled in afterwards. -/
theorem patch_ownEntries (own my first : ℕ) (es : List FatDirent) :
    (ownEntries own first ++ es).modify 0 (fatDirentSetFirstCluster · my) =
      ownEntries my first ++ es := rfl

/-- Filling in the first cluster of a directory in the tables of its children. -/
theorem patch_tables (tree : Tree) : ∀ {path : List UInt8} {next n own : ℕ} (my : ℕ)
    {old : List (List FatDirent)} {dirs : List Dir}, old.length = n →
      dirs.map Dir.entries = old ++ (tree.plan row clusterSize path next n).tables own →
      (((tree.plan row clusterSize path next n).children.map Child.table).foldr
        (fun d dirs => patchDotDot my dirs d) dirs).map Dir.entries =
      old ++ (tree.plan row clusterSize path next n).tables my := by
  induction tree with
  | done => exact fun {path next n own} my {old dirs} hn h => h
  | entry name type below rest ihbelow ihrest =>
      intro path next n own my old dirs hn h
      rcases plan_cases path name below rest type with ⟨st, rfl, hfate⟩ | ⟨rfl, hfate⟩ | hplan
      · rw [plan_reg hfate] at h ⊢
        exact ihrest my hn h
      · rw [plan_dir hfate] at h ⊢
        have hdirs : ∀ first, (below.plan row clusterSize (chPath path name) next n).dirs = n +
          ((below.plan row clusterSize (chPath path name) next n).tables first).length :=
            plan_dirs below (chPath path name) next n
        generalize below.plan row clusterSize (chPath path name) next n = sub at h hdirs ⊢
        simp only at h ⊢
        generalize firstOf (tableSize sub.children.length) sub.next = first at h ⊢
        have hlen : (old ++ sub.tables first).length = sub.dirs := by
          rw [hdirs first, List.length_append, hn]
        -- the tables of the later children come behind the one of this child
        have hrest := @ihrest path _ (sub.dirs + 1) own my (old ++ sub.tables first ++
            [ownEntries own first ++ sub.children.map row]) dirs
          (by rw [List.length_append, hlen, List.length_singleton])
          (by simpa only [List.append_assoc, List.cons_append, List.nil_append] using h)
        rw [List.map_cons, List.foldr_cons, entries_patchDotDot, hrest, ← hlen,
          List.append_assoc _ [_], List.singleton_append, modify_length_append, patch_ownEntries,
          List.append_assoc]
      · rw [hplan] at h ⊢
        exact ihrest my hn h

end Tables

/-! ## Filling in `*out` -/

/-- The items that are lent to a run through its `out`. -/
def Out.lent : Out → List ℕ
  | .item k => [k]
  | .tree => []

/-- `out` points to an item that is in use. -/
def Out.Valid (out : Out) (σ : State) (mine : List ℕ) : Prop :=
  ∀ k ∈ out.lent, k < σ.itemCount ∧ k ∉ mine

section Out

variable {σ₀ σ : State} {mine fl held : List ℕ} {out : Out}

theorem Owns.lend_out (h : Owns σ₀ mine σ fl held) (hout : out.Valid σ₀ mine) :
    Owns σ₀ (out.lent ++ mine) σ fl (held ++ out.lent) := by
  cases out with
  | tree => simpa [Out.lent] using h
  | item k =>
      obtain ⟨hlt, hmine⟩ := hout k List.mem_cons_self
      exact h.lend hlt hmine

theorem Owns.setImported (h : Owns σ₀ mine σ fl held) (hout : out.lent ⊆ held) (imp : Imported) :
    Owns σ₀ mine (σ.setImported out imp) fl held := by
  cases out with
  | tree => exact h.congr rfl rfl rfl
  | item k => exact h.setItem (hout List.mem_cons_self) _

/-- Only `*out` is assigned. -/
theorem items_setImported {k : ℕ} (hk : k ∉ out.lent) (imp : Imported) :
    (σ.setImported out imp).items k = σ.items k := by
  cases out with
  | tree => rfl
  | item j => exact Function.update_of_ne (List.ne_of_not_mem_cons hk) _ _

/-- An item that is lent keeps everything but its `imp`. -/
theorem item_setImported {k : ℕ} (hk : k ∈ out.lent) (imp : Imported) :
    (σ.setImported out imp).items k = { σ.items k with imp := imp } := by
  cases out with
  | tree => exact absurd hk List.not_mem_nil
  | item j =>
      obtain rfl := List.mem_singleton.mp hk
      exact Function.update_self ..

@[simp] theorem imported_setImported (imp : Imported) :
    (σ.setImported out imp).imported out = imp := by
  cases out with
  | tree => rfl
  | item k =>
      have hk : k ∈ (Out.item k).lent := List.mem_cons_self
      exact congrArg Item.imp (item_setImported hk imp)

@[simp] theorem dirs_setImported (imp : Imported) : (σ.setImported out imp).dirs = σ.dirs := by
  cases out <;> rfl

variable {fs' : Fs} {first : ℕ} {dir : Dir}

theorem Owns.tableOpened (h : Owns σ₀ mine σ fl held) (hout : out.lent ⊆ held) :
    Owns σ₀ mine (tableOpened σ fs' out first) fl held := by
  have hfs : Owns σ₀ mine ({ σ with fs := fs' } : State) fl held := h.congr rfl rfl rfl
  exact hfs.setImported hout _

theorem Owns.tableClosed (h : Owns σ₀ mine σ fl held) (hout : out.lent ⊆ held) :
    Owns σ₀ mine (tableClosed σ dir out) fl held := by
  have hdirs : Owns σ₀ mine ({ σ with dirs := σ.dirs ++ [dir] } : State) fl held :=
    h.congr rfl rfl rfl
  exact hdirs.setImported hout _

theorem dirs_tableOpened : (Fat.tableOpened σ fs' out first).dirs = σ.dirs := by
  unfold Fat.tableOpened
  rw [dirs_setImported]

theorem dirs_tableClosed : (Fat.tableClosed σ dir out).dirs = σ.dirs ++ [dir] := by
  unfold Fat.tableClosed
  rw [dirs_setImported]

theorem items_tableOpened {k : ℕ} (hk : k ∉ out.lent) :
    (Fat.tableOpened σ fs' out first).items k = σ.items k := by
  unfold Fat.tableOpened
  rw [items_setImported hk]

/-- The name of an item is not part of `*out`. -/
theorem name_tableOpened (k : ℕ) :
    ((Fat.tableOpened σ fs' out first).items k).name = (σ.items k).name := by
  by_cases hk : k ∈ out.lent
  · unfold Fat.tableOpened
    rw [item_setImported hk]
  · rw [items_tableOpened hk]

theorem name_tableClosed (k : ℕ) :
    ((Fat.tableClosed σ dir out).items k).name = (σ.items k).name := by
  unfold Fat.tableClosed
  by_cases hk : k ∈ out.lent
  · rw [item_setImported hk]
  · rw [items_setImported hk]

end Out

/-! ## The loop over the names -/

/-- The loop has an item for each of the `children`, the last one first. -/
structure Filled (σ₀ : State) (mine : List ℕ) (l : Loop) (fl il : List ℕ)
    (children : List Child) : Prop where
  owns : Owns σ₀ mine l.state fl il
  chain : Ends l.state.next l.items il
  contents : il.map (fun k => (l.state.items k).content) = (children.map Child.content).reverse
  count : l.count = children.length

namespace Filled

variable {σ₀ σ : State} {mine fl il : List ℕ} {l : Loop} {children : List Child}

theorem length (h : Filled σ₀ mine l fl il children) : il.length = l.count := by
  have := congrArg List.length h.contents
  rw [List.length_map, List.length_reverse, List.length_map] at this
  rw [this, h.count]

theorem start (h : Owns σ fl σ fl []) : Filled σ fl (.start σ) fl [] [] :=
  ⟨h, rfl, rfl, rfl⟩

/-- An item is taken for the next name. -/
theorem take (h : Filled σ₀ mine l fl il children) (junk : Junk) (item : Item) :
    ∃ fl', Owns σ₀ mine ((allocItem junk l.state).2.setItem (l.taken junk) item) fl'
        (l.taken junk :: il) ∧
      ∀ k ∈ il, ((allocItem junk l.state).2.setItem (l.taken junk) item).items k =
        l.state.items k := by
  obtain ⟨fl', howns, hitems⟩ := h.owns.allocItem junk
  refine ⟨fl', howns.setItem List.mem_cons_self item, fun k hk => ?_⟩
  have hne : k ≠ l.taken junk := by
    rintro rfl
    exact (List.nodup_cons.mp (List.nodup_append'.mp howns.nodup).1).1 hk
  exact (Function.update_of_ne hne _ _).trans (hitems k hk)

/-- Only the items in the loop matter. -/
theorem chain_congr (h : Filled σ₀ mine l fl il children)
    (hitems : ∀ k ∈ il, σ.items k = l.state.items k) :
    Ends σ.next l.items il ∧
      il.map (fun k => (σ.items k).content) = (children.map Child.content).reverse := by
  refine ⟨h.chain.congr fun k hk => ?_, ?_⟩
  · unfold State.next
    rw [hitems k hk]
  · rw [← h.contents]
    exact List.map_congr_left fun k hk => by rw [hitems k hk]

/-- The name is rejected and its item given back. -/
theorem reject (h : Filled σ₀ mine l fl il children) (junk : Junk) (item : Item) :
    ∃ fl', Filled σ₀ mine (rejectItem junk l item) fl' il children := by
  obtain ⟨fl', howns, hitems⟩ := h.take junk item
  have hfreed := howns.freeItem
  have hsame : ∀ k ∈ il, (rejectItem junk l item).state.items k = l.state.items k := by
    intro k hk
    have hne : k ≠ l.taken junk := by
      rintro rfl
      exact (List.nodup_cons.mp (List.nodup_append'.mp howns.nodup).1).1 hk
    exact (Function.update_of_ne hne _ _).trans (hitems k hk)
  obtain ⟨hchain, hcontents⟩ := h.chain_congr hsame
  exact ⟨_, hfreed, hchain, hcontents, h.count⟩

/-- The item of an imported child is put in front of the others. -/
theorem add {fl' : List ℕ} {k : ℕ} {isDir : Bool} {c : Child}
    (h : Filled σ₀ mine l fl il children) (howns : Owns σ₀ mine σ fl' (k :: il))
    (hitems : ∀ j ∈ il, σ.items j = l.state.items j)
    (hcontent : ((σ.items k).name, isDir, (σ.items k).imp) = c.content) :
    Filled σ₀ mine (addItem l σ k isDir) fl' (k :: il) (children ++ [c]) := by
  have hsame : ∀ j ∈ il, (addItem l σ k isDir).state.items j = l.state.items j := by
    intro j hj
    have hne : j ≠ k := by
      rintro rfl
      exact (List.nodup_cons.mp (List.nodup_append'.mp howns.nodup).1).1 hj
    exact (Function.update_of_ne hne _ _).trans (hitems j hj)
  obtain ⟨hchain, hcontents⟩ := h.chain_congr hsame
  have hself : (addItem l σ k isDir).state.items k =
      { σ.items k with isDir := isDir, next := l.items } := Function.update_self ..
  refine ⟨howns.setItem List.mem_cons_self _, ⟨rfl, ?_⟩, ?_, ?_⟩
  · have hlink : (addItem l σ k isDir).state.next k = l.items := by
      unfold State.next
      rw [hself]
    rw [hlink]
    exact hchain
  · rw [List.map_cons, hcontents, hself, List.map_append, List.reverse_append, List.map_singleton,
      List.reverse_singleton, List.singleton_append, ← hcontent]
    rfl
  · rw [List.length_append, List.length_singleton, ← h.count]
    rfl

/-- The entries that are made from the items. -/
theorem dirents (h : Filled σ₀ mine l fl il children)
    (hitems : ∀ k ∈ il, σ.items k = l.state.items k) :
    (il.map fun k => (σ.items k).dirent).reverse = children.map Child.dirent ∧
      (il.map fun k => (σ.items k).imp.dotDotDirent) = (children.map Child.table).reverse := by
  have hcontents := (h.chain_congr hitems).2
  constructor
  · have hmap := congrArg (fun c => (c.map direntOf).reverse) hcontents
    simp only [← List.map_reverse, List.map_map, List.reverse_reverse] at hmap ⊢
    exact hmap
  · have hmap := congrArg (List.map fun c => c.2.2.dotDotDirent) hcontents
    simp only [← List.map_reverse, List.map_map] at hmap ⊢
    exact hmap

end Filled

@[simp] theorem dirs_allocItem (junk : Junk) (σ : State) :
    (allocItem junk σ).2.dirs = σ.dirs := by
  unfold allocItem
  split <;> rfl

section Forth

variable {clusterSize dataSize limit : ℕ} (hsize : ValidSize clusterSize dataSize)

include hsize

/-- The second half of `import_dir`, for a directory of which all names have been read. -/
theorem finishDir_forth {σ₀ : State} {mine fl il : List ℕ} {l : Loop} {out : Out} {tree : Tree}
    {path : List UInt8} {next : ℕ} {old : List (List FatDirent)}
    (hfilled : Filled σ₀ mine l fl il
      (tree.plan Child.dirent clusterSize path next old.length).children)
    (hout : out.Valid σ₀ mine) (hroom : Room clusterSize dataSize limit l.state.fs)
    (hlimit : l.state.fs.nextCluster + tableSize l.count ⌈/⌉ clusterSize ≤ limit)
    (hdirs : l.state.dirs.map Dir.entries =
      old ++ (tree.plan Child.dirent clusterSize path next old.length).tables placeholder) :
    ∃ σ' fl', finishDir l path false out = .ok (σ', 0) ∧
      Owns σ₀ (out.lent ++ mine) σ' fl' out.lent ∧ Room clusterSize dataSize limit σ'.fs ∧
      σ'.fs.nextCluster = l.state.fs.nextCluster + tableSize l.count ⌈/⌉ clusterSize ∧
      σ'.dirs.map Dir.entries = old ++ (tree.plan Child.dirent clusterSize path next
        old.length).tables (firstOf (tableSize l.count) l.state.fs.nextCluster) ++
        [ownEntries placeholder (firstOf (tableSize l.count) l.state.fs.nextCluster) ++
          (tree.plan Child.dirent clusterSize path next old.length).children.map Child.dirent] ∧
      σ'.imported out = ⟨firstOf (tableSize l.count) l.state.fs.nextCluster, 0,
        some (tree.plan Child.dirent clusterSize path next old.length).dirs⟩ ∧
      ∀ k ∈ out.lent, (σ'.items k).name = (σ₀.items k).name := by
  obtain ⟨fs', extent, halloc, hroom', hnext⟩ := hroom.alloc hsize hlimit .dir
  generalize firstOf (tableSize l.count) l.state.fs.nextCluster = first at halloc ⊢
  set plan := tree.plan Child.dirent clusterSize path next old.length
  have hplan : ∀ own, plan.dirs = old.length + (plan.tables own).length :=
    plan_dirs tree path next old.length
  have htable : ∀ c ∈ plan.children, ∀ d, c.table = some d → d < plan.dirs := table_lt_dirs tree
  set τ : State := tableOpened l.state fs' out first
  have hlent := hfilled.owns.lend_out hout
  have howns : Owns σ₀ (out.lent ++ mine) τ fl (il ++ out.lent) :=
    hlent.tableOpened (List.subset_append_right _ _)
  have hitems : ∀ k ∈ il, τ.items k = l.state.items k := by
    intro k hk
    refine items_tableOpened fun hin => ?_
    exact List.disjoint_of_nodup_append (List.nodup_append'.mp hlent.nodup).1 hk hin
  have hτdirs : τ.dirs = l.state.dirs := dirs_tableOpened
  have hlen : plan.dirs = τ.dirs.length := by
    have hlength := congrArg List.length hdirs
    rw [List.length_map, List.length_append, ← hplan placeholder] at hlength
    rw [← hlength, hτdirs]
  obtain ⟨hdirents, htables⟩ := hfilled.dirents hitems
  have hbound : ∀ k ∈ il, ∀ d, (τ.items k).imp.dotDotDirent = some d → d < τ.dirs.length := by
    intro k hk d hd
    have hmem : some d ∈ (plan.children.map Child.table).reverse := by
      rw [← htables, ← hd]
      exact List.mem_map_of_mem hk
    obtain ⟨c, hc, hcd⟩ := List.mem_map.mp (List.mem_reverse.mp hmem)
    exact (htable c hc d hcd).trans_eq hlen
  obtain ⟨σ₁, fl₁, hfill, howns₁, hdirs₁, hfs₁, himp₁, hlent₁⟩ := fillEntries_forth [] howns
    (hfilled.chain_congr hitems).1 hbound
  rw [hfilled.length, hdirents, List.append_nil] at hfill
  rw [htables, List.foldl_reverse, hτdirs] at hdirs₁
  have hpatched : σ₁.dirs.map Dir.entries = old ++ plan.tables first := by
    rw [hdirs₁]
    exact patch_tables tree first rfl hdirs
  have hlen₁ : σ₁.dirs.length = plan.dirs := by
    have hlength := congrArg List.length hpatched
    rwa [List.length_map, List.length_append, ← hplan first] at hlength
  have himported : (σ₁.imported out).firstCluster = first := by
    have hsame : σ₁.imported out = τ.imported out := by
      cases out with
      | tree => exact himp₁
      | item k => exact congrArg Item.imp (hlent₁ k List.mem_cons_self)
    rw [hsame]
    exact congrArg Imported.firstCluster (imported_setImported _)
  have hrun : finishDir l path false out = .ok (tableClosed σ₁ ⟨path, extent, tableSize l.count,
      ownEntries placeholder first ++ plan.children.map Child.dirent⟩ out, 0) := by
    rw [finishDir_eq path out halloc, hfill]
    rfl
  refine ⟨_, fl₁, hrun, howns₁.tableClosed (List.Subset.refl _), ?_, ?_, ?_, ?_, ?_⟩
  · rw [fs_tableClosed, hfs₁, fs_tableOpened]
    exact hroom'
  · rw [fs_tableClosed, hfs₁, fs_tableOpened, hnext]
  · rw [dirs_tableClosed, List.map_append, hpatched]
    rfl
  · rw [tableClosed, imported_setImported, ← hlen₁, ← himported]
    cases out <;> rfl
  · intro k hk
    rw [name_tableClosed, hlent₁ k hk, name_tableOpened,
      hfilled.owns.frame k (hout k hk).1 (hout k hk).2]

theorem importFile_forth {σ₀ σ : State} {mine fl held : List ℕ} (path : List UInt8) {k : ℕ}
    {st : Stat} (howns : Owns σ₀ mine σ fl (k :: held))
    (hroom : Room clusterSize dataSize limit σ.fs)
    (hlimit : σ.fs.nextCluster + u32 st.size ⌈/⌉ clusterSize ≤ limit) :
    ∃ σ', importFile σ path (some st) (.item k) = .ok (σ', 0) ∧
      Owns σ₀ mine σ' fl (k :: held) ∧ (∀ j ∈ held, σ'.items j = σ.items j) ∧
      Room clusterSize dataSize limit σ'.fs ∧
      σ'.fs.nextCluster = σ.fs.nextCluster + u32 st.size ⌈/⌉ clusterSize ∧ σ'.dirs = σ.dirs ∧
      (σ'.items k).name = (σ.items k).name ∧ (σ'.items k).imp =
        ⟨firstOf (u32 st.size) σ.fs.nextCluster, u32 st.size, none⟩ := by
  obtain ⟨fs', extent, halloc, hroom', hnext⟩ := hroom.alloc hsize hlimit .file
  obtain ⟨files, hfile⟩ := importFile_eq path (.item k) halloc
  have hk : k ∈ (Out.item k).lent := List.mem_cons_self
  have hsub : (Out.item k).lent ⊆ k :: held := List.cons_subset_cons k (List.nil_subset _)
  have hbase : Owns σ₀ mine ({ σ with fs := fs', files := files } : State) fl (k :: held) :=
    howns.congr rfl rfl rfl
  refine ⟨_, hfile, hbase.setImported hsub _, ?_, ?_, ?_,
    dirs_setImported _, ?_, ?_⟩
  · intro j hj
    refine items_setImported (fun hin => ?_) _
    rw [List.mem_singleton.mp hin] at hj
    exact (List.nodup_cons.mp (List.nodup_append'.mp howns.nodup).1).1 hj
  · rw [fs_setImported]
    exact hroom'
  · rw [fs_setImported, hnext]
  · rw [item_setImported hk]
  · rw [item_setImported hk]

/-- The state after the import of a directory, from `σ` with the free items `fl`. -/
structure Imports (clusterSize dataSize limit : ℕ) (plan : Plan) (out : Out) (σ : State)
    (fl : List ℕ) (σ' : State) (fl' : List ℕ) : Prop where
  owns : Owns σ (out.lent ++ fl) σ' fl' out.lent
  room : Room clusterSize dataSize limit σ'.fs
  next : σ'.fs.nextCluster = plan.next + tableSize plan.children.length ⌈/⌉ clusterSize
  dirs : σ'.dirs.map Dir.entries = σ.dirs.map Dir.entries ++
    (plan.tables (firstOf (tableSize plan.children.length) plan.next) ++
      [ownEntries placeholder (firstOf (tableSize plan.children.length) plan.next) ++
        plan.children.map Child.dirent])
  imported : σ'.imported out =
    ⟨firstOf (tableSize plan.children.length) plan.next, 0, some plan.dirs⟩
  names : ∀ k ∈ out.lent, (σ'.items k).name = (σ.items k).name

/-- From the names of a directory to its table. -/
theorem imports_of_read {σ : State} {sub : Loop} {fl fl' il : List ℕ} {out : Out} {tree : Tree}
    {path : List UInt8} (hout : out.Valid σ fl)
    (hlimit : (tree.plan Child.dirent clusterSize path σ.fs.nextCluster σ.dirs.length).next +
      tableSize (tree.plan Child.dirent clusterSize path σ.fs.nextCluster
        σ.dirs.length).children.length ⌈/⌉ clusterSize ≤ limit)
    (hfilled : Filled σ fl sub fl' il
      (tree.plan Child.dirent clusterSize path σ.fs.nextCluster σ.dirs.length).children)
    (hroom : Room clusterSize dataSize limit sub.state.fs)
    (hnext : sub.state.fs.nextCluster =
      (tree.plan Child.dirent clusterSize path σ.fs.nextCluster σ.dirs.length).next)
    (hdirs : sub.state.dirs.map Dir.entries = σ.dirs.map Dir.entries ++
      (tree.plan Child.dirent clusterSize path σ.fs.nextCluster σ.dirs.length).tables placeholder) :
    ∃ σ' fl'', finishDir sub path false out = .ok (σ', 0) ∧
      Imports clusterSize dataSize limit
        (tree.plan Child.dirent clusterSize path σ.fs.nextCluster σ.dirs.length) out σ fl σ' fl'' := by
  have hlen : σ.dirs.length = (σ.dirs.map Dir.entries).length := (List.length_map _).symm
  rw [← hnext, ← hfilled.count] at hlimit
  rw [hlen] at hfilled hdirs
  obtain ⟨σ', fl'', hrun, howns, hroom', hnext', hdirs', himported, hnames⟩ :=
    finishDir_forth hsize hfilled hout hroom hlimit hdirs
  rw [← hlen] at hfilled hdirs' himported
  rw [hfilled.count, hnext] at hnext' hdirs' himported
  exact ⟨σ', fl'', hrun, howns, hroom', hnext', hdirs'.trans (List.append_assoc ..),
    himported, hnames⟩

/-- A run over the names of a directory, from its beginning to its end. -/
theorem readEntries_forth (junk : Junk) (tree : Tree) : ∀ {path : List UInt8} {σ₀ : State}
    {mine fl il : List ℕ} {l : Loop} {children : List Child},
    Filled σ₀ mine l fl il children → Room clusterSize dataSize limit l.state.fs →
    (tree.plan Child.dirent clusterSize path l.state.fs.nextCluster l.state.dirs.length).next ≤ limit →
    tree.All Succeeds path → tree.All FitsItem path → tree.Orderly path l.item.isSome →
    ∃ l' fl' il', readEntries junk tree path l = .ok l' ∧
      Filled σ₀ mine l' fl' il' (children ++ (tree.plan Child.dirent clusterSize path
        l.state.fs.nextCluster l.state.dirs.length).children) ∧
      Room clusterSize dataSize limit l'.state.fs ∧
      l'.state.fs.nextCluster = (tree.plan Child.dirent clusterSize path l.state.fs.nextCluster
        l.state.dirs.length).next ∧
      l'.state.dirs.map Dir.entries = l.state.dirs.map Dir.entries ++
        (tree.plan Child.dirent clusterSize path l.state.fs.nextCluster
          l.state.dirs.length).tables placeholder := by
  induction tree with
  | done =>
      intro path σ₀ mine fl il l children hfilled hroom _ _ _ _
      refine ⟨l, fl, il, rfl, ?_, hroom, rfl, (List.append_nil _).symm⟩
      rwa [Tree.plan, List.append_nil]
  | entry name type below rest ihbelow ihrest =>
      intro path σ₀ mine fl il l children hfilled hroom hlimit hsucceeds hfits horderly
      obtain ⟨hsucceed, hsucceeds_below, hsucceeds_rest⟩ := hsucceeds
      obtain ⟨hfit, hfits_below, hfits_rest⟩ := hfits
      cases hfate : fate path name type with
      | skipped =>
          have hne : fate path name type ≠ .imported := by
            rw [hfate]
            decide
          simp only [Tree.Orderly, hfate] at horderly
          obtain ⟨hstale, horderly⟩ := horderly
          have hskip : skipItem l = l := by
            rw [skipItem, Option.isSome_eq_false_iff.mp hstale |> Option.isNone_iff_eq_none.mp]
          rw [plan_not_imported hne] at hlimit ⊢
          rw [readEntries_skipped junk l hfate, hskip]
          exact ihrest hfilled hroom hlimit hsucceeds_rest hfits_rest horderly
      | rejected =>
          have hne : fate path name type ≠ .imported := by
            rw [hfate]
            decide
          simp only [Tree.Orderly, hfate] at horderly
          rw [plan_not_imported hne] at hlimit ⊢
          rcases readEntries_rejected junk l hfate with ⟨-, item, hreject⟩ | ⟨hno, -⟩
          · obtain ⟨fl', hfilled'⟩ := hfilled.reject junk item
            have hfs : (rejectItem junk l item).state.fs = l.state.fs := fs_allocItem junk l.state
            have hdirs : (rejectItem junk l item).state.dirs = l.state.dirs :=
              dirs_allocItem junk l.state
            rw [hreject, ← hfs, ← hdirs]
            rw [← hfs] at hroom
            rw [← hfs, ← hdirs] at hlimit
            exact ihrest hfilled' hroom hlimit hsucceeds_rest hfits_rest horderly
          · exact absurd hfit hno
      | imported =>
          simp only [Tree.Orderly, hfate] at horderly
          obtain ⟨horderly_below, horderly⟩ := horderly
          obtain ⟨hreg, hdir⟩ := hsucceed hfate
          rcases beginEntry_imported junk l hfate with ⟨-, item, hname, hbegin⟩ | ⟨hno, -⟩
          · obtain ⟨fl₁, howns, hitems⟩ := hfilled.take junk item
            have hself : ((allocItem junk l.state).2.setItem (l.taken junk) item).items
              (l.taken junk) = item := Function.update_self ..
            have hfs : ((allocItem junk l.state).2.setItem (l.taken junk) item).fs = l.state.fs :=
              fs_allocItem junk l.state
            have hdirs : ((allocItem junk l.state).2.setItem (l.taken junk) item).dirs =
              l.state.dirs := dirs_allocItem junk l.state
            rw [readEntries, hbegin, bind_ok]
            generalize (allocItem junk l.state).2.setItem (l.taken junk) item = σ at *
            generalize l.taken junk = k at *
            cases type with
            | other => exact absurd rfl (fate_eq_imported.mp hfate).2.2
            | reg stat =>
                cases stat with
                | none => exact absurd rfl hreg
                | some st =>
                    rw [plan_reg hfate] at hlimit ⊢
                    obtain ⟨σ₁, hfile, howns₁, hitems₁, hroom₁, hnext₁, hdirs₁, hname₁, himp₁⟩ :=
                      importFile_forth hsize (chPath path name) howns (hfs ▸ hroom)
                        (hfs ▸ le_plan_next.trans hlimit)
                    rw [hfs] at hnext₁ himp₁
                    rw [hdirs] at hdirs₁
                    have hcontent : ((σ₁.items k).name, false, (σ₁.items k).imp) = Child.content
                        ⟨name, false, firstOf (u32 st.size) l.state.fs.nextCluster, st.size, none⟩ := by
                      rw [hname₁, himp₁, hself, hname]
                      rfl
                    have hfilled₁ := hfilled.add howns₁
                      (fun j hj => (hitems₁ j hj).trans (hitems j hj)) hcontent
                    have hnext : (addItem l σ₁ k false).state.fs.nextCluster =
                      l.state.fs.nextCluster + u32 st.size ⌈/⌉ clusterSize := hnext₁
                    have hdirs : (addItem l σ₁ k false).state.dirs = l.state.dirs := hdirs₁
                    simp only [hfile, bind_ok]
                    rw [← hnext, ← hdirs] at hlimit ⊢
                    obtain ⟨l', fl', il', hrun, hfilled', hrest⟩ := ihrest hfilled₁ hroom₁ hlimit
                      hsucceeds_rest hfits_rest horderly
                    rw [List.append_assoc] at hfilled'
                    exact ⟨l', fl', il', hrun, hfilled', hrest⟩
            | dir opens =>
                cases opens with
                | false => exact absurd rfl hdir
                | true =>
                    rw [plan_dir hfate] at hlimit ⊢
                    have hout : (Out.item k).Valid σ fl₁ := by
                      intro j hj
                      obtain rfl := List.mem_singleton.mp hj
                      exact ⟨howns.bound j List.mem_cons_self,
                        howns.not_mem_free List.mem_cons_self⟩
                    have hlimit_sub := le_plan_next.trans hlimit
                    have hread := ihbelow (Filled.start howns.restart)
                      (hfs ▸ hroom) (by
                        change (below.plan _ _ _ σ.fs.nextCluster σ.dirs.length).next ≤ limit
                        rw [hfs, hdirs]
                        exact (Nat.le_add_right _ _).trans hlimit_sub)
                      (hsucceeds_below ⟨hfate, rfl⟩) (hfits_below ⟨hfate, rfl⟩) (horderly_below rfl)
                    obtain ⟨sub, fl₂, il₂, hsub, hfilled_sub, hroom_sub, hnext_sub, hdirs_sub⟩ :=
                      hread
                    obtain ⟨σ₁, fl₃, hfinish, himports⟩ := imports_of_read hsize hout
                      (by rw [hfs, hdirs]; exact hlimit_sub) hfilled_sub hroom_sub hnext_sub hdirs_sub
                    rw [hfs, hdirs] at himports
                    have hnumber : ∀ own, (below.plan Child.dirent clusterSize (chPath path name)
                        l.state.fs.nextCluster l.state.dirs.length).dirs = l.state.dirs.length +
                        ((below.plan Child.dirent clusterSize (chPath path name)
                          l.state.fs.nextCluster l.state.dirs.length).tables own).length :=
                      plan_dirs below (chPath path name) l.state.fs.nextCluster l.state.dirs.length
                    generalize below.plan Child.dirent clusterSize (chPath path name)
                      l.state.fs.nextCluster l.state.dirs.length = plan at hlimit himports hnumber ⊢
                    simp only at hlimit ⊢
                    have hlent : Owns σ₀ mine σ fl₁ ([k] ++ il) := howns
                    obtain ⟨howns₁, hitems₁⟩ := hlent.trans himports.owns
                    generalize hfirst :
                      firstOf (tableSize plan.children.length) plan.next = first at *
                    have hcontent : ((σ₁.items k).name, true, (σ₁.items k).imp) =
                        Child.content ⟨name, true, first, 0, some plan.dirs⟩ := by
                      have himp : (σ₁.items k).imp = _ := himports.imported
                      rw [himports.names k List.mem_cons_self, himp, hself, hname, hfirst]
                      rfl
                    have hfilled₁ := hfilled.add howns₁
                      (fun j hj => (hitems₁ j hj).trans (hitems j hj)) hcontent
                    have hnext : (addItem l σ₁ k true).state.fs.nextCluster =
                      plan.next + tableSize plan.children.length ⌈/⌉ clusterSize := himports.next
                    have hentries : (addItem l σ₁ k true).state.dirs.map Dir.entries = _ :=
                      himports.dirs
                    have hlen : (addItem l σ₁ k true).state.dirs.length = plan.dirs + 1 := by
                      have := congrArg List.length hentries
                      rw [List.length_map, hdirs] at this
                      rw [this, hfirst, hnumber first]
                      simp only [List.length_append, List.length_map, List.length_singleton]
                      omega
                    simp only [hsub, hfinish, bind_ok]
                    rw [← hnext, ← hlen] at hlimit ⊢
                    obtain ⟨l', fl', il', hrun, hfilled', hroom', hnext', hdirs'⟩ := ihrest hfilled₁
                      himports.room hlimit hsucceeds_rest hfits_rest horderly
                    rw [List.append_assoc] at hfilled'
                    refine ⟨l', fl', il', hrun, hfilled', hroom', hnext', ?_⟩
                    rw [hdirs', hentries, hfirst, hdirs]
                    simp only [List.append_assoc, List.singleton_append]
          · exact absurd hfit hno

end Forth

end SystemExtras.Fat
