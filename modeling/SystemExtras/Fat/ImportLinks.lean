import SystemExtras.Fat.ImportListing

/-!
# The links between the tables

The entry `.` of a directory should name the first cluster of the directory, the entry
`..` that of its parent, and the other entries those of the children.  The entry `..` is
made with a placeholder, which the parent replaces when it has clusters of its own.

The root has no parent.  `import_dir` has a flag for it, under which it makes neither of
the two entries, but `import_tree` does not set the flag.  So the root gets the two
entries, and nobody replaces the placeholder (`not_linksConsistent`).  All other links
are right when the tables are (`importTree_linked`).
-/

namespace SystemExtras.Fat

/-! ## Tables that link as planned -/

/-- An entry names no cluster or the planned one. -/
def FatDirent.LinkedTo (de planned : FatDirent) : Prop :=
  de.firstCluster = 0 ∨ de.firstCluster = planned.firstCluster

/-- The two leading entries of a table and the ones of the children link it as planned. -/
structure LinkedTable (table planned : List FatDirent) : Prop where
  own : (table.take 2).map FatDirent.firstCluster = (planned.take 2).map FatDirent.firstCluster
  children : List.Forall₂ FatDirent.LinkedTo (table.drop 2) (planned.drop 2)

/-- The tables of the directories below the root, and the entries of the root for its children, are
linked as planned. -/
def TreeLinked (fs : Fs) (path : List UInt8) (tree : Tree) (σ' : State) : Prop :=
  let plan := tree.plan Child.dirent fs.clusterSize path fs.nextCluster 0
  ∃ tables own root, σ'.dirs.map Dir.entries = tables ++ [own ++ root] ∧
    List.Forall₂ LinkedTable tables (plan.tables σ'.fs.boot.rootdirStart) ∧
    List.Forall₂ FatDirent.LinkedTo root (plan.children.map Child.dirent)

/-- What `import_tree` should have done to the links when it ends in `σ'`. -/
structure LinksConsistent (fs : Fs) (path : List UInt8) (tree : Tree) (σ' : State) : Prop where
  linked : TreeLinked fs path tree σ'
  replaced : ∀ dir ∈ σ'.dirs, ∀ de ∈ dir.entries, de.firstCluster ≠ placeholder

/-! ## What is right -/

theorem FatDirent.LinkedTo.refl (de : FatDirent) : de.LinkedTo de := Or.inr rfl

theorem LinkedTable.refl (table : List FatDirent) : LinkedTable table table :=
  ⟨rfl, List.forall₂_same.mpr fun de _ => FatDirent.LinkedTo.refl de⟩

/-- Where the import lists what it should, it also links it, but for the root. -/
theorem importTree_linked {clusterSize dataSize : ℕ} (hsize : ValidSize clusterSize dataSize)
    (junk : Junk) {fs : Fs} {imp : Imported} {path : List UInt8} {tree : Tree}
    (hroom : Room clusterSize dataSize
      (tree.clusterEnd clusterSize path (.initial fs imp)) fs)
    (hsucceeds : tree.All Succeeds path) (hfits : tree.All FitsItem path)
    (horderly : tree.Orderly path false) :
    ∃ σ', importTree junk fs imp path true tree = .ok (σ', 0) ∧ TreeLinked fs path tree σ' := by
  have hfree : FreeList (.initial fs imp) [] := ⟨rfl, List.nodup_nil, by simp⟩
  have hout : Out.tree.Valid (.initial fs imp) [] := by simp [Out.Valid, Out.lent]
  obtain ⟨σ', fl', hrun, himports⟩ :=
    importDir_forth hsize junk hroom hsucceeds hfree hout hfits horderly
  refine ⟨_, by rw [importTree, hrun, bind_ok]; rfl, ?_⟩
  have hfirst : σ'.imp.firstCluster = _ := congrArg Imported.firstCluster himports.imported
  have hcluster : fs.clusterSize = clusterSize := hroom.geometry.clusterSize_eq
  unfold TreeLinked
  rw [hcluster]
  refine ⟨_, _, _, himports.dirs.trans (List.nil_append _), ?_, ?_⟩
  · rw [show (fsUpdateFreeClusters (fsSetRootdirStart σ'.fs σ'.imp.firstCluster)).boot.rootdirStart
      = _ from hfirst]
    exact List.forall₂_same.mpr fun table _ => LinkedTable.refl table
  · exact List.forall₂_same.mpr fun de _ => FatDirent.LinkedTo.refl de

/-! ## What is not -/

/-- The directory that `import_dir` was called for has the last table, with a placeholder in it. -/
theorem placeholder_of_finishDir {l : Loop} {path : List UInt8} {out : Out} {σ' : State}
    (h : finishDir l path false out = .ok (σ', 0)) :
    ∃ dir ∈ σ'.dirs, ∃ de ∈ dir.entries, de.firstCluster = placeholder := by
  obtain ⟨_, -, -, hret⟩ | ⟨_, extent, first, σ₁, es, -, -, rfl, -⟩ := finishDir_eq_ok h
  · cases hret
  · refine ⟨⟨path, extent, tableSize l.count, ownEntries placeholder first ++ es⟩, ?_, _,
      List.mem_cons_self, rfl⟩
    rw [dirs_tableClosed]
    exact List.mem_append_right _ List.mem_cons_self

theorem placeholder_of_importDir {junk : Junk} {σ σ' : State} {path : List UInt8} {out : Out}
    {opens : Bool} {tree : Tree} (h : importDir junk σ path false out opens tree = .ok (σ', 0)) :
    ∃ dir ∈ σ'.dirs, ∃ de ∈ dir.entries, de.firstCluster = placeholder := by
  cases opens with
  | false => simp [importDir] at h
  | true =>
      rw [importDir, if_pos rfl] at h
      obtain ⟨l, -, hfinish⟩ := bind_eq_ok.mp h
      exact placeholder_of_finishDir hfinish

/-- **No import has consistent links.**  When `import_tree` returns `0`, the entry `..` of the root
has the placeholder for its first cluster. -/
theorem not_linksConsistent {junk : Junk} {fs : Fs} {imp : Imported} {path : List UInt8}
    {opens : Bool} {tree : Tree} {σ' : State}
    (h : importTree junk fs imp path opens tree = .ok (σ', 0)) :
    ¬ LinksConsistent fs path tree σ' := by
  intro hlinks
  obtain ⟨⟨σ, ret⟩, hdir, hret⟩ := bind_eq_ok.mp h
  dsimp only at hret
  by_cases hzero : ret = 0
  · rw [if_neg (not_not.mpr hzero)] at hret
    subst hzero
    obtain ⟨dir, hmem, de, hde, hcluster⟩ := placeholder_of_importDir hdir
    have hdirs : σ'.dirs = σ.dirs := by
      injection hret with hret
      exact congrArg (fun r => r.1.dirs) hret.symm
    exact hlinks.replaced dir (hdirs ▸ hmem) de hde hcluster
  · rw [if_pos hzero] at hret
    injection hret with hret
    exact hzero (congrArg Prod.snd hret)

/-- Nor has the import of the tree above, of which the other links are right. -/
theorem not_linksConsistent_goodListing :
    ∃ σ', importTree zeroJunk smallVolume ⟨0, 0, none⟩ [46] true goodListing = .ok (σ', 0) ∧
      TreeLinked smallVolume [46] goodListing σ' ∧
      ¬ LinksConsistent smallVolume [46] goodListing σ' := by
  have hinit := inv_init smallVolume_valid
  have hroom : Room 512 10240 (goodListing.clusterEnd 512 [46] smallStart) smallVolume :=
    ⟨hinit.geometry, hinit.zero, by decide⟩
  obtain ⟨σ', hrun, hlinked⟩ := importTree_linked smallVolume_valid zeroJunk hroom
    (by decide) (by decide) (by decide)
  exact ⟨σ', hrun, hlinked, not_linksConsistent hrun⟩

/-- The volume of an empty directory has one table, where the `..` entry has the placeholder and the
`.` entry the first cluster of the volume. -/
theorem placeholder_emptyRoot :
    ∃ σ', importTree zeroJunk smallVolume ⟨0, 0, none⟩ [46] true .done = .ok (σ', 0) ∧
      σ'.dirs.map (fun dir => dir.entries.map FatDirent.firstCluster) = [[2 ^ 32 - 1, 2]] ∧
      ¬ LinksConsistent smallVolume [46] .done σ' := by
  obtain ⟨σ', hrun, hlinks⟩ :
      ∃ σ', importTree zeroJunk smallVolume ⟨0, 0, none⟩ [46] true .done = .ok (σ', 0) ∧
        σ'.dirs.map (fun dir => dir.entries.map FatDirent.firstCluster) = [[2 ^ 32 - 1, 2]] :=
    ⟨_, rfl, by decide⟩
  refine ⟨σ', hrun, hlinks, fun hconsistent => ?_⟩
  have hmem :
      [2 ^ 32 - 1, 2] ∈ σ'.dirs.map (fun dir => dir.entries.map FatDirent.firstCluster) := by
    rw [hlinks]
    exact List.mem_cons_self
  obtain ⟨dir, hdir, hentries⟩ := List.mem_map.mp hmem
  have hfirst : 2 ^ 32 - 1 ∈ dir.entries.map FatDirent.firstCluster := by
    rw [hentries]
    exact List.mem_cons_self
  obtain ⟨de, hde, hcluster⟩ := List.mem_map.mp hfirst
  exact hconsistent.replaced dir hdir de hde hcluster

end SystemExtras.Fat
