import Mathlib.Data.List.Nodup
import Mathlib.Data.Set.Basic

/-!
# Cells that are taken and filled

A program that lays out an image takes cells, from a set that only grows, and
fills some of those it has taken.  `Fills used used' new` says that between two
moments the used cells went from `used` to `used'`, and that `new` were filled:
each of them once, and none that was in use before.  Steps compose
(`Fills.trans`), and a program all of whose steps are such never fills a cell
twice (`Fills.nodup_append`).
-/

namespace SystemExtras

variable {α : Type*} {used used' used'' : Set α} {new new' : List α}

/-- The used cells grow from `used` to `used'`, and the cells of `new` among them are filled. -/
structure Fills (used used' : Set α) (new : List α) : Prop where
  subset : used ⊆ used'
  nodup : new.Nodup
  fresh : ∀ b ∈ new, b ∉ used
  mem : ∀ b ∈ new, b ∈ used'

namespace Fills

theorem refl (used : Set α) : Fills used used [] :=
  ⟨subset_rfl, List.nodup_nil, by simp, by simp⟩

/-- Cells are taken, and none of them is filled yet. -/
theorem of_subset (h : used ⊆ used') : Fills used used' [] := ⟨h, List.nodup_nil, by simp, by simp⟩

theorem trans (h : Fills used used' new) (h' : Fills used' used'' new') :
    Fills used used'' (new ++ new') where
  subset := h.subset.trans h'.subset
  nodup := by
    refine h.nodup.append h'.nodup ?_
    intro b hb hb'
    exact h'.fresh b hb' (h.mem b hb)
  fresh := by
    intro b hb
    rcases List.mem_append.mp hb with hb | hb
    · exact h.fresh b hb
    · exact fun hused => h'.fresh b hb (h.subset hused)
  mem := by
    intro b hb
    rcases List.mem_append.mp hb with hb | hb
    · exact h'.subset (h.mem b hb)
    · exact h'.mem b hb

/-- Of the cells that are filled some may be left out. -/
theorem sublist (h : Fills used used' new) (hsub : new'.Sublist new) : Fills used used' new' :=
  ⟨h.subset, h.nodup.sublist hsub, fun b hb => h.fresh b (hsub.subset hb),
    fun b hb => h.mem b (hsub.subset hb)⟩

theorem perm (h : Fills used used' new) (hperm : new.Perm new') : Fills used used' new' :=
  ⟨h.subset, hperm.nodup_iff.mp h.nodup, fun b hb => h.fresh b (hperm.mem_iff.mpr hb),
    fun b hb => h.mem b (hperm.mem_iff.mpr hb)⟩

/-- What had been filled before, in cells that were in use, is not filled again. -/
theorem nodup_append (h : Fills used used' new) {filled : List α} (hnodup : filled.Nodup)
    (hused : ∀ b ∈ filled, b ∈ used) : (filled ++ new).Nodup := by
  refine hnodup.append h.nodup ?_
  intro b hb hb'
  exact h.fresh b hb' (hused b hb)

/-- Everything that has been filled is in use. -/
theorem mem_append (h : Fills used used' new) {filled : List α}
    (hused : ∀ b ∈ filled, b ∈ used) : ∀ b ∈ filled ++ new, b ∈ used' := by
  intro b hb
  rcases List.mem_append.mp hb with hb | hb
  · exact h.subset (hused b hb)
  · exact h.mem b hb

end Fills

end SystemExtras
