import Mathlib.Data.List.Nodup
import Mathlib.Logic.Function.Basic

/-!
# Threaded lists

A list whose nodes have a link to the next one, seen as a function `next`.  `Threaded next l stop`
says that following the links from the first node of `l` visits `l` and then leaves for `stop`.
Nothing is said of links backwards; operations that need one are told where it leads.

Taking a node out (`Threaded.remove`), putting one behind another (`Threaded.insertBehind`) and
putting one at the end (`Threaded.concat`) are given by what they do to the links.
-/

namespace SystemExtras

variable {α : Type*} {next next' : α → Option α} {l xs ys : List α} {a b : α} {stop : Option α}

/-- The links lead through the list and then to `stop`. -/
def Threaded (next : α → Option α) : List α → Option α → Prop
  | [], _ => True
  | a :: l, stop => next a = l.head?.or stop ∧ Threaded next l stop

theorem threaded_append : Threaded next (xs ++ ys) stop ↔
    Threaded next xs (ys.head?.or stop) ∧ Threaded next ys stop := by
  induction xs with
  | nil => exact ⟨fun h => ⟨trivial, h⟩, fun h => h.2⟩
  | cons a xs ih =>
      rw [List.cons_append, Threaded, Threaded, ih, List.head?_append, Option.or_assoc, and_assoc]

/-- Links of other nodes do not matter. -/
theorem Threaded.congr (h : Threaded next l stop) (hsame : ∀ a ∈ l, next' a = next a) :
    Threaded next' l stop := by
  induction l with
  | nil => trivial
  | cons a l ih =>
      refine ⟨?_, ih h.2 fun b hb => hsame b (List.mem_cons_of_mem a hb)⟩
      rw [hsame a List.mem_cons_self]
      exact h.1

section Update

variable [DecidableEq α]

theorem Threaded.update (h : Threaded next l stop) {v : Option α} (ha : a ∉ l) :
    Threaded (Function.update next a v) l stop := by
  refine h.congr fun b hb => Function.update_of_ne ?_ _ _
  rintro rfl
  exact ha hb

/-- The last node may lead elsewhere. -/
theorem Threaded.relink (h : Threaded next (xs ++ [a]) stop) (ha : a ∉ xs) (stop' : Option α) :
    Threaded (Function.update next a stop') (xs ++ [a]) stop' := by
  rw [threaded_append] at h ⊢
  exact ⟨h.1.update ha, Function.update_self _ _ _, trivial⟩

/-- The links when `a` has been taken out behind `prev`. -/
def unlinked (next : α → Option α) (prev : Option α) (a : α) : α → Option α :=
  match prev with
  | none => Function.update next a none
  | some p => Function.update (Function.update next p (next a)) a none

theorem unlinked_of_ne {prev : Option α} (ha : b ≠ a) (hprev : prev ≠ some b) :
    unlinked next prev a b = next b := by
  cases prev with
  | none => exact Function.update_of_ne ha _ _
  | some p =>
      rw [unlinked, Function.update_of_ne ha, Function.update_of_ne]
      rintro rfl
      exact hprev rfl

/-- Taking a node out. -/
theorem Threaded.remove (h : Threaded next (xs ++ a :: ys) stop) (hnodup : (xs ++ a :: ys).Nodup) :
    Threaded (unlinked next xs.getLast? a) (xs ++ ys) stop := by
  obtain ⟨hxs, hnext, hys⟩ := threaded_append.mp h
  have hay : a ∉ ys := (List.nodup_cons.mp (List.nodup_append.mp hnodup).2.1).1
  have hax : a ∉ xs := fun hmem =>
    (List.nodup_append.mp hnodup).2.2 a hmem a List.mem_cons_self rfl
  rcases List.eq_nil_or_concat xs with rfl | ⟨xs, p, rfl⟩
  · exact hys.update hay
  · rw [List.concat_eq_append] at *
    have hpy : p ∉ ys := fun hmem => (List.nodup_append.mp hnodup).2.2 p
      (List.mem_append_right _ List.mem_cons_self) p (List.mem_cons_of_mem a hmem) rfl
    have hpx : p ∉ xs := fun hmem =>
      (List.nodup_append.mp (List.nodup_append.mp hnodup).1).2.2 p hmem p List.mem_cons_self rfl
    rw [List.getLast?_concat, unlinked, hnext, threaded_append]
    exact ⟨(hxs.relink hpx _).update hax, (hys.update hpy).update hay⟩

/-- Putting the node `b` behind `a`. -/
theorem Threaded.insertBehind (h : Threaded next (xs ++ a :: ys) stop)
    (hnodup : (xs ++ a :: ys).Nodup) (hb : b ∉ xs ++ a :: ys) :
    Threaded (Function.update (Function.update next b (next a)) a (some b)) (xs ++ a :: b :: ys)
      stop := by
  obtain ⟨hxs, hnext, hys⟩ := threaded_append.mp h
  have hay : a ∉ ys := (List.nodup_cons.mp (List.nodup_append.mp hnodup).2.1).1
  have hax : a ∉ xs := fun hmem =>
    (List.nodup_append.mp hnodup).2.2 a hmem a List.mem_cons_self rfl
  obtain ⟨hbx, hba, hby⟩ : b ∉ xs ∧ b ≠ a ∧ b ∉ ys := by
    simpa [not_or] using hb
  refine threaded_append.mpr ⟨(hxs.update hbx).update hax, Function.update_self _ _ _, ?_,
    (hys.update hby).update hay⟩
  rw [Function.update_of_ne hba, Function.update_self, hnext]

/-- Putting a node at the end. -/
theorem Threaded.concat (h : Threaded next l none) (hnodup : l.Nodup) (ha : a ∉ l)
    (hself : next' a = none) (hlast : ∀ b ∈ l.getLast?, next' b = some a)
    (hsame : ∀ b ∈ l, b ∉ l.getLast? → next' b = next b) : Threaded next' (l ++ [a]) none := by
  refine threaded_append.mpr ⟨?_, hself, trivial⟩
  rcases List.eq_nil_or_concat l with rfl | ⟨l, p, rfl⟩
  · trivial
  · simp only [List.concat_eq_append] at *
    rw [List.getLast?_concat] at hlast hsame
    have hpl : p ∉ l := fun hmem =>
      (List.nodup_append.mp hnodup).2.2 p hmem p List.mem_cons_self rfl
    refine (h.relink hpl (some a)).congr fun b hb => ?_
    by_cases hbp : b = p
    · subst hbp
      rw [hlast b rfl, Function.update_self]
    · rw [Function.update_of_ne hbp]
      exact hsame b hb fun hmem => hbp (Option.mem_some.mp hmem).symm

end Update

end SystemExtras
