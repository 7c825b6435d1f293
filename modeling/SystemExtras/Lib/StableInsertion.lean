import Mathlib.Data.List.Induction
import Mathlib.Data.List.Sort

/-!
# Stable insertion

A list that is built by putting each element in front of the first one that it is strictly
before is a stable sort of the elements: elements of which neither is before the other stay in
the order of their insertion.  `List.orderedInsert` is that insertion when it is given the
strict order.

Nothing is asked of `before` but that it is a strict weak order.
-/

namespace SystemExtras

variable {α : Type*}

/-- Neither is before the other. -/
def Tied (before : α → α → Prop) (a b : α) : Prop := ¬ before a b ∧ ¬ before b a

instance (before : α → α → Prop) [DecidableRel before] : DecidableRel (Tied before) :=
  fun a b => inferInstanceAs (Decidable (¬ before a b ∧ ¬ before b a))

/-- A strict weak order. -/
structure StrictWeak (before : α → α → Prop) : Prop where
  asymm : ∀ {a b}, before a b → ¬ before b a
  trans_not : ∀ {a b c}, before a b → ¬ before c b → before a c

/-- `sorted` has the elements of `l` in order, tied ones in the order that they have in `l`. -/
structure StableSort (before : α → α → Prop) [DecidableRel before] (l sorted : List α) :
    Prop where
  perm : sorted.Perm l
  ordered : sorted.Pairwise fun a b => ¬ before b a
  stable : ∀ x, sorted.filter (Tied before x ·) = l.filter (Tied before x ·)

section Insertion

variable {before : α → α → Prop} [DecidableRel before] {a x : α} {l sorted : List α}

/-- An ordered list stays ordered. -/
theorem ordered_orderedInsert (h : StrictWeak before) (hl : l.Pairwise fun a b => ¬ before b a) :
    (l.orderedInsert before a).Pairwise fun a b => ¬ before b a := by
  induction l with
  | nil => exact List.pairwise_singleton _ _
  | cons b l ih =>
      obtain ⟨hb, hrest⟩ := List.pairwise_cons.mp hl
      rw [List.orderedInsert_cons]
      split_ifs with hab
      · refine List.pairwise_cons.mpr ⟨fun c hc => ?_, hl⟩
        rcases List.mem_cons.mp hc with rfl | hc
        · exact h.asymm hab
        · exact h.asymm (h.trans_not hab (hb c hc))
      · refine List.pairwise_cons.mpr ⟨fun c hc => ?_, ih hrest⟩
        rcases (List.mem_orderedInsert before).mp hc with rfl | hc
        · exact hab
        · exact hb c hc

/-- The new element comes behind all that are tied with it. -/
theorem filter_tied_orderedInsert (h : StrictWeak before)
    (hl : l.Pairwise fun a b => ¬ before b a) :
    (l.orderedInsert before a).filter (Tied before x ·) = (l ++ [a]).filter (Tied before x ·) := by
  induction l with
  | nil => rfl
  | cons b l ih =>
      obtain ⟨hb, hrest⟩ := List.pairwise_cons.mp hl
      rw [List.orderedInsert_cons]
      split_ifs with hab
      · by_cases hx : Tied before x a
        · -- what is behind the place of insertion is behind `x`
          have hbehind : ∀ c ∈ b :: l, ¬ Tied before x c := by
            intro c hc htied
            have hac : before a c := by
              rcases List.mem_cons.mp hc with rfl | hc
              · exact hab
              · exact h.trans_not hab (hb c hc)
            exact hx.2 (h.trans_not hac htied.1)
          have hnone : (b :: l).filter (Tied before x ·) = [] := by
            rw [List.filter_eq_nil_iff]
            intro c hc
            simpa using hbehind c hc
          rw [List.filter_append, hnone, List.nil_append,
            List.filter_cons_of_pos (by simpa using hx),
            hnone, List.filter_cons_of_pos (by simpa using hx), List.filter_nil]
        · have hsingle : [a].filter (Tied before x ·) = [] := by simp [hx]
          rw [List.filter_append, hsingle, List.append_nil,
            List.filter_cons_of_neg (by simpa using hx)]
      · rw [List.cons_append, List.filter_cons, List.filter_cons, ih hrest]

/-- One more element. -/
theorem StableSort.orderedInsert (hs : StableSort before l sorted) (h : StrictWeak before) (a : α) :
    StableSort before (l ++ [a]) (sorted.orderedInsert before a) where
  perm := ((sorted.perm_orderedInsert before a).trans (hs.perm.cons a)).trans
    (List.perm_append_singleton a l).symm
  ordered := ordered_orderedInsert h hs.ordered
  stable x := by
    rw [filter_tied_orderedInsert h hs.ordered, List.filter_append, hs.stable,
      List.filter_append]

/-- Insertion of the elements one by one. -/
theorem stableSort_foldl (h : StrictWeak before) (l : List α) :
    StableSort before l (l.foldl (fun sorted a => sorted.orderedInsert before a) []) := by
  induction l using List.reverseRecOn with
  | nil => exact ⟨.nil, .nil, fun _ => rfl⟩
  | append_singleton l a ih =>
      rw [List.foldl_append]
      exact ih.orderedInsert h a

end Insertion

end SystemExtras
