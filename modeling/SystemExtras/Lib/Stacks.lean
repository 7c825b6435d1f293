import Mathlib.Tactic

/-!
# Stacks of cells with links

A program that keeps its own free list threads several stacks through one set of
cells: each cell has one link, and a stack is a pointer to its first cell.  Nothing
in the memory says to which stack a cell belongs, and a cell that is pushed twice
spoils all of them.

`Ends next top l` says that the links from `top` on visit `l` and end there, and
`Walks next top l` that they visit `l` first.  `Apart` is what the stacks rely on:
the cells of a free list, of the first few places of some other stacks, and those
that are in nobody's list are all different.

The rules of `Apart` read backwards.  They say that a step which leaves the stacks
apart found them apart, whatever the memory looked like, so that a cell pushed twice
cannot be made up for by any later step.
-/

namespace SystemExtras

variable {α : Type*}

/-- The links from `top` on visit the cells of `l`, and then end. -/
def Ends (next : α → Option α) : Option α → List α → Prop
  | top, [] => top = none
  | top, a :: l => top = some a ∧ Ends next (next a) l

/-- The links from `top` on visit the cells of `l` first. -/
def Walks (next : α → Option α) : Option α → List α → Prop
  | _, [] => True
  | top, a :: l => top = some a ∧ Walks next (next a) l

theorem Ends.congr {next next' : α → Option α} {l : List α} :
    ∀ {top : Option α}, Ends next top l → (∀ a ∈ l, next' a = next a) → Ends next' top l := by
  induction l with
  | nil => exact fun h _ => h
  | cons a l ih =>
      rintro top ⟨rfl, hl⟩ hsame
      refine ⟨rfl, ?_⟩
      rw [hsame a List.mem_cons_self]
      exact ih hl fun b hb => hsame b (List.mem_cons_of_mem _ hb)

theorem Walks.congr {next next' : α → Option α} {l : List α} :
    ∀ {top : Option α}, Walks next top l → (∀ a ∈ l, next' a = next a) → Walks next' top l := by
  induction l with
  | nil => exact fun h _ => h
  | cons a l ih =>
      rintro top ⟨rfl, hl⟩ hsame
      refine ⟨rfl, ?_⟩
      rw [hsame a List.mem_cons_self]
      exact ih hl fun b hb => hsame b (List.mem_cons_of_mem _ hb)

/-- The links of a cell that points to itself do not end. -/
theorem not_ends_of_loop {next : α → Option α} {a : α} (hloop : next a = some a) (l : List α) :
    ¬ Ends next (some a) l := by
  induction l with
  | nil => exact fun h => Option.some_ne_none a h
  | cons b l ih =>
      rintro ⟨hb, hl⟩
      obtain rfl := Option.some.inj hb
      rw [hloop] at hl
      exact ih hl

/-- The stack of free cells, the first cells of other stacks (as many as the number beside
their pointer says) and the cells that are held are all different. -/
def Apart (next : α → Option α) (top : Option α) (segs : List (Option α × ℕ)) (held : List α) :
    Prop :=
  ∃ stack walks, Ends next top stack ∧
    List.Forall₂ (fun s l => Walks next s.1 l ∧ l.length = s.2) segs walks ∧
    (held ++ (stack ++ walks.flatten)).Nodup

namespace Apart

variable {next next' : α → Option α} {top : Option α} {segs : List (Option α × ℕ)} {held : List α}

/-- The links of the held cells do not matter. -/
theorem congr (h : Apart next top segs held) (hsame : ∀ a, a ∉ held → next' a = next a) :
    Apart next' top segs held := by
  obtain ⟨stack, walks, hstack, hwalks, hnodup⟩ := h
  have hfree : ∀ a ∈ stack ++ walks.flatten, next' a = next a := by
    intro a ha
    apply hsame a
    intro hheld
    exact List.disjoint_of_nodup_append hnodup hheld ha
  refine ⟨stack, walks, hstack.congr fun a ha => hfree a (List.mem_append_left _ ha), ?_, hnodup⟩
  have hmem : List.Forall₂ (fun s l => (Walks next s.1 l ∧ l.length = s.2) ∧ l ∈ walks)
      segs walks := by
    rw [List.forall₂_iff_get] at hwalks ⊢
    exact ⟨hwalks.1, fun i h₁ h₂ => ⟨hwalks.2 i h₁ h₂, List.get_mem _ _⟩⟩
  refine hmem.imp ?_
  rintro s l ⟨⟨hwalk, hlen⟩, hl⟩
  refine ⟨hwalk.congr fun a ha => hfree a ?_, hlen⟩
  exact List.mem_append_right _ (List.mem_flatten_of_mem hl ha)

theorem of_held_cons {a : α} (h : Apart next top segs (a :: held)) : Apart next top segs held := by
  obtain ⟨stack, walks, hstack, hwalks, hnodup⟩ := h
  exact ⟨stack, walks, hstack, hwalks, (List.nodup_cons.mp hnodup).2⟩

/-- Before the first free cell was taken. -/
theorem of_pop {a : α} (h : Apart next (next a) segs (a :: held)) :
    Apart next (some a) segs held := by
  obtain ⟨stack, walks, hstack, hwalks, hnodup⟩ := h
  refine ⟨a :: stack, walks, ⟨rfl, hstack⟩, hwalks, ?_⟩
  exact (List.perm_middle.nodup_iff).mpr hnodup

/-- Before a held cell was freed. -/
theorem of_push [DecidableEq α] {a : α}
    (h : Apart (Function.update next a top) (some a) segs held) :
    Apart next top segs (a :: held) := by
  obtain ⟨stack, walks, hstack, hwalks, hnodup⟩ := h
  cases stack with
  | nil => exact absurd hstack (Option.some_ne_none a)
  | cons b stack =>
      obtain ⟨hb, hstack⟩ := hstack
      obtain rfl := Option.some.inj hb
      rw [Function.update_self] at hstack
      have hheld : Apart (Function.update next a top) top segs (a :: held) :=
        ⟨stack, walks, hstack, hwalks, (List.perm_middle.nodup_iff).mp hnodup⟩
      refine hheld.congr fun b hb => ?_
      rw [Function.update_of_ne (List.ne_of_not_mem_cons hb)]

/-- Before a cell was taken from the second stack. -/
theorem of_seg_pop {a : α} {n : ℕ} (h : Apart next top ((next a, n) :: segs) (a :: held)) :
    Apart next top ((some a, n + 1) :: segs) held := by
  obtain ⟨stack, walks, hstack, hwalks, hnodup⟩ := h
  cases hwalks with
  | @cons _ l _ walks hhead htail =>
      refine ⟨stack, (a :: l) :: walks, hstack, List.Forall₂.cons ⟨⟨rfl, hhead.1⟩, ?_⟩ htail, ?_⟩
      · rw [List.length_cons, hhead.2]
      · refine List.Perm.nodup ?_ hnodup
        simp only [List.flatten_cons, List.cons_append]
        exact ((List.perm_middle.append_left held).trans List.perm_middle).symm

/-- Before a held cell was put on the second stack. -/
theorem of_seg_push [DecidableEq α] {a : α} {n : ℕ} {first : Option α}
    (h : Apart (Function.update next a first) top ((some a, n + 1) :: segs) held) :
    Apart next top ((first, n) :: segs) (a :: held) := by
  obtain ⟨stack, walks, hstack, hwalks, hnodup⟩ := h
  cases hwalks with
  | @cons _ l _ walks hhead htail =>
      cases l with
      | nil => exact absurd hhead.2 (Nat.succ_ne_zero n).symm
      | cons b l =>
          obtain ⟨⟨hb, hwalk⟩, hlen⟩ := hhead
          obtain rfl := Option.some.inj hb
          rw [Function.update_self] at hwalk
          have hheld :
              Apart (Function.update next a first) top ((first, n) :: segs) (a :: held) := by
            refine ⟨stack, l :: walks, hstack,
              List.Forall₂.cons ⟨hwalk, Nat.succ.inj hlen⟩ htail, ?_⟩
            refine List.Perm.nodup ?_ hnodup
            simp only [List.flatten_cons, List.cons_append]
            exact (List.perm_middle.append_left held).trans List.perm_middle
          refine hheld.congr fun b hb => ?_
          rw [Function.update_of_ne (List.ne_of_not_mem_cons hb)]

/-- A stack of which nothing is asked. -/
theorem nil_seg (h : Apart next top segs held) (first : Option α) :
    Apart next top ((first, 0) :: segs) held := by
  obtain ⟨stack, walks, hstack, hwalks, hnodup⟩ := h
  exact ⟨stack, [] :: walks, hstack, List.Forall₂.cons ⟨trivial, rfl⟩ hwalks, hnodup⟩

theorem of_seg_cons {seg : Option α × ℕ} (h : Apart next top (seg :: segs) held) :
    Apart next top segs held := by
  obtain ⟨stack, walks, hstack, hwalks, hnodup⟩ := h
  cases hwalks with
  | @cons _ l _ walks hhead htail =>
      refine ⟨stack, walks, hstack, htail, hnodup.sublist ?_⟩
      exact List.Sublist.append_left (List.Sublist.append_left
        (List.sublist_append_right l walks.flatten) stack) held

/-- A free cell that is freed again. -/
theorem not_double_free [DecidableEq α] {a : α} :
    ¬ Apart (Function.update next a (some a)) (some a) segs held := by
  rintro ⟨stack, walks, hstack, -, -⟩
  exact not_ends_of_loop (Function.update_self ..) stack hstack

end Apart

end SystemExtras
