import Mathlib.Data.List.Chain
import Mathlib.Data.List.Nodup
import Mathlib.Logic.Function.Basic

/-!
# Rings of nodes with two links

A doubly linked ring has a head that is always there, so that no operation has to ask
for an end.  `LinkedRing next prev head l` says that the links in one direction visit `l`
from the head and come back to it, and that those in the other direction undo them.

`LinkedRing.insert` and `LinkedRing.remove` are the two operations in the order in which a program
writes the four links, or the two; `LinkedRing.prev_head` finds the last node.
-/

namespace SystemExtras

variable {α : Type*} {next prev next' prev' : α → Option α} {head x : α} {l : List α}

/-- The links of two neighbours lead to each other. -/
def Neighbours (next prev : α → Option α) (a b : α) : Prop := next a = some b ∧ prev b = some a

/-- The links visit `l` between leaving the head and reaching it again. -/
structure LinkedRing (next prev : α → Option α) (head : α) (l : List α) : Prop where
  nodup : (head :: l).Nodup
  linked : (head :: (l ++ [head])).IsChain (Neighbours next prev)

theorem LinkedRing.nil (hnext : next head = some head) (hprev : prev head = some head) :
    LinkedRing next prev head [] :=
  ⟨List.nodup_singleton head, List.isChain_pair.mpr ⟨hnext, hprev⟩⟩

/-- A chain looks at the links forwards of all nodes but its last one, and at the links backwards
of all but its first one. -/
theorem isChain_neighbours_congr : ∀ {l : List α}, l.IsChain (Neighbours next prev) →
    (∀ a ∈ l.dropLast, next' a = next a) → (∀ b ∈ l.tail, prev' b = prev b) →
      l.IsChain (Neighbours next' prev') := by
  intro l
  induction l with
  | nil => exact fun _ _ _ => List.isChain_nil
  | cons a l ih =>
      intro hchain hnext hprev
      cases l with
      | nil => exact List.isChain_singleton a
      | cons b l =>
          rw [List.isChain_cons_cons] at hchain ⊢
          obtain ⟨⟨hab, hba⟩, hrest⟩ := hchain
          rw [List.dropLast_cons_cons] at hnext
          refine ⟨⟨?_, ?_⟩, ih hrest ?_ ?_⟩
          · rw [hnext a List.mem_cons_self, hab]
          · rw [hprev b List.mem_cons_self, hba]
          · exact fun c hc => hnext c (List.mem_cons_of_mem a hc)
          · exact fun c hc => hprev c (List.mem_cons_of_mem b hc)

namespace LinkedRing

theorem head_not_mem (h : LinkedRing next prev head l) : head ∉ l := (List.nodup_cons.mp h.nodup).1

/-- Links of nodes that are not in the ring do not matter. -/
theorem congr (h : LinkedRing next prev head l) (hnext : ∀ a ∈ head :: l, next' a = next a)
    (hprev : ∀ a ∈ head :: l, prev' a = prev a) : LinkedRing next' prev' head l := by
  refine ⟨h.nodup,
    isChain_neighbours_congr h.linked (fun a ha => hnext a ?_) fun b hb => hprev b ?_⟩
  · rwa [← List.cons_append, List.dropLast_concat] at ha
  · rw [List.tail_cons, List.mem_append, List.mem_singleton] at hb
    rw [List.mem_cons]
    exact hb.symm

/-- The node behind the head. -/
theorem next_head (h : LinkedRing next prev head l) : ∃ n rest, l ++ [head] = n :: rest ∧
    next head = some n ∧ (n :: rest).IsChain (Neighbours next prev) := by
  obtain ⟨n, rest, hlist⟩ := List.exists_cons_of_ne_nil (List.concat_ne_nil head l)
  have hchain := h.linked
  rw [hlist, List.isChain_cons_cons] at hchain
  exact ⟨n, rest, hlist, hchain.1.1, hchain.2⟩

/-- The node in front of the head. -/
theorem prev_head (h : LinkedRing next prev head l) (hne : l ≠ []) :
    prev head = some (l.getLast hne) := by
  have hchain := h.linked
  rw [← List.dropLast_append_getLast hne, List.append_assoc, List.singleton_append,
    List.isChain_cons_append_cons_cons] at hchain
  exact hchain.2.1.2

section Updates

variable [DecidableEq α]

/-- A node that is put behind the head, with the links written in the order of a program that has
read the old link of the head. -/
theorem insert (h : LinkedRing next prev head l) (hx : x ∉ head :: l) : ∃ n, next head = some n ∧
    LinkedRing (Function.update (Function.update next head (some x)) x (some n))
      (Function.update (Function.update prev x (some head)) n (some x)) head (x :: l) := by
  obtain ⟨n, rest, hlist, hnext, hchain⟩ := h.next_head
  have hnodup : (n :: rest).Nodup := by
    rw [← hlist, List.nodup_append_comm]
    exact h.nodup
  obtain ⟨hhead, hxl⟩ := not_or.mp (List.mem_cons.not.mp hx)
  have hxn : x ∉ n :: rest := by
    rw [← hlist, List.mem_append, List.mem_singleton]
    exact fun hmem => hx (List.mem_cons.mpr hmem.symm)
  refine ⟨n, hnext, ?_, ?_⟩
  · rw [List.nodup_cons, List.nodup_cons, List.mem_cons]
    exact ⟨fun hmem => hmem.elim (Ne.symm hhead) h.head_not_mem, hxl, h.nodup.of_cons⟩
  · rw [List.cons_append, List.isChain_cons_cons, hlist, List.isChain_cons_cons]
    refine ⟨⟨?_, ?_⟩, ⟨?_, ?_⟩, isChain_neighbours_congr hchain (fun a ha => ?_) fun b hb => ?_⟩
    · rw [Function.update_of_ne (Ne.symm hhead), Function.update_self]
    · rw [Function.update_of_ne (List.ne_of_not_mem_cons hxn), Function.update_self]
    · rw [Function.update_self]
    · rw [Function.update_self]
    · rw [← hlist, List.dropLast_concat] at ha
      rw [Function.update_of_ne (ne_of_mem_of_not_mem ha hxl),
        Function.update_of_ne (ne_of_mem_of_not_mem ha h.head_not_mem)]
    · have hbn : b ≠ n := ne_of_mem_of_not_mem hb (List.nodup_cons.mp hnodup).1
      have hbx : b ≠ x := ne_of_mem_of_not_mem (List.mem_cons_of_mem n hb) hxn
      rw [Function.update_of_ne hbn, Function.update_of_ne hbx]

/-- A node that is taken out of the ring, between the neighbours to which its links lead. -/
theorem remove (h : LinkedRing next prev head l) (hx : x ∈ l) :
    ∃ p n, prev x = some p ∧ next x = some n ∧
      LinkedRing (Function.update next p (some n)) (Function.update prev n (some p)) head
        (l.erase x) := by
  obtain ⟨l₁, l₂, hx₁, rfl, herase⟩ := List.exists_erase_eq hx
  rw [herase]
  obtain ⟨n, rest, hback⟩ := List.exists_cons_of_ne_nil (List.concat_ne_nil head l₂)
  obtain ⟨front, p, hfront⟩ : ∃ front p, head :: l₁ = front ++ [p] :=
    ⟨(head :: l₁).dropLast, (head :: l₁).getLast (List.cons_ne_nil head l₁),
      (List.dropLast_append_getLast _).symm⟩
  have hchain := h.linked
  have hnodup := h.nodup
  have hwhole : head :: (l₁ ++ x :: l₂ ++ [head]) = front ++ p :: x :: n :: rest := by
    rw [List.append_assoc, List.cons_append, hback, ← List.cons_append, hfront,
      List.append_assoc, List.singleton_append]
  rw [hwhole, List.isChain_append_cons_cons, List.isChain_cons_cons] at hchain
  obtain ⟨hfrontChain, hpx, hxn, hbackChain⟩ := hchain
  rw [← List.cons_append, List.nodup_append] at hnodup
  obtain ⟨hnodup₁, hnodup₂, hapart⟩ := hnodup
  have hnodup₃ : l₂.Nodup := hnodup₂.of_cons
  have hmem₁ : ∀ {a}, a ∈ l₁ → a ∈ head :: l₁ := List.mem_cons_of_mem head
  have hmem₂ : ∀ {a}, a ∈ l₂ → a ∈ x :: l₂ := List.mem_cons_of_mem x
  have hhead : head ∉ l₂ := fun hmem => hapart head List.mem_cons_self head (hmem₂ hmem) rfl
  have hp : p ∈ head :: l₁ := by
    rw [hfront]
    exact List.mem_append_right front (List.mem_singleton_self p)
  have hn : n ∈ l₂ ++ [head] := by
    rw [hback]
    exact List.mem_cons_self
  refine ⟨p, n, hpx.2, hxn.1, ?_, ?_⟩
  · rw [← List.cons_append, List.nodup_append]
    exact ⟨hnodup₁, hnodup₃, fun a ha b hb => hapart a ha b (hmem₂ hb)⟩
  · have hjoin : head :: (l₁ ++ l₂ ++ [head]) = front ++ p :: n :: rest := by
      rw [List.append_assoc, hback, ← List.cons_append, hfront, List.append_assoc,
        List.singleton_append]
    rw [hjoin, List.isChain_append_cons_cons]
    refine ⟨isChain_neighbours_congr hfrontChain (fun a ha => ?_) (fun b hb => ?_), ⟨?_, ?_⟩,
      isChain_neighbours_congr hbackChain (fun a ha => ?_) fun b hb => ?_⟩
    · rw [List.dropLast_concat] at ha
      rw [hfront, List.nodup_append] at hnodup₁
      exact Function.update_of_ne (hnodup₁.2.2 a ha p (List.mem_singleton_self p)) _ _
    · rw [← hfront, List.tail_cons] at hb
      refine Function.update_of_ne ?_ _ _
      rintro rfl
      rcases List.mem_append.mp hn with hmem | hmem
      · exact hapart b (hmem₁ hb) b (hmem₂ hmem) rfl
      · rw [List.mem_singleton.mp hmem] at hb
        exact (List.nodup_cons.mp hnodup₁).1 hb
    · exact Function.update_self _ _ _
    · exact Function.update_self _ _ _
    · rw [← hback, List.dropLast_concat] at ha
      refine Function.update_of_ne ?_ _ _
      rintro rfl
      exact hapart a hp a (hmem₂ ha) rfl
    · have hnodup₄ : (n :: rest).Nodup := by
        rw [← hback, List.nodup_append_comm]
        exact List.nodup_cons.mpr ⟨hhead, hnodup₃⟩
      exact Function.update_of_ne (ne_of_mem_of_not_mem hb (List.nodup_cons.mp hnodup₄).1) _ _

end Updates

end LinkedRing

end SystemExtras
