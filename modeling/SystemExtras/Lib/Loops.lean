import Mathlib.Order.Basic

/-!
# Loops

A loop is given by its round: from a state it goes on with another one, or it ends with a result.
`LoopEnds` is a run of it, so to have one is to terminate, and `exists_loopEnds` gets one from a
measure that goes down.
-/

namespace SystemExtras

variable {σ ρ : Type*} {round : σ → σ ⊕ ρ}

/-- The loop ends from a state, with a result. -/
inductive LoopEnds (round : σ → σ ⊕ ρ) : σ → ρ → Prop
  | exit {s : σ} {r : ρ} (h : round s = .inr r) : LoopEnds round s r
  | next {s s' : σ} {r : ρ} (h : round s = .inl s') (hrest : LoopEnds round s' r) :
      LoopEnds round s r

/-- A loop terminates if every round makes something smaller. -/
theorem exists_loopEnds (size : σ → ℕ) (h : ∀ s s', round s = .inl s' → size s' < size s) (s : σ) :
    ∃ r, LoopEnds round s r := by
  induction hsize : size s using Nat.strongRecOn generalizing s with
  | _ n ih =>
      cases hround : round s with
      | inr r => exact ⟨r, .exit hround⟩
      | inl s' =>
          obtain ⟨r, hrest⟩ := ih (size s') (hsize ▸ h s s' hround) s' rfl
          exact ⟨r, .next hround hrest⟩

end SystemExtras
