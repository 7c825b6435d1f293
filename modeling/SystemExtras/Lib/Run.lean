import Mathlib.Tactic

/-!
# Runs that may fail

Fallible code is an `Except` computation.  A run that ends well is taken apart at
its binds with `bind_eq_ok`, so that a proof follows the code from one call to
the next without unfolding what it calls.
-/

namespace SystemExtras

universe u v

variable {ε : Type u} {α β : Type v}

theorem bind_eq_ok {x : Except ε α} {f : α → Except ε β} {b : β} :
    x >>= f = .ok b ↔ ∃ a, x = .ok a ∧ f a = .ok b := by
  constructor
  · intro h
    cases x with
    | error e => cases h
    | ok a => exact ⟨a, rfl, h⟩
  · rintro ⟨a, rfl, h⟩
    exact h

@[simp] theorem bind_ok (a : α) (f : α → Except ε β) : (.ok a : Except ε α) >>= f = f a := rfl

@[simp] theorem bind_error (e : ε) (f : α → Except ε β) :
    (.error e : Except ε α) >>= f = .error e := rfl

/-- A run over a list ends well when it does so for each of its elements. -/
theorem mapM_eq_ok {γ : Type*} {f : γ → Except ε β} : ∀ {l : List γ} {r : List β},
    l.mapM f = .ok r ↔ List.Forall₂ (fun a b => f a = .ok b) l r := by
  intro l
  induction l with
  | nil =>
      intro r
      rw [List.mapM_nil, List.forall₂_nil_left_iff]
      exact ⟨fun h => by cases h; rfl, fun h => by rw [h]; rfl⟩
  | cons a l ih =>
      intro r
      rw [List.mapM_cons, List.forall₂_cons_left_iff]
      simp only [bind_eq_ok]
      constructor
      · rintro ⟨b, hb, r', hr', hr⟩
        cases hr
        exact ⟨b, r', hb, ih.mp hr', rfl⟩
      · rintro ⟨b, r', hb, hr', rfl⟩
        exact ⟨b, hb, r', ih.mpr hr', rfl⟩

theorem mapM_range_eq_ok {f : ℕ → Except ε β} {n : ℕ} {r : List β} :
    (List.range n).mapM f = .ok r ↔
      r.length = n ∧ ∀ k b, r[k]? = some b → f k = .ok b := by
  rw [mapM_eq_ok, List.forall₂_iff_get]
  constructor
  · rintro ⟨hlen, hget⟩
    rw [List.length_range] at hlen
    refine ⟨hlen.symm, fun k b hk => ?_⟩
    obtain ⟨hlt, rfl⟩ := List.getElem?_eq_some_iff.mp hk
    simpa using hget k (by simpa [hlen] using hlt) hlt
  · rintro ⟨hlen, hget⟩
    refine ⟨by rw [List.length_range, hlen], fun k h₁ h₂ => ?_⟩
    simpa using hget k _ (List.getElem?_eq_getElem h₂)

end SystemExtras
