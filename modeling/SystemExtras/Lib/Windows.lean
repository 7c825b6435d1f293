import SystemExtras.Lib.Device

/-!
# Windows into a memory

A structure that lies in a larger memory, seen from where it starts: `Mem.behind`
moves an address to zero, and what is read there is what was read behind it.

A device on which writes that do not touch each other have been made holds all of
them, in whatever order they were made.
-/

namespace SystemExtras

namespace Mem

variable {m m' : Mem} {base : ℕ}

/-- The memory from address `base` on. -/
def behind (m : Mem) (base : ℕ) : Mem := fun x => m (base + x)

@[simp] theorem behind_apply (m : Mem) (base x : ℕ) : m.behind base x = m (base + x) := rfl

theorem load_behind (m : Mem) (base n : ℕ) : ∀ a, (m.behind base).load a n = m.load (base + a) n := by
  induction n with
  | zero => exact fun _ => rfl
  | succ n ih =>
      intro a
      simp only [load, ih, behind_apply, ← Nat.add_assoc]

theorem bytes_behind (m : Mem) (base a n : ℕ) : (m.behind base).bytes a n = m.bytes (base + a) n := by
  simp only [bytes, behind_apply, Nat.add_assoc]

/-- Two windows show the same where the memories behind them agree. -/
theorem SameOn.behind {lo hi : ℕ} (h : m.SameOn m' (base + lo) (base + hi)) :
    (m.behind base).SameOn (m'.behind base) lo hi :=
  fun x hlo hhi => h (base + x) (by omega) (by omega)

end Mem

/-- A member of a structure in a window. -/
theorem Field.get_behind (f : Field) (m : Mem) (base : ℕ) :
    f.get (m.behind base) = (f.at_ base).get m := Mem.load_behind m base f.width f.offset

/-- A member of a structure further on in a window. -/
theorem Field.get_at_behind (f : Field) (m : Mem) (base off : ℕ) :
    (f.at_ off).get (m.behind base) = (f.at_ (base + off)).get m := by
  rw [Field.get_behind]
  simp only [Field.at_, Nat.add_assoc]

namespace Device

variable {d : Device} {ws vs : List Write} {w : Write} {x : ℕ}

theorem applyAll_bytes_of_perm (hperm : ws.Perm vs)
    (hpair : vs.Pairwise fun w v => ∀ x, w.Covers x → ¬ v.Covers x) (hw : w ∈ vs)
    (hx : w.Covers x) : (d.applyAll ws).bytes x = w.data (x - w.offset) := by
  have hsymm : ∀ {w v : Write}, (∀ x, w.Covers x → ¬ v.Covers x) → ∀ x, v.Covers x → ¬ w.Covers x :=
    fun h x hv hw => h x hw hv
  exact applyAll_bytes_of_mem ((hperm.pairwise_iff hsymm).mpr hpair) (hperm.mem_iff.mpr hw) hx

theorem reach_perm (hperm : ws.Perm vs) : reach ws = reach vs :=
  hperm.foldr_eq' (fun w _ v _ _ => max_left_comm (v.offset + v.len) (w.offset + w.len) _) 0

/-- Writes that copy what is at the same place of another device leave that there, wherever one of
them reaches. -/
theorem applyAll_bytes_of_copies {d' : Device}
    (hcopy : ∀ w ∈ ws, ∀ k < w.len, w.data k = d'.bytes (w.offset + k))
    (hx : ∃ w ∈ ws, w.Covers x) : (d.applyAll ws).bytes x = d'.bytes x := by
  induction ws generalizing d with
  | nil => simp at hx
  | cons w ws ih =>
      have hrest := fun v hv => hcopy v (List.mem_cons_of_mem _ hv)
      rw [applyAll_cons]
      by_cases hlater : ∃ v ∈ ws, v.Covers x
      · exact ih hrest hlater
      · obtain ⟨v, hv, hcovers⟩ := hx
        rcases List.mem_cons.mp hv with rfl | hv
        · have hlo := hcovers.1
          have hhi := hcovers.2
          rw [applyAll_bytes_of_not_covers fun u hu hcov => hlater ⟨u, hu, hcov⟩,
            apply_bytes_of_covers hcovers, hcopy v List.mem_cons_self _ (by omega)]
          congr 1
          omega
        · exact absurd ⟨v, hv, hcovers⟩ hlater

end Device

end SystemExtras
