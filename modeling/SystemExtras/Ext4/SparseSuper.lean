import SystemExtras.Lib.Loops
import SystemExtras.Ext4.Geometry
import Mathlib.Tactic.Ring

/-!
# Groups with a copy of the superblock

`ext4_bg_has_super_block` asks `is_power_of` for 3, 5 and 7.  `is_power_of` divides while the
number is larger than the base, and compares what is left with the base; so of the powers of a base
it accepts all but the first, `1`, which the caller has asked for before.
-/

namespace SystemExtras.Ext4

/-- One round of the loop of `is_power_of`. -/
def isPowerOfRound (b a : ℤ) : ℤ ⊕ Bool :=
  if a > b then if a % b ≠ 0 then .inr false else .inl (a / b) else .inr (a == b)

section Powers

variable {a a' b : ℤ} {r : Bool}

/-- A round that is not the last one divides. -/
theorem isPowerOfRound_eq_inl :
    isPowerOfRound b a = .inl a' ↔ b < a ∧ a % b = 0 ∧ a / b = a' := by
  unfold isPowerOfRound
  split_ifs with hlt hmod
  · simp [hmod]
  · simp [gt_iff_lt.mp hlt, not_not.mp hmod]
  · simp [hlt]

/-- The quotient is smaller. -/
theorem toNat_ediv_lt (hb : 2 ≤ b) (hlt : b < a) : (a / b).toNat < a.toNat := by
  have hless : a / b < a := Int.ediv_lt_self_of_pos_of_ne_one (by omega) (by omega)
  omega

/-- **The division loop terminates.** -/
theorem exists_isPowerOf (hb : 2 ≤ b) (a : ℤ) : ∃ r, LoopEnds (isPowerOfRound b) a r := by
  refine exists_loopEnds Int.toNat (fun a a' hround => ?_) a
  obtain ⟨hlt, -, rfl⟩ := isPowerOfRound_eq_inl.mp hround
  exact toNat_ediv_lt hb hlt

/-- As many rounds as the model allows are enough. -/
theorem isPowerOfLoop_of_ends (hb : 2 ≤ b) (h : LoopEnds (isPowerOfRound b) a r) {fuel : ℕ}
    (hfuel : a.toNat ≤ fuel) : isPowerOfLoop fuel a b = r := by
  induction h generalizing fuel with
  | @exit a r hround =>
      unfold isPowerOfRound at hround
      cases fuel with
      | zero =>
          rw [if_neg (by omega)] at hround
          exact Sum.inr.inj hround
      | succ fuel =>
          unfold isPowerOfLoop
          split_ifs at hround ⊢
          · exact Sum.inr.inj hround
          · exact Sum.inr.inj hround
  | @next a a' r hround _ ih =>
      obtain ⟨hlt, hmod, rfl⟩ := isPowerOfRound_eq_inl.mp hround
      have hless := toNat_ediv_lt hb hlt
      obtain ⟨fuel, rfl⟩ : ∃ n, fuel = n + 1 := ⟨fuel - 1, by omega⟩
      rw [isPowerOfLoop, if_pos hlt, if_neg (not_not.mpr hmod)]
      exact ih (by omega)

/-- `is_power_of` is what its loop ends with. -/
theorem loopEnds_isPowerOf (hb : 2 ≤ b) (a : ℤ) :
    LoopEnds (isPowerOfRound b) a (isPowerOf a b) := by
  obtain ⟨r, hloop⟩ := exists_isPowerOf hb a
  rwa [isPowerOf, isPowerOfLoop_of_ends hb hloop le_rfl]

/-- What is accepted is a power. -/
theorem exists_pow_of_ends (h : LoopEnds (isPowerOfRound b) a true) :
    ∃ k : ℕ, a = b ^ (k + 1) := by
  generalize hr : true = r at h
  induction h with
  | @exit a r hround =>
      subst hr
      unfold isPowerOfRound at hround
      split_ifs at hround
      · cases hround
      · exact ⟨0, by simpa using hround⟩
  | @next a a' r hround _ ih =>
      obtain ⟨-, hmod, rfl⟩ := isPowerOfRound_eq_inl.mp hround
      obtain ⟨k, hk⟩ := ih hr
      refine ⟨k + 1, ?_⟩
      calc a = a / b * b := (Int.ediv_mul_cancel (Int.dvd_of_emod_eq_zero hmod)).symm
        _ = b ^ (k + 1) * b := by rw [hk]
        _ = b ^ (k + 1 + 1) := (pow_succ b (k + 1)).symm

/-- Powers are accepted. -/
theorem loopEnds_pow (hb : 2 ≤ b) (k : ℕ) : LoopEnds (isPowerOfRound b) (b ^ (k + 1)) true := by
  induction k with
  | zero =>
      refine .exit ?_
      simp [isPowerOfRound]
  | succ k ih =>
      have hlt : b < b ^ (k + 1 + 1) := by
        calc b = b ^ 1 := (pow_one b).symm
          _ < b ^ (k + 1 + 1) := pow_lt_pow_right₀ (by omega) (by omega)
      have hquotient : b ^ (k + 1 + 1) / b = b ^ (k + 1) := by
        rw [pow_succ b (k + 1), Int.mul_ediv_cancel _ (by omega)]
      refine .next (isPowerOfRound_eq_inl.mpr ⟨hlt, ?_, hquotient⟩) ih
      rw [pow_succ, Int.mul_emod_left]

/-- `is_power_of` accepts the powers of its base, but not the first. -/
theorem isPowerOf_iff (hb : 2 ≤ b) : isPowerOf a b = true ↔ ∃ k : ℕ, 1 ≤ k ∧ a = b ^ k := by
  constructor
  · intro h
    have hloop := loopEnds_isPowerOf hb a
    rw [h] at hloop
    obtain ⟨k, rfl⟩ := exists_pow_of_ends hloop
    exact ⟨k + 1, by omega, rfl⟩
  · rintro ⟨k, hk, rfl⟩
    obtain ⟨k, rfl⟩ : ∃ n, k = n + 1 := ⟨k - 1, by omega⟩
    exact isPowerOfLoop_of_ends hb (loopEnds_pow hb k) le_rfl

end Powers

/-- **Which groups have a copy of the superblock**, and that the loop which decides it ends. -/
theorem ext4BgHasSuperBlock_iff (featRoCompat : ℕ) :
    (featRoCompat &&& EXT4_FEATURE_RO_COMPAT_SPARSE_SUPER ≠ 0 → ∀ bg < 2 ^ 31,
      (ext4BgHasSuperBlock featRoCompat bg = true ↔ bg = 0 ∨ bg = 1 ∨
        ∃ k : ℕ, 1 ≤ k ∧ (bg = 3 ^ k ∨ bg = 5 ^ k ∨ bg = 7 ^ k))) ∧
    (featRoCompat &&& EXT4_FEATURE_RO_COMPAT_SPARSE_SUPER = 0 → ∀ bg,
      ext4BgHasSuperBlock featRoCompat bg = true) ∧
    ∀ a b : ℤ, 2 ≤ b → LoopEnds (isPowerOfRound b) a (isPowerOf a b) ∧
      (isPowerOf a b = true ↔ ∃ k : ℕ, 1 ≤ k ∧ a = b ^ k) := by
  refine ⟨fun hsparse bg hbg => ?_, fun hnone bg => if_pos hnone,
    fun a b hb => ⟨loopEnds_isPowerOf hb a, isPowerOf_iff hb⟩⟩
  have hint : s32 bg = bg := by
    unfold s32 u32
    rw [Nat.mod_eq_of_lt (by omega), if_pos hbg]
  have hpower : ∀ b : ℕ, 2 ≤ b → (isPowerOf bg b = true ↔ ∃ k : ℕ, 1 ≤ k ∧ bg = b ^ k) := by
    intro b hb
    rw [isPowerOf_iff (by omega)]
    norm_cast
  unfold ext4BgHasSuperBlock
  rw [if_neg hsparse, hint]
  by_cases hfirst : bg = 0 ∨ bg = 1
  · have hcast : (bg : ℤ) = 0 ∨ (bg : ℤ) = 1 := by omega
    rw [if_pos hcast]
    tauto
  · have hcast : ¬ ((bg : ℤ) = 0 ∨ (bg : ℤ) = 1) := by omega
    have h₃ := hpower 3 (by decide)
    have h₅ := hpower 5 (by decide)
    have h₇ := hpower 7 (by decide)
    push_cast at h₃ h₅ h₇
    rw [if_neg hcast, Bool.or_eq_true, Bool.or_eq_true, h₃, h₅, h₇]
    constructor
    · rintro ((⟨k, hk, hpow⟩ | ⟨k, hk, hpow⟩) | ⟨k, hk, hpow⟩)
      · exact Or.inr (Or.inr ⟨k, hk, Or.inl hpow⟩)
      · exact Or.inr (Or.inr ⟨k, hk, Or.inr (Or.inl hpow)⟩)
      · exact Or.inr (Or.inr ⟨k, hk, Or.inr (Or.inr hpow)⟩)
    · rintro (h | h | ⟨k, hk, hpow | hpow | hpow⟩)
      · exact absurd (Or.inl h) hfirst
      · exact absurd (Or.inr h) hfirst
      · exact Or.inl (Or.inl ⟨k, hk, hpow⟩)
      · exact Or.inl (Or.inr ⟨k, hk, hpow⟩)
      · exact Or.inr ⟨k, hk, hpow⟩

/-- Group 27 has a copy, as the third power of 3. -/
theorem ext4BgHasSuperBlock_iff_27 : ext4BgHasSuperBlock 1 27 = true ∧ isPowerOf 27 3 = true :=
  ⟨((ext4BgHasSuperBlock_iff 1).1 (by decide) 27 (by decide)).mpr
      (Or.inr (Or.inr ⟨3, by decide, Or.inl rfl⟩)),
    ((ext4BgHasSuperBlock_iff 1).2.2 27 3 (by decide)).2.mpr ⟨3, by decide, rfl⟩⟩

end SystemExtras.Ext4
