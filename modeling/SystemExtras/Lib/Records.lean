import Mathlib.Data.List.GetD
import SystemExtras.Lib.Bytes

/-!
# Records of varying length in a memory

A program that packs strings and integers one behind the other moves a cursor, and so
does the program that takes them apart.  What lies in memory is then a list of bytes,
and both cursors are lengths of its prefixes.

* Writing at the end of what was written appends (`storeBytes_append`), and an integer is
  its little-endian bytes (`store_eq_storeBytes`).
* `Holds m a l` says that `l` lies at address `a`.  It splits where the list does
  (`holds_append`), and the parts are read with `Holds.load` and `Holds.cstring`.
-/

namespace SystemExtras

/-- A string that ends at its first zero byte, which is not one of its characters. -/
@[ext] structure CString where
  chars : List UInt8
  nonzero : 0 ∉ chars
  deriving DecidableEq

/-- `strlen`. -/
def CString.strlen (s : CString) : ℕ := s.chars.length

/-- The bytes of a string in memory. -/
def CString.stored (s : CString) : List UInt8 := s.chars ++ [0]

@[simp] theorem CString.length_stored (s : CString) : s.stored.length = s.strlen + 1 := by
  rw [CString.stored, List.length_append, List.length_singleton, CString.strlen]

/-- The `n` bytes of a little-endian integer. -/
def leBytes (n v : ℕ) : List UInt8 := (List.range n).map fun i => UInt8.ofNat (v / 256 ^ i)

@[simp] theorem length_leBytes (n v : ℕ) : (leBytes n v).length = n := by
  rw [leBytes, List.length_map, List.length_range]

namespace Mem

/-- The string at address `a`, if it ends within `fuel` bytes. -/
def cstring (m : Mem) : ℕ → ℕ → Option CString
  | 0, _ => none
  | fuel + 1, a =>
      if h : m a = 0 then some ⟨[], List.not_mem_nil⟩
      else (cstring m fuel (a + 1)).map fun s =>
        ⟨m a :: s.chars, List.not_mem_cons_of_ne_of_not_mem (Ne.symm h) s.nonzero⟩

/-! ## Writing -/

variable {m : Mem} {a : ℕ} {l l' : List UInt8}

@[simp] theorem storeBytes_nil : m.storeBytes a [] = m := by
  funext x
  exact storeBytes_apply_of_not_mem (lt_or_ge x a)

theorem storeBytes_apply_of_mem {x : ℕ} (h₁ : a ≤ x) (h₂ : x < a + l.length) :
    m.storeBytes a l x = l.getD (x - a) 0 := if_pos ⟨h₁, h₂⟩

theorem storeBytes_append (m : Mem) (a : ℕ) (l l' : List UInt8) :
    (m.storeBytes a l).storeBytes (a + l.length) l' = m.storeBytes a (l ++ l') := by
  funext x
  have hlen := @List.length_append _ l l'
  rcases lt_or_ge x a with hx | hx
  · rw [storeBytes_apply_of_not_mem (by omega), storeBytes_apply_of_not_mem (Or.inl hx),
      storeBytes_apply_of_not_mem (Or.inl hx)]
  · rcases lt_or_ge x (a + l.length) with hl | hl
    · rw [storeBytes_apply_of_not_mem (Or.inl hl), storeBytes_apply_of_mem hx hl,
        storeBytes_apply_of_mem hx (by omega), List.getD_append _ _ _ _ (by omega)]
    · rcases lt_or_ge x (a + (l ++ l').length) with hl' | hl'
      · rw [storeBytes_apply_of_mem hl (by omega), storeBytes_apply_of_mem hx hl',
          List.getD_append_right _ _ _ _ (by omega)]
        congr 1
        omega
      · rw [storeBytes_apply_of_not_mem (by omega), storeBytes_apply_of_not_mem (Or.inr hl),
          storeBytes_apply_of_not_mem (Or.inr hl')]

/-- An integer is written as its bytes. -/
theorem store_eq_storeBytes (m : Mem) (a n v : ℕ) :
    m.store a n v = m.storeBytes a (leBytes n v) := by
  funext x
  by_cases hx : a ≤ x ∧ x < a + n
  · rw [store_apply_of_mem hx.1 hx.2, storeBytes_apply_of_mem hx.1 (by simpa using hx.2)]
    have hi : x - a < n := by omega
    simp [leBytes, hi]
  · rw [store_apply_of_not_mem (by omega), storeBytes_apply_of_not_mem (by simp; omega)]

/-! ## Reading -/

/-- The bytes `l` lie at address `a`. -/
def Holds (m : Mem) (a : ℕ) (l : List UInt8) : Prop := ∀ i < l.length, m (a + i) = l.getD i 0

theorem holds_storeBytes (m : Mem) (a : ℕ) (l : List UInt8) : (m.storeBytes a l).Holds a l := by
  intro i hi
  rw [storeBytes_apply_of_mem (by omega) (by omega), Nat.add_sub_cancel_left]

theorem Holds.congr {m' : Mem} (h : m.Holds a l) (hsame : ∀ i < l.length, m' (a + i) = m (a + i)) :
    m'.Holds a l := fun i hi => (hsame i hi).trans (h i hi)

theorem holds_append : m.Holds a (l ++ l') ↔ m.Holds a l ∧ m.Holds (a + l.length) l' := by
  have hlen := @List.length_append _ l l'
  constructor
  · intro h
    refine ⟨fun i hi => ?_, fun i hi => ?_⟩
    · rw [h i (by omega), List.getD_append _ _ _ _ hi]
    · rw [Nat.add_assoc, h _ (by omega), List.getD_append_right _ _ _ _ (by omega),
        Nat.add_sub_cancel_left]
  · rintro ⟨h, h'⟩ i hi
    rcases lt_or_ge i l.length with hl | hl
    · rw [h i hl, List.getD_append _ _ _ _ hl]
    · rw [List.getD_append_right _ _ _ _ hl, ← h' (i - l.length) (by omega)]
      congr 1
      omega

theorem Holds.load {n v : ℕ} (h : m.Holds a (leBytes n v)) : m.load a n = v % 256 ^ n := by
  apply load_eq_of_bytes
  intro i hi
  rw [h i (by simpa using hi)]
  simp [leBytes, hi]

/-- A string is read back with the zero byte at its end. -/
theorem Holds.cstring {s : CString} (h : m.Holds a s.stored) {fuel : ℕ} (hfuel : s.strlen < fuel) :
    m.cstring fuel a = some s := by
  obtain ⟨chars, nonzero⟩ := s
  induction chars generalizing a fuel with
  | nil =>
      obtain ⟨fuel, rfl⟩ : ∃ f, fuel = f + 1 := ⟨fuel - 1, by omega⟩
      have hzero : m a = 0 := h 0 (by simp)
      rw [Mem.cstring, dif_pos hzero]
  | cons c chars ih =>
      obtain ⟨fuel, rfl⟩ : ∃ f, fuel = f + 1 := ⟨fuel - 1, by omega⟩
      have hrest : 0 ∉ chars := List.not_mem_of_not_mem_cons nonzero
      have hhead : m a = c := h 0 (by simp)
      have htail : m.Holds (a + 1) (CString.stored ⟨chars, hrest⟩) :=
        ((holds_append (l := [c])).mp h).2
      have hlen : CString.strlen ⟨chars, hrest⟩ < fuel := by
        simp only [CString.strlen, List.length_cons] at hfuel ⊢
        omega
      have hne : m a ≠ 0 := by
        rw [hhead]
        exact (List.ne_of_not_mem_cons nonzero).symm
      rw [Mem.cstring, dif_neg hne, ih hrest htail hlen, Option.map_some]
      simp only [hhead]

end Mem

end SystemExtras
