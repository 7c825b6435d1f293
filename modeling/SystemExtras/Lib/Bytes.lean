import Mathlib.Tactic

/-!
# Byte memories and packed records

A C program that fills in an on-disk structure writes little-endian integers at
fixed offsets of a byte buffer, and one that reads it back loads them from the
same offsets.  This file is that memory, in general: a memory is a function
from addresses to bytes, `load` and `store` move `n`-byte little-endian
integers, `blit` copies a run of bytes, and a `Field` is an offset together
with a width, so that a packed `struct` is a list of fields.

Everything a client needs is stated once for all widths:

* a load sees the last store to the same range (`load_store_self`) and does not
  see a store to a disjoint range (`load_store_of_disjoint`);
* a load depends only on the bytes it covers (`load_congr`);
* two memories are equal when all their bytes are (`funext`), and storing back
  what was loaded changes nothing (`store_load`).
-/

namespace SystemExtras

/-- A byte-addressed memory. -/
abbrev Mem := ℕ → UInt8

namespace Mem

/-- The memory that `calloc` hands out. -/
def zero : Mem := fun _ => 0

/-- The `n`-byte little-endian integer at address `a`. -/
def load (m : Mem) (a : ℕ) : ℕ → ℕ
  | 0 => 0
  | n + 1 => (m a).toNat + 256 * load m (a + 1) n

/-- Writes the low `n` bytes of `v` at address `a`, little-endian. -/
def store (m : Mem) (a n v : ℕ) : Mem := fun x =>
  if a ≤ x ∧ x < a + n then UInt8.ofNat (v / 256 ^ (x - a)) else m x

/-- Copies the `len` bytes of `src` that start at `from_` to address `a`. -/
def blit (m : Mem) (a len : ℕ) (src : Mem) (from_ : ℕ) : Mem := fun x =>
  if a ≤ x ∧ x < a + len then src (from_ + (x - a)) else m x

/-- `memset`. -/
def fill (m : Mem) (a len : ℕ) (byte : UInt8) : Mem := fun x =>
  if a ≤ x ∧ x < a + len then byte else m x

/-- The `n` bytes of `m` that start at address `a`. -/
def bytes (m : Mem) (a n : ℕ) : List UInt8 := (List.range n).map fun i => m (a + i)

/-- Writes a list of bytes at address `a`. -/
def storeBytes (m : Mem) (a : ℕ) (l : List UInt8) : Mem := fun x =>
  if a ≤ x ∧ x < a + l.length then l.getD (x - a) 0 else m x

/-! ## Loads -/

theorem load_lt (m : Mem) (a n : ℕ) : load m a n < 256 ^ n := by
  induction n generalizing a with
  | zero => simp [load]
  | succ n ih =>
      have hbyte := (m a).toNat_lt
      have htail := ih (a + 1)
      simp only [load, pow_succ]
      omega

theorem load_congr {m m' : Mem} {a n : ℕ} (h : ∀ i < n, m (a + i) = m' (a + i)) :
    load m a n = load m' a n := by
  induction n generalizing a with
  | zero => rfl
  | succ n ih =>
      have hhead : m a = m' a := by simpa using h 0 (Nat.succ_pos n)
      have htail : load m (a + 1) n = load m' (a + 1) n := by
        apply ih
        intro i hi
        have := h (i + 1) (by omega)
        rwa [show a + 1 + i = a + (i + 1) by omega]
      simp only [load, hhead, htail]

/-- A load that agrees with the number `v` byte by byte is `v`, up to its width. -/
theorem load_eq_of_bytes {m : Mem} {a n v : ℕ}
    (h : ∀ i < n, m (a + i) = UInt8.ofNat (v / 256 ^ i)) : load m a n = v % 256 ^ n := by
  induction n generalizing a v with
  | zero => simp [load, Nat.mod_one]
  | succ n ih =>
      have hhead : (m a).toNat = v % 256 := by
        have := h 0 (Nat.succ_pos n)
        simp only [Nat.add_zero, pow_zero, Nat.div_one] at this
        rw [this, UInt8.toNat_ofNat']
      have htail : load m (a + 1) n = v / 256 % 256 ^ n := by
        apply ih
        intro i hi
        have := h (i + 1) (by omega)
        rw [show a + 1 + i = a + (i + 1) by omega, this, pow_succ, Nat.mul_comm,
          Nat.div_div_eq_div_mul]
      simp only [load, hhead, htail]
      rw [pow_succ, Nat.mul_comm (256 ^ n), Nat.mod_mul]

/-- The bytes of a memory are the digits of what is loaded from it. -/
theorem byte_of_load (m : Mem) (a n : ℕ) {i : ℕ} (hi : i < n) :
    m (a + i) = UInt8.ofNat (load m a n / 256 ^ i) := by
  induction n generalizing a i with
  | zero => omega
  | succ n ih =>
      have hbyte := (m a).toNat_lt
      cases i with
      | zero =>
          apply UInt8.toNat.inj
          simp only [Nat.add_zero, pow_zero, Nat.div_one, load, UInt8.toNat_ofNat']
          omega
      | succ i =>
          have hi' : i < n := by omega
          have hstep : load m a (n + 1) / 256 = load m (a + 1) n := by
            simp only [load]
            omega
          rw [pow_succ, Nat.mul_comm, ← Nat.div_div_eq_div_mul, hstep, ← ih (a + 1) hi']
          congr 1
          omega

/-- Equal loads come from equal bytes. -/
theorem bytes_eq_of_load_eq {m m' : Mem} {a n : ℕ} (h : load m a n = load m' a n)
    {i : ℕ} (hi : i < n) : m (a + i) = m' (a + i) := by
  rw [byte_of_load m a n hi, byte_of_load m' a n hi, h]

/-- A wide integer is a narrow one and the rest above it. -/
theorem load_add (m : Mem) (a n k : ℕ) :
    load m a (n + k) = load m a n + 256 ^ n * load m (a + n) k := by
  induction n generalizing a with
  | zero => simp [load]
  | succ n ih =>
      rw [Nat.succ_add, load, load, ih (a + 1), show a + 1 + n = a + (n + 1) by omega, pow_succ]
      ring

/-! ## Stores -/

theorem store_apply_of_mem {m : Mem} {a n v x : ℕ} (h₁ : a ≤ x) (h₂ : x < a + n) :
    store m a n v x = UInt8.ofNat (v / 256 ^ (x - a)) := if_pos ⟨h₁, h₂⟩

theorem store_apply_of_not_mem {m : Mem} {a n v x : ℕ} (h : x < a ∨ a + n ≤ x) :
    store m a n v x = m x := if_neg (by omega)

theorem load_store_self (m : Mem) (a n v : ℕ) : load (store m a n v) a n = v % 256 ^ n := by
  apply load_eq_of_bytes
  intro i hi
  rw [store_apply_of_mem (by omega) (by omega)]
  congr 3
  omega

theorem load_store_of_disjoint (m : Mem) {a n v b k : ℕ} (h : b + k ≤ a ∨ a + n ≤ b) :
    load (store m a n v) b k = load m b k := by
  apply load_congr
  intro i hi
  exact store_apply_of_not_mem (by omega)

/-- Storing what is already there changes nothing. -/
theorem store_of_load_eq {m : Mem} {a n v : ℕ} (h : load m a n = v % 256 ^ n) :
    store m a n v = m := by
  funext x
  by_cases hx : a ≤ x ∧ x < a + n
  · have hself : load (store m a n v) a n = load m a n := by rw [load_store_self, h]
    have := bytes_eq_of_load_eq hself (i := x - a) (by omega)
    rwa [show a + (x - a) = x by omega] at this
  · exact store_apply_of_not_mem (by omega)

theorem store_load (m : Mem) (a n : ℕ) : store m a n (load m a n) = m :=
  store_of_load_eq (Nat.mod_eq_of_lt (load_lt m a n)).symm

/-! ## Runs of bytes -/

theorem blit_apply_of_mem {m : Mem} {a len : ℕ} {src : Mem} {from_ x : ℕ} (h₁ : a ≤ x)
    (h₂ : x < a + len) : blit m a len src from_ x = src (from_ + (x - a)) := if_pos ⟨h₁, h₂⟩

theorem blit_apply_of_not_mem {m : Mem} {a len : ℕ} {src : Mem} {from_ x : ℕ}
    (h : x < a ∨ a + len ≤ x) : blit m a len src from_ x = m x := if_neg (by omega)

theorem fill_apply_of_not_mem {m : Mem} {a len x : ℕ} {byte : UInt8} (h : x < a ∨ a + len ≤ x) :
    fill m a len byte x = m x := if_neg (by omega)

theorem storeBytes_apply_of_not_mem {m : Mem} {a x : ℕ} {l : List UInt8}
    (h : x < a ∨ a + l.length ≤ x) : storeBytes m a l x = m x := if_neg (by omega)

theorem bytes_congr {m m' : Mem} {a n : ℕ} (h : ∀ i < n, m' (a + i) = m (a + i)) :
    bytes m' a n = bytes m a n :=
  List.map_congr_left fun i hi => h i (List.mem_range.mp hi)

/-- What has been written is read back. -/
theorem bytes_storeBytes_self (m : Mem) (a : ℕ) (l : List UInt8) :
    bytes (storeBytes m a l) a l.length = l := by
  refine List.ext_getElem (by simp [bytes]) fun i h₁ h₂ => ?_
  simp [bytes, storeBytes, h₂]

theorem load_blit_of_disjoint (m : Mem) {a len : ℕ} {src : Mem} {from_ b k : ℕ}
    (h : b + k ≤ a ∨ a + len ≤ b) : load (blit m a len src from_) b k = load m b k := by
  apply load_congr
  intro i hi
  exact blit_apply_of_not_mem (by omega)

theorem load_blit_of_mem (m : Mem) {a len : ℕ} {src : Mem} {from_ b k : ℕ} (h₁ : a ≤ b)
    (h₂ : b + k ≤ a + len) :
    load (blit m a len src from_) b k = load src (from_ + (b - a)) k := by
  have hshift : ∀ i < k, blit m a len src from_ (b + i) = src (from_ + (b - a) + i) := by
    intro i hi
    rw [blit_apply_of_mem (by omega) (by omega)]
    congr 1
    omega
  clear h₁ h₂
  revert hshift
  generalize blit m a len src from_ = m'
  generalize from_ + (b - a) = c
  induction k generalizing b c with
  | zero => intro _; rfl
  | succ k ih =>
      intro hshift
      have hhead : m' b = src c := by simpa using hshift 0 (Nat.succ_pos k)
      have htail : load m' (b + 1) k = load src (c + 1) k := by
        apply ih
        intro i hi
        have := hshift (i + 1) (by omega)
        rwa [show b + 1 + i = b + (i + 1) by omega, show c + 1 + i = c + (i + 1) by omega]
      simp only [load, hhead, htail]

end Mem

/-! ## Packed records -/

/-- A member of a packed C structure: its offset and its width in bytes. -/
structure Field where
  offset : ℕ
  width : ℕ
  deriving DecidableEq, Repr

namespace Field

/-- The member in the structure that starts at `base`. -/
def at_ (f : Field) (base : ℕ) : Field := ⟨base + f.offset, f.width⟩

/-- Reads the member. -/
def get (f : Field) (m : Mem) : ℕ := m.load f.offset f.width

/-- Assigns the member; the value is cut to its width as C does. -/
def set (f : Field) (m : Mem) (v : ℕ) : Mem := m.store f.offset f.width v

/-- Two members that share no byte. -/
def Disjoint (f g : Field) : Prop := f.offset + f.width ≤ g.offset ∨ g.offset + g.width ≤ f.offset

instance (f g : Field) : Decidable (f.Disjoint g) :=
  inferInstanceAs (Decidable (_ ∨ _))

theorem get_lt (f : Field) (m : Mem) : f.get m < 256 ^ f.width := Mem.load_lt m _ _

@[simp] theorem get_set_self (f : Field) (m : Mem) (v : ℕ) :
    f.get (f.set m v) = v % 256 ^ f.width := Mem.load_store_self m _ _ _

theorem get_set_of_disjoint {f g : Field} (h : f.Disjoint g) (m : Mem) (v : ℕ) :
    f.get (g.set m v) = f.get m := Mem.load_store_of_disjoint m h

end Field

/-- A run of assignments to members of one structure. -/
def Mem.assign (m : Mem) (l : List (Field × ℕ)) : Mem :=
  l.foldl (fun m p => p.1.set m p.2) m

theorem Mem.assign_cons (m : Mem) (p : Field × ℕ) (l : List (Field × ℕ)) :
    m.assign (p :: l) = (p.1.set m p.2).assign l := rfl

/-- Assigning members what they are. -/
theorem Mem.assign_get (m : Mem) (fs : List Field) :
    m.assign (fs.map fun f => (f, f.get m)) = m := by
  induction fs with
  | nil => rfl
  | cons f rest ih =>
      have hset : f.set m (f.get m) = m := Mem.store_load m _ _
      rw [List.map_cons, Mem.assign_cons, hset, ih]

/-- Assignments change the bytes of their members only. -/
theorem Mem.assign_apply_of_not_mem {l : List (Field × ℕ)} {x : ℕ}
    (h : ∀ p ∈ l, x < p.1.offset ∨ p.1.offset + p.1.width ≤ x) (m : Mem) : m.assign l x = m x := by
  induction l generalizing m with
  | nil => rfl
  | cons p rest ih =>
      rw [Mem.assign_cons, ih (fun q hq => h q (List.mem_cons_of_mem _ hq))]
      exact Mem.store_apply_of_not_mem (h p List.mem_cons_self)

/-- A byte after assignments depends on what it was. -/
theorem Mem.assign_congr_at {m m' : Mem} {l : List (Field × ℕ)} {x : ℕ} (h : m x = m' x) :
    m.assign l x = m'.assign l x := by
  induction l generalizing m m' with
  | nil => exact h
  | cons p rest ih =>
      rw [Mem.assign_cons, Mem.assign_cons]
      apply ih
      simp only [Field.set, Mem.store, h]

/-- The two memories have the same bytes in `[lo, hi)`. -/
def Mem.SameOn (m m' : Mem) (lo hi : ℕ) : Prop := ∀ x, lo ≤ x → x < hi → m x = m' x

theorem Mem.SameOn.symm {m m' : Mem} {lo hi : ℕ} (h : m.SameOn m' lo hi) : m'.SameOn m lo hi :=
  fun x h₁ h₂ => (h x h₁ h₂).symm

theorem Mem.SameOn.trans {m m' m'' : Mem} {lo hi : ℕ} (h : m.SameOn m' lo hi)
    (h' : m'.SameOn m'' lo hi) : m.SameOn m'' lo hi :=
  fun x h₁ h₂ => (h x h₁ h₂).trans (h' x h₁ h₂)

theorem Mem.SameOn.mono {m m' : Mem} {lo hi lo' hi' : ℕ} (h : m.SameOn m' lo hi) (hlo : lo ≤ lo')
    (hhi : hi' ≤ hi) : m.SameOn m' lo' hi' :=
  fun x h₁ h₂ => h x (hlo.trans h₁) (h₂.trans_le hhi)

/-- A member that lies in a range reads the same in memories that agree there. -/
theorem Field.get_congr {f : Field} {m m' : Mem} {lo hi : ℕ} (h : m.SameOn m' lo hi)
    (hlo : lo ≤ f.offset) (hhi : f.offset + f.width ≤ hi) : f.get m = f.get m' :=
  Mem.load_congr fun i hi => h _ (by omega) (by omega)

/-- A member that no later assignment touches keeps its value. -/
theorem Field.get_assign_of_disjoint {f : Field} {l : List (Field × ℕ)}
    (h : ∀ p ∈ l, f.Disjoint p.1) (m : Mem) : f.get (m.assign l) = f.get m := by
  induction l generalizing m with
  | nil => rfl
  | cons p rest ih =>
      rw [Mem.assign_cons, ih (fun q hq => h q (List.mem_cons_of_mem _ hq)),
        Field.get_set_of_disjoint (h p List.mem_cons_self)]

/-- After assignments to distinct members, each holds what it was assigned. -/
theorem Field.get_assign {l : List (Field × ℕ)} (hl : (l.map Prod.fst).Pairwise Field.Disjoint)
    {f : Field} {v : ℕ} (i : ℕ) (hi : l[i]? = some (f, v)) (m : Mem) :
    f.get (m.assign l) = v % 256 ^ f.width := by
  induction l generalizing i m with
  | nil => simp at hi
  | cons p rest ih =>
      rw [List.map_cons, List.pairwise_cons] at hl
      cases i with
      | zero =>
          obtain rfl : p = (f, v) := by simpa using hi
          rw [Mem.assign_cons, Field.get_assign_of_disjoint, Field.get_set_self]
          exact fun q hq => hl.1 q.1 (List.mem_map_of_mem hq)
      | succ i =>
          rw [Mem.assign_cons]
          exact ih hl.2 i (by simpa using hi) _

end SystemExtras
