import Mathlib.Tactic

/-!
# SHA-1

The hash of a message that is there as a whole, as the standard defines it, with a schedule of
eighty words for each block.  It can be made piece by piece: what is hashed behind a part of a
message only has to be hashed together with what that part left over (`hashBlocks_append`).
-/

namespace SystemExtras.Sha1

/-- A word. -/
abbrev Word := BitVec 32

/-- Four bytes as a word, the first one on top. -/
def word (b₀ b₁ b₂ b₃ : UInt8) : Word := b₀.toBitVec ++ b₁.toBitVec ++ b₂.toBitVec ++ b₃.toBitVec

/-- The five words that a hash goes on with. -/
structure State where
  a : Word
  b : Word
  c : Word
  d : Word
  e : Word
  deriving DecidableEq

/-- What a hash starts with. -/
def initial : State := ⟨0x67452301#32, 0xEFCDAB89#32, 0x98BADCFE#32, 0x10325476#32, 0xC3D2E1F0#32⟩

/-- The words of the schedule of a block. -/
def schedule (block : List UInt8) (t : ℕ) : Word :=
  if h : t < 16 then
    word (block.getD (4 * t) 0) (block.getD (4 * t + 1) 0) (block.getD (4 * t + 2) 0)
      (block.getD (4 * t + 3) 0)
  else
    (schedule block (t - 3) ^^^ schedule block (t - 8) ^^^ schedule block (t - 14) ^^^
      schedule block (t - 16)).rotateLeft 1
termination_by t

/-- The functions `f`. -/
def logical (t : ℕ) (b c d : Word) : Word :=
  if t < 20 then (b &&& c) ||| (~~~b &&& d)
  else if t < 40 then b ^^^ c ^^^ d
  else if t < 60 then (b &&& c) ||| (b &&& d) ||| (c &&& d)
  else b ^^^ c ^^^ d

/-- The constants `K`. -/
def constant (t : ℕ) : Word :=
  if t < 20 then 0x5A827999#32
  else if t < 40 then 0x6ED9EBA1#32
  else if t < 60 then 0x8F1BBCDC#32
  else 0xCA62C1D6#32

/-- The variables after the first `n` rounds. -/
def working (state : State) (block : List UInt8) : ℕ → State
  | 0 => state
  | t + 1 =>
      let s := working state block t
      ⟨s.a.rotateLeft 5 + logical t s.b s.c s.d + s.e + schedule block t + constant t, s.a,
        s.b.rotateLeft 30, s.c, s.d⟩

/-- A block is hashed. -/
def compress (state : State) (block : List UInt8) : State :=
  let s := working state block 80
  ⟨state.a + s.a, state.b + s.b, state.c + s.c, state.d + s.d, state.e + s.e⟩

/-- All blocks that are full. -/
def hashBlocks (state : State) (data : List UInt8) : State :=
  if 64 ≤ data.length then hashBlocks (compress state (data.take 64)) (data.drop 64) else state
termination_by data.length
decreasing_by rw [List.length_drop]; omega

/-- The length in bits, in eight bytes. -/
def lengthBytes (length : ℕ) : List UInt8 :=
  (List.range 8).map fun i => UInt8.ofNat (8 * length / 2 ^ (8 * (7 - i)))

/-- A message with its padding. -/
def padded (message : List UInt8) : List UInt8 :=
  message ++ [0x80] ++ List.replicate ((119 - message.length % 64) % 64) 0 ++
    lengthBytes message.length

/-- The hash of a message. -/
def hash (message : List UInt8) : List UInt8 :=
  let s := hashBlocks initial (padded message)
  [s.a, s.b, s.c, s.d, s.e].flatMap fun w =>
    (List.range 4).map fun i => UInt8.ofNat (w.toNat / 2 ^ (8 * (3 - i)))

/-! ## The logical functions -/

theorem choose_eq (b c d : Word) : (b &&& (c ^^^ d)) ^^^ d = (b &&& c) ||| (~~~b &&& d) := by
  apply BitVec.eq_of_getLsbD_eq
  intro i hi
  simp only [BitVec.getLsbD_xor, BitVec.getLsbD_and, BitVec.getLsbD_or, BitVec.getLsbD_not, hi,
    decide_true, Bool.true_and]
  cases b.getLsbD i <;> cases c.getLsbD i <;> cases d.getLsbD i <;> rfl

theorem majority_eq (b c d : Word) :
    ((b ||| c) &&& d) ||| (b &&& c) = (b &&& c) ||| (b &&& d) ||| (c &&& d) := by
  apply BitVec.eq_of_getLsbD_eq
  intro i hi
  simp only [BitVec.getLsbD_and, BitVec.getLsbD_or]
  cases b.getLsbD i <;> cases c.getLsbD i <;> cases d.getLsbD i <;> rfl

/-! ## A message in two parts -/

/-- What is left of a message behind its full blocks. -/
def tail (data : List UInt8) : List UInt8 := data.drop (64 * (data.length / 64))

theorem length_tail (data : List UInt8) : (tail data).length = data.length % 64 := by
  rw [tail, List.length_drop]
  omega

theorem tail_of_lt {data : List UInt8} (h : data.length < 64) : tail data = data := by
  rw [tail, Nat.div_eq_of_lt h, Nat.mul_zero, List.drop_zero]

theorem tail_of_le {data : List UInt8} (h : 64 ≤ data.length) :
    tail data = tail (data.drop 64) := by
  rw [tail, tail, List.drop_drop, List.length_drop]
  congr 1
  omega

theorem hashBlocks_of_lt (state : State) {data : List UInt8} (h : data.length < 64) :
    hashBlocks state data = state := by
  rw [hashBlocks, if_neg (by omega)]

theorem hashBlocks_of_le (state : State) {data : List UInt8} (h : 64 ≤ data.length) :
    hashBlocks state data = hashBlocks (compress state (data.take 64)) (data.drop 64) := by
  rw [hashBlocks, if_pos h]

/-- The hash goes on behind a message with what was left of it. -/
theorem hashBlocks_append (state : State) (a b : List UInt8) :
    hashBlocks state (a ++ b) = hashBlocks (hashBlocks state a) (tail a ++ b) := by
  fun_induction hashBlocks state a with
  | case1 state a hle ih =>
      have hlen : 64 ≤ (a ++ b).length := by
        rw [List.length_append]
        omega
      rw [hashBlocks_of_le state hlen, List.take_append_of_le_length hle,
        List.drop_append_of_le_length hle, ih, tail_of_le hle]
  | case2 state a hlt => rw [tail_of_lt (by omega)]

theorem tail_append (a b : List UInt8) : tail (a ++ b) = tail (tail a ++ b) := by
  induction hn : a.length using Nat.strong_induction_on generalizing a with
  | _ n ih =>
      by_cases hlt : a.length < 64
      · rw [tail_of_lt hlt]
      · have hle : 64 ≤ a.length := by omega
        have hlen : 64 ≤ (a ++ b).length := by
          rw [List.length_append]
          omega
        have hdrop : (a.drop 64).length < n := by
          rw [List.length_drop]
          omega
        rw [tail_of_le hlen, List.drop_append_of_le_length hle, ih _ hdrop _ rfl, tail_of_le hle]

theorem length_hash (message : List UInt8) : (hash message).length = 20 := by
  simp [hash]

end SystemExtras.Sha1
