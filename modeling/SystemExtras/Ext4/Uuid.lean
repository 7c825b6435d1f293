import Mathlib.Tactic.IntervalCases
import SystemExtras.Lib.Records
import SystemExtras.Lib.Sha1
import SystemExtras.Lib.Words

/-!
# The name of a filesystem

`generate_uuid` makes the uuid of a filesystem from its label, with the SHA-1 of `sha1.c`.

The code expands the message schedule in sixteen words while it goes through the rounds, and
it does not move its five variables but renames them: round `i` is called with the names
rotated by `i` (`name`).  A digest that is made with any sequence of calls of `SHA1Update` is
the hash of what they were given, one behind the other (`sha1Final_updates`).  No call may be
given `2 ^ 29` bytes or more: the high word of the bit count would miss a carry.
-/

namespace SystemExtras.Sha1

/-! ## The code of `sha1.c` -/

/-- The macro `rol`. -/
def rol (value : Word) (bits : ℕ) : Word := (value <<< bits) ||| (value >>> (32 - bits))

/-- `SHA1_CTX`. -/
structure Ctx where
  state : State
  count0 : ℕ
  count1 : ℕ
  buffer : List UInt8

/-- `block->l`, on a machine that has the first byte of a word at the bottom. -/
def load (buffer : List UInt8) : Vector Word 16 := Vector.ofFn fun i =>
  word (buffer.getD (4 * i + 3) 0) (buffer.getD (4 * i + 2) 0) (buffer.getD (4 * i + 1) 0)
    (buffer.getD (4 * i) 0)

/-- The macro `blk0`: a word with its bytes turned around. -/
def blk0 (l : Vector Word 16) (i : ℕ) : Word :=
  (rol (l.get (Fin.ofNat 16 i)) 24 &&& 0xFF00FF00#32) |||
    (rol (l.get (Fin.ofNat 16 i)) 8 &&& 0x00FF00FF#32)

/-- The macro `blk`. -/
def blk (l : Vector Word 16) (i : ℕ) : Word :=
  rol (l.get (Fin.ofNat 16 (i + 13)) ^^^ l.get (Fin.ofNat 16 (i + 8)) ^^^
    l.get (Fin.ofNat 16 (i + 2)) ^^^ l.get (Fin.ofNat 16 i)) 1

/-- Assigns to a word of a block, or to a variable. -/
def put {n : ℕ} (v : Vector Word n) (i : Fin n) (x : Word) : Vector Word n := v.set i x

/-- The names `v`, `w`, `x`, `y` and `z` of round `i` among the variables `a` to `e`. -/
def name (i : ℕ) (n : Fin 5) : Fin 5 := n - Fin.ofNat 5 i

/-- The macros `R0` to `R4`: `z` and `w` change, and nothing else. -/
def round (f : Word → Word → Word → Word) (k : Word) (i : ℕ) (x : Word) (r : Vector Word 5) :
    Vector Word 5 :=
  put (put r (name i 4) (r.get (name i 4) + (f (r.get (name i 1)) (r.get (name i 2))
    (r.get (name i 3)) + x + k + rol (r.get (name i 0)) 5))) (name i 1) (rol (r.get (name i 1)) 30)

/-- The `i`-th of the rounds that are written out. -/
def step (i : ℕ) (s : Vector Word 5 × Vector Word 16) : Vector Word 5 × Vector Word 16 :=
  let x := if i < 16 then blk0 s.2 i else blk s.2 i
  let r :=
    if i < 20 then round (fun w x y => (w &&& (x ^^^ y)) ^^^ y) 0x5A827999#32 i x s.1
    else if i < 40 then round (fun w x y => w ^^^ x ^^^ y) 0x6ED9EBA1#32 i x s.1
    else if i < 60 then round (fun w x y => ((w ||| x) &&& y) ||| (w &&& x)) 0x8F1BBCDC#32 i x s.1
    else round (fun w x y => w ^^^ x ^^^ y) 0xCA62C1D6#32 i x s.1
  (r, put s.2 (Fin.ofNat 16 i) x)

/-- The rounds up to the `n`-th. -/
def rounds (state : State) (buffer : List UInt8) : ℕ → Vector Word 5 × Vector Word 16
  | 0 => (#v[state.a, state.b, state.c, state.d, state.e], load buffer)
  | n + 1 => step n (rounds state buffer n)

/-- `SHA1Transform`. -/
def sha1Transform (state : State) (buffer : List UInt8) : State :=
  let r := (rounds state buffer 80).1
  ⟨state.a + r.get 0, state.b + r.get 1, state.c + r.get 2, state.d + r.get 3, state.e + r.get 4⟩

/-- `SHA1Init`; `buffer` is what was in the memory of the context. -/
def sha1Init (buffer : List UInt8) : Ctx :=
  ⟨⟨0x67452301#32, 0xEFCDAB89#32, 0x98BADCFE#32, 0x10325476#32, 0xC3D2E1F0#32⟩, 0, 0, buffer⟩

/-- The loop of `SHA1Update`, from `i` on. -/
def updateLoop (data : List UInt8) : ℕ → ℕ → State → ℕ × State
  | 0, i, state => (i, state)
  | fuel + 1, i, state =>
      if i + 63 < data.length then
        updateLoop data fuel (i + 64) (sha1Transform state ((data.drop i).take 64))
      else (i, state)

/-- `SHA1Update`, with data of less than `2 ^ 32` bytes. -/
def sha1Update (context : Ctx) (data : List UInt8) : Ctx :=
  let j := context.count0
  let count0 := u32 (j + data.length <<< 3)
  let count1 :=
    if count0 < j then u32 (context.count1 + (data.length >>> 29 + 1)) else context.count1
  let j := (j >>> 3) &&& 63
  if u32 (j + data.length) > 63 then
    let i := 64 - j
    let buffer := context.buffer.take j ++ data.take i
    let (i, state) := updateLoop data data.length i (sha1Transform context.state buffer)
    ⟨state, count0, count1, data.drop i ++ buffer.drop (data.length - i)⟩
  else
    ⟨context.state, count0, count1,
      context.buffer.take j ++ data ++ context.buffer.drop (j + data.length)⟩

/-- The loop of `SHA1Final`. -/
def padLoop : ℕ → Ctx → Ctx
  | 0, context => context
  | fuel + 1, context =>
      if context.count0 &&& 504 ≠ 448 then padLoop fuel (sha1Update context [0]) else context

/-- The bytes of a digest. -/
def digest (state : State) : List UInt8 :=
  (List.range 20).map fun i =>
    UInt8.ofNat
      ((#v[state.a, state.b, state.c, state.d, state.e].get (Fin.ofNat 5 (i / 4))).toNat >>>
        ((3 - i % 4) * 8))

/-- The bit count as it is hashed. -/
def finalCount (count0 count1 : ℕ) : List UInt8 :=
  (List.range 8).map fun i => UInt8.ofNat ((if i ≥ 4 then count0 else count1) >>> ((3 - i % 4) * 8))

/-- `SHA1Final`.  The loop has at most one round for each byte of a block. -/
def sha1Final (context : Ctx) : List UInt8 :=
  digest (sha1Update (padLoop 64 (sha1Update context [0x80]))
    (finalCount context.count0 context.count1)).state

/-! ## A block -/

theorem get_put {n : ℕ} (v : Vector Word n) (i j : Fin n) (x : Word) :
    (put v i x).get j = if i = j then x else v.get j := by
  change (v.set i.1 x)[j.1] = if i = j then x else v[j.1]
  rw [Vector.getElem_set]
  simp only [Fin.ext_iff]

theorem rol_eq (x : Word) {n : ℕ} (h : n < 32) : rol x n = x.rotateLeft n := by
  rw [BitVec.rotateLeft_def, Nat.mod_eq_of_lt h, rol]

/-- The bytes of a word are turned around. -/
theorem swap_word (b₀ b₁ b₂ b₃ : UInt8) :
    (rol (word b₃ b₂ b₁ b₀) 24 &&& 0xFF00FF00#32) ||| (rol (word b₃ b₂ b₁ b₀) 8 &&& 0x00FF00FF#32) =
      word b₀ b₁ b₂ b₃ := by
  apply BitVec.eq_of_getLsbD_eq
  intro i hi
  simp only [word, rol, BitVec.getLsbD_or, BitVec.getLsbD_and, BitVec.getLsbD_shiftLeft,
    BitVec.getLsbD_ushiftRight, BitVec.getLsbD_append]
  interval_cases i <;> simp

theorem name_ne (i : ℕ) {n m : Fin 5} (h : n ≠ m) : name i n ≠ name i m := by
  have hall : ∀ k n m : Fin 5, n ≠ m → n - k ≠ m - k := by decide
  exact hall _ n m h

theorem name_succ (i : ℕ) (n : Fin 5) : name (i + 1) n = name i (n - 1) := by
  have hall : ∀ k n : Fin 5, n - (k + 1) = n - 1 - k := by decide
  have hsucc : Fin.ofNat 5 (i + 1) = Fin.ofNat 5 i + 1 := by
    apply Fin.ext
    simp [Fin.ofNat, Fin.val_add]
  rw [name, hsucc, hall]
  rfl

/-- The variables under the names of round `i`. -/
def view (i : ℕ) (r : Vector Word 5) : State :=
  ⟨r.get (name i 0), r.get (name i 1), r.get (name i 2), r.get (name i 3), r.get (name i 4)⟩

theorem view_round (f : Word → Word → Word → Word) (k : Word) (i : ℕ) (x : Word)
    (r : Vector Word 5) :
    view (i + 1) (round f k i x r) =
      ⟨(view i r).a.rotateLeft 5 + f (view i r).b (view i r).c (view i r).d + (view i r).e + x + k,
        (view i r).a, (view i r).b.rotateLeft 30, (view i r).c, (view i r).d⟩ := by
  have h₀ : name (i + 1) 0 = name i 4 := name_succ i 0
  have h₁ : name (i + 1) 1 = name i 0 := name_succ i 1
  have h₂ : name (i + 1) 2 = name i 1 := name_succ i 2
  have h₃ : name (i + 1) 3 = name i 2 := name_succ i 3
  have h₄ : name (i + 1) 4 = name i 3 := name_succ i 4
  unfold view round
  rw [rol_eq _ (by decide), rol_eq _ (by decide)]
  rw [h₀, h₁, h₂, h₃, h₄]
  simp only [get_put, if_pos, if_neg (name_ne i (by decide : (1 : Fin 5) ≠ 4)),
    if_neg (name_ne i (by decide : (1 : Fin 5) ≠ 0)),
    if_neg (name_ne i (by decide : (4 : Fin 5) ≠ 0)),
    if_neg (name_ne i (by decide : (1 : Fin 5) ≠ 2)),
    if_neg (name_ne i (by decide : (4 : Fin 5) ≠ 2)),
    if_neg (name_ne i (by decide : (1 : Fin 5) ≠ 3)),
    if_neg (name_ne i (by decide : (4 : Fin 5) ≠ 3))]
  congr 1
  ac_rfl

/-- Before round `i` the block has the last sixteen words of the schedule, as far as there are any,
and behind them what was loaded. -/
structure BlockOk (buffer : List UInt8) (i : ℕ) (l : Vector Word 16) : Prop where
  done : ∀ t < i, i ≤ t + 16 → l.get (Fin.ofNat 16 t) = schedule buffer t
  todo : ∀ t, i ≤ t → t < 16 → l.get (Fin.ofNat 16 t) = (load buffer).get (Fin.ofNat 16 t)

theorem ofNat_ne {s t : ℕ} (h : s % 16 ≠ t % 16) : Fin.ofNat 16 s ≠ Fin.ofNat 16 t :=
  fun heq => h (congrArg Fin.val heq)

theorem get_load (buffer : List UInt8) (i : Fin 16) :
    (load buffer).get i = word (buffer.getD (4 * i + 3) 0) (buffer.getD (4 * i + 2) 0)
      (buffer.getD (4 * i + 1) 0) (buffer.getD (4 * i) 0) := by
  change (load buffer)[i.1] = _
  simp only [load, Vector.getElem_ofFn]

theorem BlockOk.blk0_eq {buffer : List UInt8} {i : ℕ} {l : Vector Word 16} (h : BlockOk buffer i l)
    (hi : i < 16) : blk0 l i = schedule buffer i := by
  have hmod : i % 16 = i := Nat.mod_eq_of_lt hi
  have hget : l.get (Fin.ofNat 16 i) = word (buffer.getD (4 * i + 3) 0) (buffer.getD (4 * i + 2) 0)
      (buffer.getD (4 * i + 1) 0) (buffer.getD (4 * i) 0) := by
    rw [h.todo i le_rfl hi, get_load, Fin.val_ofNat, hmod]
  rw [blk0, hget, schedule, dif_pos hi]
  exact swap_word _ _ _ _

theorem BlockOk.blk_eq {buffer : List UInt8} {i : ℕ} {l : Vector Word 16} (h : BlockOk buffer i l)
    (hi : ¬ i < 16) : blk l i = schedule buffer i := by
  have hback : ∀ k n, k + n = 16 → 1 ≤ n → Fin.ofNat 16 (i + k) = Fin.ofNat 16 (i - n) := by
    intro k n hsum hn
    apply Fin.ext
    simp only [Fin.val_ofNat]
    omega
  have hzero : Fin.ofNat 16 i = Fin.ofNat 16 (i - 16) := hback 0 16 rfl (by decide)
  rw [blk, hback 13 3 rfl (by decide), hback 8 8 rfl (by decide), hback 2 14 rfl (by decide), hzero,
    h.done _ (by omega) (by omega), h.done _ (by omega) (by omega), h.done _ (by omega) (by omega),
    h.done _ (by omega) (by omega), rol_eq _ (by decide)]
  conv_rhs => rw [schedule, dif_neg hi]

theorem BlockOk.put {buffer : List UInt8} {i : ℕ} {l : Vector Word 16} (h : BlockOk buffer i l) :
    BlockOk buffer (i + 1) (Sha1.put l (Fin.ofNat 16 i) (schedule buffer i)) := by
  refine ⟨fun t hlt hge => ?_, fun t hle hlt => ?_⟩
  · rw [get_put]
    by_cases hti : t = i
    · rw [if_pos (congrArg _ hti.symm), hti]
    · rw [if_neg (ofNat_ne (by omega)), h.done t (by omega) (by omega)]
  · rw [get_put, if_neg (ofNat_ne (by omega)), h.todo t (by omega) hlt]

theorem rounds_spec (state : State) (buffer : List UInt8) (n : ℕ) :
    view n (rounds state buffer n).1 = working state buffer n ∧
      BlockOk buffer n (rounds state buffer n).2 := by
  induction n with
  | zero => exact ⟨rfl, fun t ht => absurd ht (Nat.not_lt_zero t), fun _ _ _ => rfl⟩
  | succ n ih =>
      obtain ⟨hview, hblock⟩ := ih
      have hword : (if n < 16 then blk0 (rounds state buffer n).2 n
          else blk (rounds state buffer n).2 n) = schedule buffer n := by
        split
        · rename_i hn
          exact hblock.blk0_eq hn
        · rename_i hn
          exact hblock.blk_eq hn
      simp only [rounds, step, hword, working]
      refine ⟨?_, hblock.put⟩
      rw [← hview]
      unfold logical constant
      split
      · rw [view_round, choose_eq]
      · split
        · rw [view_round]
        · split
          · rw [view_round, majority_eq]
          · rw [view_round]

theorem sha1Transform_eq (state : State) (buffer : List UInt8) :
    sha1Transform state buffer = compress state buffer := by
  obtain ⟨hview, -⟩ := rounds_spec state buffer 80
  unfold compress
  rw [← hview]
  rfl

/-! ## A context -/

/-- The loop takes all blocks that are full. -/
theorem updateLoop_spec (data : List UInt8) (fuel i : ℕ) (state : State)
    (hfuel : data.length ≤ i + fuel) (hi : i ≤ data.length) :
    (updateLoop data fuel i state).2 = hashBlocks state (data.drop i) ∧
      data.drop (updateLoop data fuel i state).1 = tail (data.drop i) := by
  induction fuel generalizing i state with
  | zero =>
      have hlt : (data.drop i).length < 64 := by
        rw [List.length_drop]
        omega
      exact ⟨(hashBlocks_of_lt state hlt).symm, (tail_of_lt hlt).symm⟩
  | succ fuel ih =>
      by_cases hmore : i + 63 < data.length
      · have hle : 64 ≤ (data.drop i).length := by
          rw [List.length_drop]
          omega
        obtain ⟨hstate, hdata⟩ := ih (i + 64) (sha1Transform state ((data.drop i).take 64))
          (by omega) (by omega)
        simp only [updateLoop, if_pos hmore]
        rw [hashBlocks_of_le state hle, tail_of_le hle, List.drop_drop, ← sha1Transform_eq]
        exact ⟨hstate, hdata⟩
      · have hlt : (data.drop i).length < 64 := by
          rw [List.length_drop]
          omega
        simp only [updateLoop, if_neg hmore]
        exact ⟨(hashBlocks_of_lt state hlt).symm, (tail_of_lt hlt).symm⟩

/-- The context has been given this message. -/
structure Ctx.Holds (context : Ctx) (message : List UInt8) : Prop where
  state_eq : context.state = hashBlocks initial message
  count0_eq : context.count0 = u32 (8 * message.length)
  count1_eq : context.count1 = u32 (8 * message.length / 2 ^ 32)
  length_buffer : context.buffer.length = 64
  take_buffer : context.buffer.take (message.length % 64) = tail message

theorem and_63 (n : ℕ) : n &&& 63 = n % 64 := Nat.and_two_pow_sub_one_eq_mod n 6

theorem holds_sha1Init {buffer : List UInt8} (h : buffer.length = 64) :
    (sha1Init buffer).Holds [] where
  state_eq := (hashBlocks_of_lt _ (by decide)).symm
  count0_eq := rfl
  count1_eq := rfl
  length_buffer := h
  take_buffer := rfl

theorem Ctx.Holds.index {context : Ctx} {message : List UInt8} (h : context.Holds message) :
    (context.count0 >>> 3) &&& 63 = message.length % 64 := by
  rw [h.count0_eq, and_63, Nat.shiftRight_eq_div_pow, u32]
  omega

/-- The count of the bits, with the carry. -/
theorem count_update (length n : ℕ) (h : n < 2 ^ 29) :
    u32 (u32 (8 * length) + n <<< 3) = u32 (8 * (length + n)) ∧
      (if u32 (u32 (8 * length) + n <<< 3) < u32 (8 * length) then
        u32 (u32 (8 * length / 2 ^ 32) + (n >>> 29 + 1)) else u32 (8 * length / 2 ^ 32)) =
        u32 (8 * (length + n) / 2 ^ 32) := by
  have hhigh : n >>> 29 = 0 := by
    rw [Nat.shiftRight_eq_div_pow, Nat.div_eq_of_lt h]
  rw [hhigh, Nat.shiftLeft_eq]
  unfold u32
  constructor
  · omega
  · split <;> omega

/-- `SHA1Update` puts its data behind the message. -/
theorem Ctx.Holds.sha1Update {context : Ctx} {message : List UInt8} (h : context.Holds message)
    {data : List UInt8} (hdata : data.length < 2 ^ 29) :
    (sha1Update context data).Holds (message ++ data) := by
  obtain ⟨hcount0, hcount1⟩ := count_update message.length data.length hdata
  rw [hcount0] at hcount1
  have hindex := h.index
  rw [h.count0_eq] at hindex
  have hj : message.length % 64 < 64 := Nat.mod_lt _ (by decide)
  have hu : u32 (message.length % 64 + data.length) = message.length % 64 + data.length :=
    u32_of_lt (by omega)
  have htail := length_tail message
  have hstate : hashBlocks initial (message ++ data) =
      hashBlocks context.state (tail message ++ data) := by
    rw [hashBlocks_append, h.state_eq]
  have hlen : (message ++ data).length = message.length + data.length := List.length_append
  have hbuffer := h.length_buffer
  by_cases hfull : message.length % 64 + data.length > 63
  · -- The block is filled, and the loop takes the blocks behind it.
    have hlen64 : 64 ≤ (tail message ++ data).length := by
      rw [List.length_append]
      omega
    have htake : (tail message ++ data).take 64 =
        tail message ++ data.take (64 - message.length % 64) := by
      rw [List.take_append, htail, List.take_of_length_le (by omega)]
    have hdrop : (tail message ++ data).drop 64 = data.drop (64 - message.length % 64) := by
      rw [List.drop_append, htail, List.drop_of_length_le (by omega), List.nil_append]
    have hloop := updateLoop_spec data data.length (64 - message.length % 64)
      (sha1Transform context.state (tail message ++ data.take (64 - message.length % 64)))
      (by omega) (by omega)
    generalize hrest : updateLoop data data.length (64 - message.length % 64)
      (sha1Transform context.state (tail message ++ data.take (64 - message.length % 64))) = rest
      at hloop
    obtain ⟨hdone, hleft⟩ := hloop
    have hnew : Sha1.sha1Update context data =
        ⟨rest.2, u32 (8 * (message.length + data.length)),
          u32 (8 * (message.length + data.length) / 2 ^ 32),
          data.drop rest.1 ++ (tail message ++ data.take (64 - message.length % 64)).drop
            (data.length - rest.1)⟩ := by
      simp only [Sha1.sha1Update, h.count0_eq, h.count1_eq, hindex, hu, if_pos hfull, h.take_buffer,
        hrest, hcount0, hcount1]
    have hrestTail : data.drop rest.1 = tail (message ++ data) := by
      rw [hleft, tail_append, tail_of_le hlen64, hdrop]
    have hrestLen : data.length - rest.1 = (message.length + data.length) % 64 := by
      rw [← List.length_drop, hrestTail, length_tail, hlen]
    have hblock : (tail message ++ data.take (64 - message.length % 64)).length = 64 := by
      rw [List.length_append, htail, List.length_take]
      omega
    rw [hnew]
    refine ⟨?_, by rw [hlen], by rw [hlen], ?_, ?_⟩
    · rw [hstate, hashBlocks_of_le _ hlen64, htake, hdrop, ← sha1Transform_eq]
      exact hdone
    · rw [List.length_append, List.length_drop, List.length_drop, hblock, hrestLen]
      omega
    · have hlast : (data.drop rest.1).length = (message ++ data).length % 64 := by
        rw [List.length_drop, hrestLen, hlen]
      rw [← hlast, List.take_left, hrestTail]
  · -- Everything fits behind what is in the buffer.
    have hlt : (tail message ++ data).length < 64 := by
      rw [List.length_append]
      omega
    have hnew : Sha1.sha1Update context data =
        ⟨context.state, u32 (8 * (message.length + data.length)),
          u32 (8 * (message.length + data.length) / 2 ^ 32),
          tail message ++ data ++ context.buffer.drop (message.length % 64 + data.length)⟩ := by
      simp only [Sha1.sha1Update, h.count0_eq, h.count1_eq, hindex, hu, if_neg hfull, h.take_buffer,
        hcount0, hcount1]
    rw [hnew]
    refine ⟨?_, by rw [hlen], by rw [hlen], ?_, ?_⟩
    · rw [hstate, hashBlocks_of_lt _ hlt]
    · rw [List.length_append, List.length_append, List.length_drop, htail, hbuffer]
      omega
    · have hlast : (tail message ++ data).length = (message ++ data).length % 64 := by
        rw [List.length_append, htail, hlen]
        omega
      rw [← hlast, List.take_left, tail_append, tail_of_lt hlt]

/-- A context after calls of `SHA1Update`. -/
def updates (context : Ctx) (pieces : List (List UInt8)) : Ctx := pieces.foldl sha1Update context

theorem Ctx.Holds.updates {context : Ctx} {message : List UInt8} (h : context.Holds message)
    {pieces : List (List UInt8)} (hp : ∀ piece ∈ pieces, piece.length < 2 ^ 29) :
    (updates context pieces).Holds (message ++ pieces.flatten) := by
  induction pieces generalizing context message with
  | nil => simpa [Sha1.updates] using h
  | cons piece pieces ih =>
      have hnext := ih (h.sha1Update (hp piece List.mem_cons_self))
        (fun p hmem => hp p (List.mem_cons_of_mem _ hmem))
      rwa [List.append_assoc] at hnext

theorem Ctx.Holds.count0_and {context : Ctx} {message : List UInt8} (h : context.Holds message) :
    context.count0 &&& 504 = 448 ↔ message.length % 64 = 56 := by
  have hcount : context.count0 = (message.length % 2 ^ 29) <<< 3 := by
    rw [h.count0_eq, u32, Nat.shiftLeft_eq]
    omega
  rw [hcount, show 504 = 63 <<< 3 from rfl, ← Nat.shiftLeft_and_distrib, and_63, Nat.shiftLeft_eq]
  omega

/-- The loop pads with zeros up to the count. -/
theorem Ctx.Holds.padLoop (fuel : ℕ) {context : Ctx} {message : List UInt8}
    (h : context.Holds message) (hfuel : (120 - message.length % 64) % 64 ≤ fuel) :
    (padLoop fuel context).Holds
      (message ++ List.replicate ((120 - message.length % 64) % 64) 0) := by
  induction fuel generalizing context message with
  | zero =>
      rw [Nat.le_zero.mp hfuel]
      simpa [Sha1.padLoop] using h
  | succ fuel ih =>
      by_cases hdone : context.count0 &&& 504 = 448
      · have hzero : (120 - message.length % 64) % 64 = 0 := by
          have hmod := h.count0_and.mp hdone
          omega
        rw [hzero]
        simpa [Sha1.padLoop, hdone] using h
      · have hmod : message.length % 64 ≠ 56 := fun heq => hdone (h.count0_and.mpr heq)
        have hlen : (message ++ [(0 : UInt8)]).length = message.length + 1 := List.length_append
        have hzero : ([0] : List UInt8).length < 2 ^ 29 := by decide
        have hnext := ih (h.sha1Update hzero) (by rw [hlen]; omega)
        have hcount : (120 - message.length % 64) % 64 =
            (120 - (message.length + 1) % 64) % 64 + 1 := by omega
        rw [hlen, List.append_assoc, List.singleton_append, ← List.replicate_succ, ← hcount]
          at hnext
        rw [Sha1.padLoop, if_pos hdone]
        exact hnext

theorem finalCount_eq (length : ℕ) :
    finalCount (u32 (8 * length)) (u32 (8 * length / 2 ^ 32)) = lengthBytes length := by
  unfold finalCount lengthBytes
  refine List.map_congr_left fun i hi => ?_
  have hlt : i < 8 := List.mem_range.mp hi
  apply UInt8.toNat_inj.mp
  rw [UInt8.toNat_ofNat', UInt8.toNat_ofNat']
  interval_cases i <;> simp [u32, Nat.shiftRight_eq_div_pow] <;> omega

theorem digest_eq (s : State) :
    digest s = [s.a, s.b, s.c, s.d, s.e].flatMap fun w =>
      (List.range 4).map fun i => UInt8.ofNat (w.toNat / 2 ^ (8 * (3 - i))) := by
  simp only [digest, Nat.shiftRight_eq_div_pow]
  rfl

theorem Ctx.Holds.sha1Final {context : Ctx} {message : List UInt8} (h : context.Holds message) :
    sha1Final context = hash message := by
  have hone : (message ++ [(0x80 : UInt8)]).length = message.length + 1 := List.length_append
  have hmark : ([0x80] : List UInt8).length < 2 ^ 29 := by decide
  have hpad := (h.sha1Update hmark).padLoop 64 (Nat.le_of_lt (Nat.mod_lt _ (by decide)))
  have hcount : (finalCount context.count0 context.count1).length < 2 ^ 29 := by
    simp [finalCount]
  have hall := hpad.sha1Update hcount
  have hzeros : (120 - (message.length + 1) % 64) % 64 = (119 - message.length % 64) % 64 := by
    omega
  rw [hone, hzeros, h.count0_eq, h.count1_eq, finalCount_eq] at hall
  unfold Sha1.sha1Final hash
  rw [h.count0_eq, h.count1_eq, finalCount_eq, hall.state_eq, digest_eq]
  rfl

/-- Any sequence of calls hashes what they were given, one behind the other. -/
theorem sha1Final_updates {buffer : List UInt8} (hb : buffer.length = 64)
    {pieces : List (List UInt8)} (hp : ∀ piece ∈ pieces, piece.length < 2 ^ 29) :
    sha1Final (updates (sha1Init buffer) pieces) = hash pieces.flatten :=
  ((holds_sha1Init hb).updates hp).sha1Final

theorem sha1Final_updates_abc :
    sha1Final (updates (sha1Init (List.replicate 64 0)) [[97], [], [98, 99]]) =
      hash [[97], [], [98, 99]].flatten :=
  sha1Final_updates (by decide) (by decide)

/-- The first test vector of `sha1.c`. -/
example : sha1Final (sha1Update (sha1Init (List.replicate 64 0)) [97, 98, 99]) =
    [0xA9, 0x99, 0x3E, 0x36, 0x47, 0x06, 0x81, 0x6A, 0xBA, 0x3E, 0x25, 0x71, 0x78, 0x50, 0xC2, 0x6C,
      0x9C, 0xD0, 0xD8, 0x9D] := by
  decide +kernel

end SystemExtras.Sha1

namespace SystemExtras.Ext4

open Sha1 (sha1Init sha1Update sha1Final)

/-! ## `uuid.c` -/

namespace Uuid

def timeLow : Field := ⟨0, 4⟩
def timeMid : Field := ⟨4, 2⟩
def timeHiAndVersion : Field := ⟨6, 2⟩
def clkSeqHiRes : Field := ⟨8, 1⟩

end Uuid

/-- `ntohl`, on a machine that has the first byte at the bottom. -/
def ntohl (n : ℕ) : ℕ :=
  n % 256 * 2 ^ 24 + n / 2 ^ 8 % 256 * 2 ^ 16 + n / 2 ^ 16 % 256 * 2 ^ 8 + n / 2 ^ 24 % 256

/-- `ntohs`. -/
def ntohs (n : ℕ) : ℕ := n % 256 * 2 ^ 8 + n / 2 ^ 8 % 256

theorem ntohl_eq {a b c d : ℕ} (ha : a < 256) (hb : b < 256) (hc : c < 256) (hd : d < 256) :
    ntohl (a + 256 * (b + 256 * (c + 256 * d))) % 256 ^ 4 =
      a * 2 ^ 24 + b * 2 ^ 16 + c * 2 ^ 8 + d := by
  generalize hn : a + 256 * (b + 256 * (c + 256 * d)) = n
  have h₀ : n % 256 = a := by omega
  have h₁ : n / 2 ^ 8 % 256 = b := by omega
  have h₂ : n / 2 ^ 16 % 256 = c := by omega
  have h₃ : n / 2 ^ 24 % 256 = d := by omega
  rw [ntohl, h₀, h₁, h₂, h₃]
  exact Nat.mod_eq_of_lt (by omega)

theorem ntohs_eq {a b : ℕ} (ha : a < 256) (hb : b < 256) :
    ntohs (a + 256 * b) % 256 ^ 2 = a * 2 ^ 8 + b := by
  have h₀ : (a + 256 * b) % 256 = a := by omega
  have h₁ : (a + 256 * b) / 2 ^ 8 % 256 = b := by omega
  rw [ntohs, h₀, h₁]
  exact Nat.mod_eq_of_lt (by omega)

/-- `sha1_hash`; `buffer` is what was in the memory of its context. -/
def sha1Hash (buffer nameSpace name : List UInt8) : List UInt8 :=
  sha1Final (sha1Update (sha1Update (sha1Init buffer) nameSpace) name)

/-- `generate_uuid`, on texts without their final zeros. -/
def generateUuid (buffer nameSpace name : List UInt8) (result : Mem) : Mem :=
  let m := result.storeBytes 0 ((sha1Hash buffer nameSpace name).take 16)
  let m := Uuid.timeLow.set m (ntohl (Uuid.timeLow.get m))
  let m := Uuid.timeMid.set m (ntohs (Uuid.timeMid.get m))
  let m := Uuid.timeHiAndVersion.set m (ntohs (Uuid.timeHiAndVersion.get m))
  let m := Uuid.timeHiAndVersion.set m (Uuid.timeHiAndVersion.get m &&& 0x0FFF)
  let m := Uuid.timeHiAndVersion.set m (Uuid.timeHiAndVersion.get m ||| 5 <<< 12)
  let m := Uuid.clkSeqHiRes.set m (Uuid.clkSeqHiRes.get m &&& (255 - 1 <<< 6))
  Uuid.clkSeqHiRes.set m (Uuid.clkSeqHiRes.get m ||| 1 <<< 7)

theorem sha1Hash_eq {buffer nameSpace name : List UInt8} (hb : buffer.length = 64)
    (hs : nameSpace.length < 2 ^ 29) (hn : name.length < 2 ^ 29) :
    sha1Hash buffer nameSpace name = Sha1.hash (nameSpace ++ name) := by
  have hall := ((Sha1.holds_sha1Init hb).sha1Update hs).sha1Update hn
  rw [List.nil_append] at hall
  exact hall.sha1Final

/-- The uuid is named by a digest: its numbers are those that start the digest, the highest byte
first, with the version 5 and the variant 2 in the place of six bits. -/
structure NamedBy (digest : List UInt8) (uuid : Mem) : Prop where
  timeLow : Uuid.timeLow.get uuid = (digest.getD 0 0).toNat * 2 ^ 24 +
    (digest.getD 1 0).toNat * 2 ^ 16 + (digest.getD 2 0).toNat * 2 ^ 8 + (digest.getD 3 0).toNat
  timeMid : Uuid.timeMid.get uuid = (digest.getD 4 0).toNat * 2 ^ 8 + (digest.getD 5 0).toNat
  timeHi : Uuid.timeHiAndVersion.get uuid % 2 ^ 12 =
    ((digest.getD 6 0).toNat * 2 ^ 8 + (digest.getD 7 0).toNat) % 2 ^ 12
  version : Uuid.timeHiAndVersion.get uuid / 2 ^ 12 = 5
  clkSeqHi : Uuid.clkSeqHiRes.get uuid % 2 ^ 6 = (digest.getD 8 0).toNat % 2 ^ 6
  variant : Uuid.clkSeqHiRes.get uuid / 2 ^ 6 = 2
  node : ∀ x, 9 ≤ x → x < 16 → uuid x = digest.getD x 0

theorem setVersion_eq (n : ℕ) :
    ((n &&& 0x0FFF) % 256 ^ 2 ||| 5 <<< 12) % 256 ^ 2 = 2 ^ 12 * 5 + n % 2 ^ 12 := by
  have hand : n &&& 0x0FFF = n % 2 ^ 12 := Nat.and_two_pow_sub_one_eq_mod n 12
  have hlt : n % 2 ^ 12 < 2 ^ 12 := Nat.mod_lt _ (by decide)
  have hor : n % 2 ^ 12 ||| 5 <<< 12 = 2 ^ 12 * 5 + n % 2 ^ 12 := by
    rw [Nat.or_comm, Nat.two_pow_add_eq_or_of_lt hlt]
    rfl
  have hsmall : n % 2 ^ 12 % 256 ^ 2 = n % 2 ^ 12 := Nat.mod_eq_of_lt (by omega)
  rw [hand, hsmall, hor]
  exact Nat.mod_eq_of_lt (by omega)

theorem setVariant_eq {n : ℕ} (h : n < 256) :
    ((n &&& (255 - 1 <<< 6)) % 256 ^ 1 ||| 1 <<< 7) % 256 ^ 1 = 2 ^ 7 + n % 2 ^ 6 := by
  have hall : ∀ n < 256, ((n &&& (255 - 1 <<< 6)) % 256 ^ 1 ||| 1 <<< 7) % 256 ^ 1 =
      2 ^ 7 + n % 2 ^ 6 := by
    decide +kernel
  exact hall n h

/-- `generate_uuid` names the uuid by the hash of both texts, one behind the other. -/
theorem generateUuid_namedBy {buffer nameSpace name : List UInt8} (hb : buffer.length = 64)
    (hs : nameSpace.length < 2 ^ 29) (hn : name.length < 2 ^ 29) (result : Mem) :
    NamedBy (Sha1.hash (nameSpace ++ name)) (generateUuid buffer nameSpace name result) := by
  have hlen : ((Sha1.hash (nameSpace ++ name)).take 16).length = 16 := by
    rw [List.length_take, Sha1.length_hash]
    rfl
  unfold generateUuid
  rw [sha1Hash_eq hb hs hn]
  generalize Sha1.hash (nameSpace ++ name) = digest at hlen ⊢
  have hbyte : ∀ x < 16, result.storeBytes 0 (digest.take 16) x = digest.getD x 0 := by
    intro x hx
    rw [Mem.storeBytes_apply_of_mem (Nat.zero_le x) (by omega), Nat.sub_zero,
      List.getD_eq_getElem?_getD, List.getElem?_take_of_lt hx, ← List.getD_eq_getElem?_getD]
  generalize result.storeBytes 0 (digest.take 16) = m at hbyte
  have hlow : Uuid.timeLow.get m = (digest.getD 0 0).toNat + 256 * ((digest.getD 1 0).toNat +
      256 * ((digest.getD 2 0).toNat + 256 * (digest.getD 3 0).toNat)) := by
    simp [Field.get, Uuid.timeLow, Mem.load, hbyte]
  have hmid : Uuid.timeMid.get m = (digest.getD 4 0).toNat + 256 * (digest.getD 5 0).toNat := by
    simp [Field.get, Uuid.timeMid, Mem.load, hbyte]
  have hhi : Uuid.timeHiAndVersion.get m =
      (digest.getD 6 0).toNat + 256 * (digest.getD 7 0).toNat := by
    simp [Field.get, Uuid.timeHiAndVersion, Mem.load, hbyte]
  have hclk : Uuid.clkSeqHiRes.get m = (digest.getD 8 0).toNat := by
    simp [Field.get, Uuid.clkSeqHiRes, Mem.load, hbyte]
  have hlt : ∀ x, (digest.getD x 0).toNat < 256 := fun x => UInt8.toNat_lt _
  have h₀ := hlt 0
  have h₁ := hlt 1
  have h₂ := hlt 2
  have h₃ := hlt 3
  have h₄ := hlt 4
  have h₅ := hlt 5
  have h₆ := hlt 6
  have h₇ := hlt 7
  have h₈ := hlt 8
  have hnewHi (v : ℕ) : ((v % 256 ^ Uuid.timeHiAndVersion.width &&& 0x0FFF) %
      256 ^ Uuid.timeHiAndVersion.width ||| 5 <<< 12) % 256 ^ Uuid.timeHiAndVersion.width =
        2 ^ 12 * 5 + v % 256 ^ 2 % 2 ^ 12 := setVersion_eq _
  have hnewClk : ((Uuid.clkSeqHiRes.get m &&& (255 - 1 <<< 6)) % 256 ^ Uuid.clkSeqHiRes.width |||
      1 <<< 7) % 256 ^ Uuid.clkSeqHiRes.width = 2 ^ 7 + (digest.getD 8 0).toNat % 2 ^ 6 := by
    rw [hclk]
    exact setVariant_eq h₈
  refine ⟨?_, ?_, ?_, ?_, ?_, ?_, fun x h₉ h₁₆ => ?_⟩
  · simp (disch := decide) only [Field.get_set_of_disjoint, Field.get_set_self]
    rw [hlow]
    exact ntohl_eq h₀ h₁ h₂ h₃
  · simp (disch := decide) only [Field.get_set_of_disjoint, Field.get_set_self]
    rw [hmid]
    exact ntohs_eq h₄ h₅
  · simp (disch := decide) only [Field.get_set_of_disjoint, Field.get_set_self]
    rw [hnewHi, hhi, ntohs_eq h₆ h₇]
    omega
  · simp (disch := decide) only [Field.get_set_of_disjoint, Field.get_set_self]
    rw [hnewHi]
    omega
  · simp (disch := decide) only [Field.get_set_of_disjoint, Field.get_set_self]
    rw [hnewClk]
    omega
  · simp (disch := decide) only [Field.get_set_of_disjoint, Field.get_set_self]
    rw [hnewClk]
    omega
  · rw [← hbyte x h₁₆]
    simp only [Field.set, Uuid.timeLow, Uuid.timeMid, Uuid.timeHiAndVersion, Uuid.clkSeqHiRes]
    simp (disch := omega) only [Mem.store_apply_of_not_mem]

theorem generateUuid_namedBy_data :
    NamedBy (Sha1.hash ([101, 120, 116] ++ [100, 97, 116, 97]))
      (generateUuid (List.replicate 64 0) [101, 120, 116] [100, 97, 116, 97] Mem.zero) :=
  generateUuid_namedBy (by decide) (by decide) (by decide) Mem.zero

end SystemExtras.Ext4
