import SystemExtras.Lib.Bytes
import SystemExtras.Lib.Run

/-!
# Programs that write to a device and may be cut off

A device is a number of bytes, a write puts a run of bytes at an offset, and a
program reads the device, may fail, and leaves a list of writes.  Each write is
atomic: if the machine stops while a program runs, the device has seen a prefix
of its writes.

`DevM` is the monad of such programs: a result together with the writes made so
far, every read seeing the writes before it.  `Crash I x d Q` says that `x`,
started on `d`, keeps `I` on the device after *every* prefix of its writes and
ends with `Q`; its rules (`Crash.bind`, `Crash.write`, `Crash.query`) follow the
program, so that a crash invariant is shown one step at a time.

Writes made twice do no harm: applying all writes after some of them gives what
applying them once does (`applyAll_of_prefix`).
-/

namespace SystemExtras

/-- A block device or image file. -/
structure Device where
  size : ℕ
  bytes : Mem

/-- `pwrite` of the first `len` bytes of `data`. -/
structure Write where
  offset : ℕ
  len : ℕ
  data : Mem

namespace Write

/-- Whether the write covers the address. -/
def Covers (w : Write) (x : ℕ) : Prop := w.offset ≤ x ∧ x < w.offset + w.len

/-- Offset and length. -/
def place (w : Write) : ℕ × ℕ := (w.offset, w.len)

instance (w : Write) (x : ℕ) : Decidable (w.Covers x) := inferInstanceAs (Decidable (_ ∧ _))

end Write

namespace Device

/-- A write past the end makes an image file longer. -/
def apply (d : Device) (w : Write) : Device where
  size := max d.size (w.offset + w.len)
  bytes := d.bytes.blit w.offset w.len w.data 0

def applyAll (d : Device) (ws : List Write) : Device := ws.foldl apply d

/-- The `len` bytes at `off`; the buffer they are read into has no others. -/
def slice (d : Device) (off len : ℕ) : Mem := fun i => if i < len then d.bytes (off + i) else 0

/-- `pread`, when it gets all it asks for. -/
def read (d : Device) (off len : ℕ) : Option Mem :=
  if off + len ≤ d.size then some (d.slice off len) else none

variable {d d' : Device} {ws : List Write}

@[simp] theorem applyAll_nil (d : Device) : d.applyAll [] = d := rfl

@[simp] theorem applyAll_cons (d : Device) (w : Write) (ws : List Write) :
    d.applyAll (w :: ws) = (d.apply w).applyAll ws := rfl

theorem applyAll_append (d : Device) (ws vs : List Write) :
    d.applyAll (ws ++ vs) = (d.applyAll ws).applyAll vs := List.foldl_append

theorem apply_bytes_of_covers {w : Write} {x : ℕ} (h : w.Covers x) :
    (d.apply w).bytes x = w.data (x - w.offset) := by
  unfold apply
  simp only [Mem.blit_apply_of_mem h.1 h.2, Nat.zero_add]

theorem apply_bytes_of_not_covers {w : Write} {x : ℕ} (h : ¬ w.Covers x) :
    (d.apply w).bytes x = d.bytes x := if_neg h

/-- A write inside the device leaves its size alone. -/
theorem apply_size {w : Write} (h : w.offset + w.len ≤ d.size) : (d.apply w).size = d.size :=
  max_eq_left h

theorem applyAll_bytes_of_not_covers {x : ℕ} (h : ∀ w ∈ ws, ¬ w.Covers x) :
    (d.applyAll ws).bytes x = d.bytes x := by
  induction ws generalizing d with
  | nil => rfl
  | cons w ws ih =>
      rw [applyAll_cons, ih fun v hv => h v (List.mem_cons_of_mem _ hv)]
      exact apply_bytes_of_not_covers (h w List.mem_cons_self)

/-- What every one of the writes keeps. -/
theorem applyAll_induction {I : Device → Prop} (hd : I d)
    (h : ∀ d' w, w ∈ ws → I d' → I (d'.apply w)) : I (d.applyAll ws) := by
  induction ws generalizing d with
  | nil => exact hd
  | cons w ws ih =>
      exact ih (h d w List.mem_cons_self hd) fun d' v hv => h d' v (List.mem_cons_of_mem _ hv)

/-- A byte that some write covers does not remember what was there before. -/
theorem applyAll_bytes_congr {x : ℕ} (h : (∃ w ∈ ws, w.Covers x) ∨ d.bytes x = d'.bytes x) :
    (d.applyAll ws).bytes x = (d'.applyAll ws).bytes x := by
  induction ws generalizing d d' with
  | nil => simpa using h
  | cons w ws ih =>
      rw [applyAll_cons, applyAll_cons]
      apply ih
      by_cases hw : w.Covers x
      · right
        rw [apply_bytes_of_covers hw, apply_bytes_of_covers hw]
      · rw [apply_bytes_of_not_covers hw, apply_bytes_of_not_covers hw]
        rcases h with ⟨v, hv, hcov⟩ | h
        · rcases List.mem_cons.mp hv with rfl | hv
          · exact absurd hcov hw
          · exact Or.inl ⟨v, hv, hcov⟩
        · exact Or.inr h

/-- Writes that do not touch each other are all there in the end. -/
theorem applyAll_bytes_of_mem {w : Write} {x : ℕ}
    (hpair : ws.Pairwise fun w v => ∀ x, w.Covers x → ¬ v.Covers x) (hw : w ∈ ws)
    (hx : w.Covers x) : (d.applyAll ws).bytes x = w.data (x - w.offset) := by
  induction ws generalizing d with
  | nil => cases hw
  | cons v ws ih =>
      obtain ⟨hv, hpair⟩ := List.pairwise_cons.mp hpair
      rw [applyAll_cons]
      rcases List.mem_cons.mp hw with rfl | hw
      · rw [applyAll_bytes_of_not_covers fun u hu => hv u hu x hx, apply_bytes_of_covers hx]
      · exact ih hpair hw

/-- The end of the byte that lies furthest out among the writes. -/
def reach (ws : List Write) : ℕ := ws.foldr (fun w n => max (w.offset + w.len) n) 0

theorem reach_append (ws vs : List Write) : reach (ws ++ vs) = max (reach ws) (reach vs) := by
  induction ws with
  | nil => simp [reach]
  | cons w ws ih =>
      have hcons : ∀ us, reach (w :: us) = max (w.offset + w.len) (reach us) := fun _ => rfl
      rw [List.cons_append, hcons, hcons, ih, max_assoc]

theorem applyAll_size (d : Device) (ws : List Write) :
    (d.applyAll ws).size = max d.size (reach ws) := by
  induction ws generalizing d with
  | nil => simp [reach]
  | cons w ws ih =>
      rw [applyAll_cons, ih]
      exact max_assoc _ _ _

@[ext] theorem ext {d d' : Device} (hsize : d.size = d'.size)
    (hbytes : ∀ x, d.bytes x = d'.bytes x) : d = d' := by
  cases d
  cases d'
  simp only [mk.injEq]
  exact ⟨hsize, funext hbytes⟩

/-- Making all writes after some of them is making all of them. -/
theorem applyAll_of_prefix {vs : List Write} (h : vs <+: ws) :
    (d.applyAll vs).applyAll ws = d.applyAll ws := by
  obtain ⟨us, rfl⟩ := h
  apply ext
  · rw [applyAll_size, applyAll_size, applyAll_size, reach_append, max_assoc,
      ← max_assoc (reach vs),
      max_self]
  · intro x
    apply applyAll_bytes_congr
    by_cases hx : ∃ w ∈ vs ++ us, w.Covers x
    · exact Or.inl hx
    · right
      apply applyAll_bytes_of_not_covers
      intro w hw hcov
      exact hx ⟨w, List.mem_append_left _ hw, hcov⟩

theorem read_of_le {off len : ℕ} (h : off + len ≤ d.size) :
    d.read off len = some (d.slice off len) := if_pos h

theorem read_of_not_le {off len : ℕ} (h : ¬ off + len ≤ d.size) : d.read off len = none := if_neg h

/-- A slice depends on the bytes it covers. -/
theorem slice_congr {off len : ℕ} (h : d.bytes.SameOn d'.bytes off (off + len)) :
    d.slice off len = d'.slice off len := by
  funext i
  unfold slice
  split
  · exact h _ (by omega) (by omega)
  · rfl

theorem read_congr {off len : ℕ} (hsize : d.size = d'.size)
    (h : d.bytes.SameOn d'.bytes off (off + len)) : d.read off len = d'.read off len := by
  unfold read
  rw [hsize, slice_congr h]

end Device

/-! ## Programs -/

/-- A program on a device: how it ends, and the writes it made. -/
def DevM (ε α : Type) := Device → Except ε α × List Write

namespace DevM

variable {ε α β : Type}

instance : Monad (DevM ε) where
  pure a := fun _ => (.ok a, [])
  bind x f := fun d =>
    match x d with
    | (.error e, ws) => (.error e, ws)
    | (.ok a, ws) => ((f a (d.applyAll ws)).1, ws ++ (f a (d.applyAll ws)).2)

/-- Looks at the device. -/
def query (f : Device → Except ε α) : DevM ε α := fun d => (f d, [])

/-- Makes one write. -/
def write (w : Write) : DevM ε Unit := fun _ => (.ok (), [w])

/-- Ends the program. -/
def fail (e : ε) : DevM ε α := fun _ => (.error e, [])

/-- How the program ends. -/
def result (x : DevM ε α) (d : Device) : Except ε α := (x d).1

/-- The writes it makes. -/
def writes (x : DevM ε α) (d : Device) : List Write := (x d).2

/-- The device it leaves behind. -/
def final (x : DevM ε α) (d : Device) : Device := d.applyAll (x.writes d)

variable {x : DevM ε α} {f : α → DevM ε β} {d : Device}

theorem bind_of_ok {a : α} (h : x.result d = .ok a) :
    (x >>= f).result d = (f a).result (x.final d) ∧
      (x >>= f).writes d = x.writes d ++ (f a).writes (x.final d) := by
  have hx : x d = (.ok a, x.writes d) := Prod.ext h rfl
  constructor
  · change (Bind.bind x f d).1 = _
    simp only [Bind.bind, hx]
    rfl
  · change (Bind.bind x f d).2 = _
    simp only [Bind.bind, hx]
    rfl

theorem bind_of_error {e : ε} (h : x.result d = .error e) :
    (x >>= f).result d = .error e ∧ (x >>= f).writes d = x.writes d := by
  have hx : x d = (.error e, x.writes d) := Prod.ext h rfl
  constructor
  · change (Bind.bind x f d).1 = _
    simp only [Bind.bind, hx]
  · change (Bind.bind x f d).2 = _
    simp only [Bind.bind, hx]

theorem final_bind_of_ok {a : α} (h : x.result d = .ok a) :
    (x >>= f).final d = (f a).final (x.final d) := by
  unfold final
  rw [(bind_of_ok h).2, Device.applyAll_append]
  rfl

/-- The first program's writes come first. -/
theorem prefix_bind {ws : List Write} (h : ws <+: x.writes d) : ws <+: (x >>= f).writes d := by
  cases hx : x.result d with
  | error e => rwa [(bind_of_error hx).2]
  | ok a =>
      rw [(bind_of_ok hx).2]
      exact h.trans (List.prefix_append _ _)

/-- A sequence that returns, taken apart. -/
theorem result_bind_eq_ok {b : β} :
    (x >>= f).result d = .ok b ↔ ∃ a, x.result d = .ok a ∧ (f a).result (x.final d) = .ok b := by
  cases hx : x.result d with
  | error e =>
      rw [(bind_of_error hx).1]
      simp
  | ok a =>
      rw [(bind_of_ok hx).1]
      simp

/-- A write and what comes after it. -/
theorem write_bind (w : Write) (k : Unit → DevM ε β) (d : Device) :
    ((write w : DevM ε Unit) >>= k) d = ((k () (d.apply w)).1, w :: (k () (d.apply w)).2) := rfl

@[simp] theorem writes_query (g : Device → Except ε α) (d : Device) : (query g).writes d = [] := rfl

@[simp] theorem final_query (g : Device → Except ε α) (d : Device) : (query g).final d = d := rfl

/-! ## Programs that only read -/

/-- The program makes no writes. -/
def ReadOnly (x : DevM ε α) : Prop := ∀ d, x.writes d = []

namespace ReadOnly

theorem pure (a : α) : ReadOnly (Pure.pure a : DevM ε α) := fun _ => rfl

theorem fail (e : ε) : ReadOnly (DevM.fail e : DevM ε α) := fun _ => rfl

theorem query (g : Device → Except ε α) : ReadOnly (DevM.query g) := fun _ => rfl

theorem bind (hx : ReadOnly x) (hf : ∀ a, ReadOnly (f a)) : ReadOnly (x >>= f) := by
  intro d
  cases hres : x.result d with
  | error e => rw [(bind_of_error hres).2, hx d]
  | ok a => rw [(bind_of_ok hres).2, hx d, hf a, List.nil_append]

theorem ite {c : Prop} [Decidable c] {y : DevM ε α} (hx : ReadOnly x) (hy : ReadOnly y) :
    ReadOnly (if c then x else y) := by
  split
  · exact hx
  · exact hy

theorem final (h : ReadOnly x) (d : Device) : x.final d = d := by
  rw [DevM.final, h d, Device.applyAll_nil]

end ReadOnly

/-- Behind a program that has only read, the next one starts where this one did. -/
theorem bind_of_eq {a : α} (hx : x d = (.ok a, [])) : (x >>= f) d = f a d := by
  have hres : x.result d = .ok a := congrArg Prod.fst hx
  have hws : x.writes d = [] := congrArg Prod.snd hx
  obtain ⟨hr, hw⟩ := bind_of_ok (f := f) hres
  rw [final, hws, Device.applyAll_nil] at hr hw
  exact Prod.ext hr hw

theorem writes_bind_of_eq {a : α} (hx : x d = (.ok a, [])) :
    (x >>= f).writes d = (f a).writes d := congrArg Prod.snd (bind_of_eq hx)

theorem ReadOnly.writes_bind {a : α} (hro : ReadOnly x) (hx : x.result d = .ok a) :
    (x >>= f).writes d = (f a).writes d := writes_bind_of_eq (Prod.ext hx (hro d))

/-- The program fails with an error of `P` before it writes anything. -/
structure Stops (P : ε → Prop) (x : DevM ε α) (d : Device) : Prop where
  writes : x.writes d = []
  fails : ∃ e, P e ∧ x.result d = .error e

section Stops

variable {P : ε → Prop}

theorem Stops.mono {Q : ε → Prop} (h : Stops P x d) (hPQ : ∀ e, P e → Q e) : Stops Q x d := by
  obtain ⟨e, hP, he⟩ := h.fails
  exact ⟨h.writes, e, hPQ e hP, he⟩

theorem Stops.bind (h : Stops P x d) : Stops P (x >>= f) d := by
  obtain ⟨e, hP, he⟩ := h.fails
  obtain ⟨hr, hw⟩ := bind_of_error (f := f) he
  exact ⟨hw.trans h.writes, e, hP, hr⟩

theorem Stops.of_bind {a : α} (hx : x.result d = .ok a) (hro : ReadOnly x)
    (h : Stops P (f a) d) : Stops P (x >>= f) d := by
  obtain ⟨hr, hw⟩ := bind_of_ok (f := f) hx
  rw [hro.final] at hr hw
  obtain ⟨e, hP, he⟩ := h.fails
  exact ⟨by rw [hw, hro d, h.writes, List.nil_append], e, hP, hr.trans he⟩

theorem ReadOnly.stops {e : ε} (hro : ReadOnly x) (hP : P e) (hx : x.result d = .error e) :
    Stops P x d := ⟨hro d, e, hP, hx⟩

/-- A program that fails does so with an error of `P`. -/
def FailsOnly (P : ε → Prop) (x : DevM ε α) (d : Device) : Prop := ∀ e, x.result d = .error e → P e

namespace FailsOnly

theorem pure {a : α} : FailsOnly P (Pure.pure a : DevM ε α) d := fun _ h => by cases h

theorem fail {e : ε} (h : P e) : FailsOnly P (DevM.fail e : DevM ε α) d := by
  intro e' he
  cases he
  exact h

theorem of_ok {a : α} (h : x.result d = .ok a) : FailsOnly P x d := by
  intro e he
  rw [h] at he
  cases he

theorem bind (hx : FailsOnly P x d)
    (hf : ∀ a, x.result d = .ok a → FailsOnly P (f a) (x.final d)) : FailsOnly P (x >>= f) d := by
  intro e he
  cases hres : x.result d with
  | error e' =>
      rw [(bind_of_error hres).1] at he
      cases he
      exact hx e hres
  | ok a =>
      rw [(bind_of_ok hres).1] at he
      exact hf a hres e he

theorem query_bind {g : Device → Except ε α} (hg : ∀ e, g d = .error e → P e)
    (hf : ∀ a, g d = .ok a → FailsOnly P (f a) d) : FailsOnly P (query g >>= f) d :=
  bind hg hf

/-- A program that only reads returns or stops. -/
theorem returns_or_stops (h : FailsOnly P x d) (hro : ReadOnly x) :
    (∃ a, x.result d = .ok a) ∨ Stops P x d := by
  cases hres : x.result d with
  | error e => exact Or.inr (hro.stops (h e hres) hres)
  | ok a => exact Or.inl ⟨a, rfl⟩

end FailsOnly

end Stops

/-! ## Plans -/

/-- `x`, started on `d`, writes to the planned places one by one, and to all of them if it
returns. -/
structure Plans (x : DevM ε α) (d : Device) (plan : List (ℕ × ℕ)) : Prop where
  cut : (x.writes d).map Write.place <+: plan
  done : ∀ a, x.result d = .ok a → (x.writes d).map Write.place = plan

namespace Plans

variable {plan : List (ℕ × ℕ)}

theorem pure {a : α} : Plans (Pure.pure a : DevM ε α) d [] := ⟨List.prefix_rfl, fun _ _ => rfl⟩

theorem fail {e : ε} : Plans (DevM.fail e : DevM ε α) d plan :=
  ⟨List.nil_prefix, fun _ h => by cases h⟩

theorem write {w : Write} : Plans (DevM.write w : DevM ε Unit) d [w.place] :=
  ⟨List.prefix_rfl, fun _ _ => rfl⟩

theorem bind {plan' : List (ℕ × ℕ)} (hx : Plans x d plan)
    (hf : ∀ a, x.result d = .ok a → Plans (f a) (x.final d) plan') :
    Plans (x >>= f) d (plan ++ plan') := by
  cases hres : x.result d with
  | error e =>
      obtain ⟨hr, hw⟩ := bind_of_error (f := f) hres
      refine ⟨?_, fun b hb => ?_⟩
      · rw [hw]
        exact hx.cut.trans (List.prefix_append _ _)
      · rw [hr] at hb
        cases hb
  | ok a =>
      obtain ⟨hr, hw⟩ := bind_of_ok (f := f) hres
      have hthen := hf a hres
      refine ⟨?_, fun b hb => ?_⟩
      · rw [hw, List.map_append, hx.done a hres]
        exact (List.prefix_append_right_inj _).mpr hthen.cut
      · rw [hr] at hb
        rw [hw, List.map_append, hx.done a hres, hthen.done b hb]

end Plans

/-! ## Crash triples -/

/-- `x`, started on `d`, keeps `I` after every prefix of its writes and ends with `Q`. -/
structure Crash (I : Device → Prop) (x : DevM ε α) (d : Device)
    (Q : Except ε α → Device → Prop) : Prop where
  cut : ∀ ws, ws <+: x.writes d → I (d.applyAll ws)
  done : Q (x.result d) (x.final d)

/-- The postcondition of a program that returns. -/
def Returns (P : α → Device → Prop) (r : Except ε α) (d : Device) : Prop := ∃ a, r = .ok a ∧ P a d

namespace Crash

variable {I J : Device → Prop} {Q : Except ε β → Device → Prop} {P : Except ε α → Device → Prop}

theorem mono {Q Q' : Except ε α → Device → Prop} (h : Crash I x d Q) (hI : ∀ d', I d' → J d')
    (hQ : ∀ r d', Q r d' → Q' r d') : Crash J x d Q' :=
  ⟨fun ws hws => hI _ (h.cut ws hws), hQ _ _ h.done⟩

theorem start (h : Crash I x d P) : I d := h.cut [] (List.nil_prefix)

/-- A program without writes is cut off where it started. -/
theorem of_no_writes (hI : I d) (hw : x.writes d = []) (hP : P (x.result d) d) : Crash I x d P := by
  have hfinal : x.final d = d := by rw [final, hw, Device.applyAll_nil]
  constructor
  · intro ws hws
    rw [hw, List.prefix_nil] at hws
    rwa [hws]
  · rwa [hfinal]

/-- A program whose writes are known. -/
theorem of_eq {a : α} {ws : List Write} (hx : x d = (.ok a, ws))
    (hI : ∀ vs, vs <+: ws → I (d.applyAll vs)) (hP : P (.ok a) (d.applyAll ws)) :
    Crash I x d P := by
  have hres : x.result d = .ok a := congrArg Prod.fst hx
  have hws : x.writes d = ws := congrArg Prod.snd hx
  constructor
  · rwa [hws]
  · rwa [hres, final, hws]

theorem pure {a : α} (hI : I d) (hP : P (.ok a) d) : Crash I (Pure.pure a : DevM ε α) d P :=
  of_no_writes hI rfl hP

theorem query {g : Device → Except ε α} (hI : I d) (hP : P (g d) d) :
    Crash I (DevM.query g) d P := of_no_writes hI rfl hP

theorem fail {e : ε} (hI : I d) (hP : P (.error e) d) : Crash I (DevM.fail e : DevM ε α) d P :=
  of_no_writes hI rfl hP

theorem write {P : Except ε Unit → Device → Prop} {w : Write} (hI : I d) (hI' : I (d.apply w))
    (hP : P (.ok ()) (d.apply w)) : Crash I (DevM.write w : DevM ε Unit) d P := by
  refine ⟨fun ws hws => ?_, hP⟩
  have hws : ws <+: [w] := hws
  rcases List.prefix_cons_iff.mp hws with rfl | ⟨t, rfl, ht⟩
  · exact hI
  · rw [List.prefix_nil] at ht
    rwa [ht]

theorem bind (hx : Crash I x d P) (hok : ∀ a d', P (.ok a) d' → Crash I (f a) d' Q)
    (herr : ∀ e d', P (.error e) d' → Q (.error e) d') : Crash I (x >>= f) d Q := by
  have hdone := hx.done
  cases hres : x.result d with
  | error e =>
      obtain ⟨hr, hw⟩ := bind_of_error (f := f) hres
      rw [hres] at hdone
      refine ⟨fun ws hws => hx.cut ws (hw ▸ hws), ?_⟩
      rw [hr]
      have := herr e _ hdone
      rwa [show (x >>= f).final d = x.final d by rw [final, hw, final]]
  | ok a =>
      obtain ⟨hr, hw⟩ := bind_of_ok (f := f) hres
      rw [hres] at hdone
      have hf := hok a _ hdone
      refine ⟨fun ws hws => ?_, ?_⟩
      · -- a prefix of both lists of writes is one of the first, or all of the first and more
        rw [hw] at hws
        rcases List.prefix_or_prefix_of_prefix hws (List.prefix_append (x.writes d) _) with h | h
        · exact hx.cut ws h
        · obtain ⟨t, rfl⟩ := h
          rw [List.prefix_append_right_inj] at hws
          rw [Device.applyAll_append]
          exact hf.cut t hws
      · rw [hr, final_bind_of_ok hres]
        exact hf.done

/-- Going on after a program that returns. -/
theorem bind_returns {P : α → Device → Prop} (hx : Crash I x d (Returns P))
    (hf : ∀ a d', P a d' → Crash I (f a) d' Q) : Crash I (x >>= f) d Q := by
  apply hx.bind
  · rintro a d' ⟨b, hb, hP⟩
    cases hb
    exact hf a d' hP
  · rintro e d' ⟨b, hb, -⟩
    cases hb

/-- Going on after a read. -/
theorem query_bind {g : Device → Except ε α} {a : α} (hg : g d = .ok a) (hf : Crash I (f a) d Q) :
    Crash I (DevM.query g >>= f) d Q := by
  apply (Crash.query (P := fun r d' => r = .ok a ∧ d' = d) hf.start ⟨hg, rfl⟩).bind
  · rintro b d' ⟨hb, rfl⟩
    cases hb
    exact hf
  · rintro e d' ⟨he, -⟩
    cases he

end Crash

end DevM

end SystemExtras
