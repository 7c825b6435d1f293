import SystemExtras.Lib.Device

/-!
# Programs on a device and on its overlay

An overlay changes the bytes of a device, each by a function of its own address.  Applying
a write and laying the overlay over the result is the same as applying the write with the
overlay laid over its data (`overlay_apply`), so a program can be compared, write by write,
with a program that runs on the overlay.

`Lockstep f I B G x x' R d` is this comparison.  It takes for granted that `x'`, started on
the overlay of `d`, returns and keeps `I` at every cut, and that `B` holds of `d`; if `G`
holds, it is also taken for granted that `x` returns.  Then `x`, started on `d`, returns
too, with a result related by `R`; the writes of the two programs correspond one by one; and
`B` holds wherever `x` is cut off.

## Strategy

The rules follow the program: `Lockstep.query_bind` for a read, `Lockstep.write`,
`Lockstep.bind` for a sequence.  At every step `I` is known of the overlay and `B` of the
device, so whatever has been proved about the runs of `x'` alone can be used for `x`.
What the comparison gives in the end is `Steps.cut`: wherever `x` is cut off, the overlay
of what it leaves is what some cut of `x'` leaves.
-/

namespace SystemExtras

/-! ## Overlays -/

/-- What becomes of the byte at each address. -/
abbrev Overlay := ℕ → UInt8 → UInt8

/-- The device with the overlay laid over it. -/
def Device.overlay (f : Overlay) (d : Device) : Device where
  size := d.size
  bytes := fun x => f x (d.bytes x)

/-- `w'` writes what the overlay makes of the data of `w`. -/
structure Write.Mirrors (f : Overlay) (w w' : Write) : Prop where
  offset : w'.offset = w.offset
  len : w'.len = w.len
  data : ∀ i < w.len, w'.data i = f (w.offset + i) (w.data i)

namespace Device

variable {f : Overlay} {d : Device} {w w' : Write} {ws ws' vs : List Write}

@[simp] theorem overlay_size (f : Overlay) (d : Device) : (d.overlay f).size = d.size := rfl

@[simp] theorem overlay_bytes (f : Overlay) (d : Device) (x : ℕ) :
    (d.overlay f).bytes x = f x (d.bytes x) := rfl

theorem overlay_apply (h : w.Mirrors f w') : (d.apply w).overlay f = (d.overlay f).apply w' := by
  apply Device.ext
  · simp only [overlay_size, Device.apply, h.offset, h.len]
  · intro x
    have hcovers : w'.Covers x ↔ w.Covers x := by
      unfold Write.Covers
      rw [h.offset, h.len]
    rw [overlay_bytes]
    by_cases hx : w.Covers x
    · obtain ⟨h₁, h₂⟩ := id hx
      rw [apply_bytes_of_covers hx, apply_bytes_of_covers (hcovers.mpr hx), h.offset,
        h.data _ (by omega), Nat.add_sub_of_le h₁]
    · rw [apply_bytes_of_not_covers hx, apply_bytes_of_not_covers fun h => hx (hcovers.mp h),
        overlay_bytes]

theorem overlay_applyAll (h : List.Forall₂ (Write.Mirrors f) ws ws') :
    (d.applyAll ws).overlay f = (d.overlay f).applyAll ws' := by
  induction h generalizing d with
  | nil => rfl
  | cons hw _ ih => rw [applyAll_cons, applyAll_cons, ih, overlay_apply hw]

end Device

/-- A write where the overlay changes nothing mirrors itself. -/
theorem Write.Mirrors.refl {f : Overlay} {w : Write} (h : ∀ x, w.Covers x → ∀ y, f x y = y) :
    w.Mirrors f w :=
  ⟨rfl, rfl, fun i hi => (h _ ⟨Nat.le_add_right _ _, by omega⟩ _).symm⟩

/-- The first elements of one list are related to the first elements of the other. -/
theorem forall₂_take {α β : Type} {R : α → β → Prop} {xs as : List α} {ys : List β}
    (h : List.Forall₂ R xs ys) (has : as <+: xs) : ∃ bs, bs <+: ys ∧ List.Forall₂ R as bs := by
  refine ⟨ys.take as.length, List.take_prefix _ _, ?_⟩
  have htake := List.forall₂_take as.length h
  rwa [← List.prefix_iff_eq_take.mp has] at htake

namespace DevM

variable {ε α α' β β' : Type} {f : Overlay} {I B : Device → Prop} {G : Prop} {d : Device}

/-! ## The parts of a sequence that returns -/

section Parts

variable {x : DevM ε α} {k : α → DevM ε β}

theorem Crash.of_bind (h : Crash I (x >>= k) d (Returns fun _ _ => True)) :
    Crash I x d (Returns fun _ _ => True) := by
  obtain ⟨b, hb, -⟩ := h.done
  obtain ⟨a, ha, -⟩ := result_bind_eq_ok.mp hb
  exact ⟨fun ws hws => h.cut ws (prefix_bind hws), a, ha, trivial⟩

theorem Crash.of_bind_of_ok {a : α} (h : Crash I (x >>= k) d (Returns fun _ _ => True))
    (ha : x.result d = .ok a) : Crash I (k a) (x.final d) (Returns fun _ _ => True) := by
  obtain ⟨b, hb, -⟩ := h.done
  rw [(bind_of_ok ha).1] at hb
  refine ⟨fun ws hws => ?_, b, hb, trivial⟩
  rw [DevM.final, ← Device.applyAll_append]
  apply h.cut
  rw [(bind_of_ok ha).2]
  exact (List.prefix_append_right_inj _).mpr hws

end Parts

/-! ## Programs that keep step -/

/-- Both programs return, and their writes correspond one by one. -/
structure Steps (f : Overlay) (B : Device → Prop) (x : DevM ε α) (x' : DevM ε α')
    (R : α → α' → Prop) (d : Device) : Prop where
  returns : ∃ a a', x.result d = .ok a ∧ x'.result (d.overlay f) = .ok a' ∧ R a a'
  writes : List.Forall₂ (Write.Mirrors f) (x.writes d) (x'.writes (d.overlay f))
  keeps : ∀ ws, ws <+: x.writes d → B (d.applyAll ws)

/-- `x` on the device keeps step with `x'` on its overlay, which returns and keeps `I`; if `G`
holds, only as far as `x` returns. -/
def Lockstep (f : Overlay) (I B : Device → Prop) (G : Prop) (x : DevM ε α) (x' : DevM ε α')
    (R : α → α' → Prop) (d : Device) : Prop :=
  B d → Crash I x' (d.overlay f) (Returns fun _ _ => True) →
    (G → ∃ a, x.result d = .ok a) → Steps f B x x' R d

namespace Steps

variable {x : DevM ε α} {x' : DevM ε α'} {R : α → α' → Prop}

/-- Wherever the one program is cut off, the other one can be cut off as well. -/
theorem cut (h : Steps f B x x' R d) {ws : List Write} (hws : ws <+: x.writes d) :
    ∃ ws', ws' <+: x'.writes (d.overlay f) ∧
      (d.applyAll ws).overlay f = (d.overlay f).applyAll ws' ∧ B (d.applyAll ws) := by
  obtain ⟨ws', hcut, hmirror⟩ := forall₂_take h.writes hws
  exact ⟨ws', hcut, Device.overlay_applyAll hmirror, h.keeps ws hws⟩

theorem final (h : Steps f B x x' R d) : (x.final d).overlay f = x'.final (d.overlay f) :=
  Device.overlay_applyAll h.writes

theorem keeps_final (h : Steps f B x x' R d) : B (x.final d) := h.keeps _ List.prefix_rfl

/-- What holds of the overlay wherever `x'` is cut off can be used for what is kept. -/
theorem mono {B' : Device → Prop} {R' : α → α' → Prop} {Q : Except ε α' → Device → Prop}
    (h : Steps f B x x' R d) (hc : Crash I x' (d.overlay f) Q)
    (hB : ∀ d', I (d'.overlay f) → B d' → B' d') (hR : ∀ a a', R a a' → R' a a') :
    Steps f B' x x' R' d := by
  obtain ⟨a, a', ha, ha', haa'⟩ := h.returns
  refine ⟨⟨a, a', ha, ha', hR a a' haa'⟩, h.writes, fun ws hws => ?_⟩
  obtain ⟨ws', hcut, heq, hkeep⟩ := h.cut hws
  exact hB _ (heq ▸ hc.cut ws' hcut) hkeep

/-- A sequence keeps step if its parts do. -/
theorem bind {k : α → DevM ε β} {k' : α' → DevM ε β'} {S : β → β' → Prop}
    (hx : Steps f B x x' R d) (hk : ∀ a a', x.result d = .ok a → x'.result (d.overlay f) = .ok a' →
      R a a' → Steps f B (k a) (k' a') S (x.final d)) :
    Steps f B (x >>= k) (x' >>= k') S d := by
  obtain ⟨a, a', ha, ha', hR⟩ := hx.returns
  have hrest := hk a a' ha ha' hR
  obtain ⟨b, b', hb, hb', hS⟩ := hrest.returns
  obtain ⟨hr, hw⟩ := bind_of_ok (f := k) ha
  obtain ⟨hr', hw'⟩ := bind_of_ok (f := k') ha'
  rw [← hx.final] at hr' hw'
  refine ⟨⟨b, b', hr.trans hb, hr'.trans hb', hS⟩, ?_, fun ws hws => ?_⟩
  · rw [hw, hw']
    exact List.rel_append hx.writes hrest.writes
  · -- a cut of the sequence is a cut of the first program, or lies behind it
    rw [hw] at hws
    rcases List.prefix_or_prefix_of_prefix hws (List.prefix_append (x.writes d) _) with h | h
    · exact hx.keeps ws h
    · obtain ⟨t, rfl⟩ := h
      rw [List.prefix_append_right_inj] at hws
      rw [Device.applyAll_append]
      exact hrest.keeps t hws

/-- Programs that do the same on these devices. -/
theorem congr {y : DevM ε α} {y' : DevM ε α'} (h : Steps f B x x' R d) (hy : y d = x d)
    (hy' : y' (d.overlay f) = x' (d.overlay f)) : Steps f B y y' R d where
  returns := by
    unfold DevM.result
    rw [hy, hy']
    exact h.returns
  writes := by
    unfold DevM.writes
    rw [hy, hy']
    exact h.writes
  keeps := by
    unfold DevM.writes
    rw [hy]
    exact h.keeps

end Steps

namespace Lockstep

variable {x : DevM ε α} {x' : DevM ε α'} {R : α → α' → Prop} {S : β → β' → Prop}
  {k : α → DevM ε β} {k' : α' → DevM ε β'}

/-- A program without writes. -/
theorem of_no_writes {a : α} {a' : α'} (hx : x d = (.ok a, []))
    (hx' : x' (d.overlay f) = (.ok a', [])) (hR : R a a') : Lockstep f I B G x x' R d := by
  have hws : x.writes d = [] := congrArg Prod.snd hx
  have hws' : x'.writes (d.overlay f) = [] := congrArg Prod.snd hx'
  intro hB _ _
  refine ⟨⟨a, a', congrArg Prod.fst hx, congrArg Prod.fst hx', hR⟩, ?_, fun ws h => ?_⟩
  · rw [hws, hws']
    exact List.Forall₂.nil
  · rw [hws, List.prefix_nil] at h
    rwa [h]

theorem pure {a : α} {a' : α'} (hR : R a a') :
    Lockstep f I B G (Pure.pure a : DevM ε α) (Pure.pure a' : DevM ε α') R d :=
  of_no_writes rfl rfl hR

/-- Nothing is asked where the other program fails. -/
theorem fail {e : ε} : Lockstep f I B G x (DevM.fail e : DevM ε α') R d := by
  intro _ hc _
  obtain ⟨_, h, -⟩ := hc.done
  cases h

/-- Nothing is asked where the program fails and was taken to return. -/
theorem of_error (hG : G) (hx : I (d.overlay f) → ∃ e, x.result d = .error e) :
    Lockstep f I B G x x' R d := by
  intro _ hc hret
  obtain ⟨a, ha⟩ := hret hG
  obtain ⟨e, he⟩ := hx hc.start
  rw [he] at ha
  cases ha

theorem write {w w' : Write} (hw : w.Mirrors f w') (hB : B d → B (d.apply w)) :
    Lockstep f I B G (DevM.write w : DevM ε Unit) (DevM.write w') (fun _ _ => True) d := by
  intro hd _ _
  refine ⟨⟨(), (), rfl, rfl, trivial⟩, List.Forall₂.cons hw List.Forall₂.nil, fun ws h => ?_⟩
  have h : ws <+: [w] := h
  rcases List.prefix_cons_iff.mp h with rfl | ⟨t, rfl, ht⟩
  · exact hd
  · rw [List.prefix_nil] at ht
    rw [ht]
    exact hB hd

theorem bind (hx : Lockstep f I B G x x' R d)
    (hk : ∀ a a', x.result d = .ok a → x'.result (d.overlay f) = .ok a' → R a a' →
      Lockstep f I B G (k a) (k' a') S (x.final d)) :
    Lockstep f I B G (x >>= k) (x' >>= k') S d := by
  intro hB hc hret
  have hsteps := hx hB hc.of_bind fun hG => by
    obtain ⟨b, hb⟩ := hret hG
    obtain ⟨a, ha, -⟩ := result_bind_eq_ok.mp hb
    exact ⟨a, ha⟩
  refine hsteps.bind fun a a' ha ha' hR => hk a a' ha ha' hR hsteps.keeps_final ?_ fun hG => ?_
  · rw [hsteps.final]
    exact hc.of_bind_of_ok ha'
  · obtain ⟨b, hb⟩ := hret hG
    rw [(bind_of_ok ha).1] at hb
    exact ⟨b, hb⟩

/-- Going on after a read that returns on both sides. -/
theorem query_bind {g : Device → Except ε α} {g' : Device → Except ε α'}
    (h : B d → I (d.overlay f) → ∀ a', g' (d.overlay f) = .ok a' →
      ∃ a, g d = .ok a ∧ Lockstep f I B G (k a) (k' a') S d) :
    Lockstep f I B G (DevM.query g >>= k) (DevM.query g' >>= k') S d := by
  intro hB hc hret
  obtain ⟨a', ha', -⟩ := hc.of_bind.done
  obtain ⟨a, ha, hk⟩ := h hB hc.start a' ha'
  have hq : Lockstep f I B G (DevM.query g) (DevM.query g') (fun b b' => b = a ∧ b' = a') d :=
    of_no_writes (Prod.ext ha rfl) (Prod.ext ha' rfl) ⟨rfl, rfl⟩
  refine hq.bind ?_ hB hc hret
  rintro b b' - - ⟨rfl, rfl⟩
  exact hk

end Lockstep

end DevM

/-! ## Programs that leave some bytes alone -/

/-- The devices agree outside `S`. -/
structure Device.SameOff (S : Set ℕ) (d d' : Device) : Prop where
  size : d'.size = d.size
  bytes : ∀ x ∉ S, d'.bytes x = d.bytes x

/-- The write touches no byte of `S`. -/
def Write.Avoids (S : Set ℕ) (w : Write) : Prop := ∀ x ∈ S, ¬ w.Covers x

namespace Device.SameOff

variable {S : Set ℕ} {d d' : Device}

theorem read (h : d.SameOff S d') {off len : ℕ} (hS : ∀ x ∈ S, ¬ (off ≤ x ∧ x < off + len)) :
    d'.read off len = d.read off len :=
  Device.read_congr h.size fun x h₁ h₂ => h.bytes x fun hx => hS x hx ⟨h₁, h₂⟩

theorem apply (h : d.SameOff S d') (w : Write) : (d.apply w).SameOff S (d'.apply w) := by
  refine ⟨?_, fun x hx => ?_⟩
  · simp only [Device.apply, h.size]
  · by_cases hcov : w.Covers x
    · rw [Device.apply_bytes_of_covers hcov, Device.apply_bytes_of_covers hcov]
    · rw [Device.apply_bytes_of_not_covers hcov, Device.apply_bytes_of_not_covers hcov,
        h.bytes x hx]

theorem applyAll (h : d.SameOff S d') (ws : List Write) :
    (d.applyAll ws).SameOff S (d'.applyAll ws) := by
  induction ws generalizing d d' with
  | nil => exact h
  | cons w ws ih => exact ih (h.apply w)

theorem symm (h : d.SameOff S d') : d'.SameOff S d :=
  ⟨h.size.symm, fun x hx => (h.bytes x hx).symm⟩

theorem overlay {f : Overlay} (hf : ∀ x ∉ S, ∀ y, f x y = y) (d : Device) :
    d.SameOff S (d.overlay f) := ⟨rfl, fun x hx => hf x hx _⟩

end Device.SameOff

namespace DevM

variable {ε α β : Type} {S : Set ℕ} {x y : DevM ε α} {k : α → DevM ε β}

/-- The program neither looks at the bytes of `S` nor writes any of them. -/
def Avoids (S : Set ℕ) (x : DevM ε α) : Prop :=
  ∀ d d', d.SameOff S d' → x d' = x d ∧ ∀ w ∈ x.writes d, w.Avoids S

namespace Avoids

theorem pure (a : α) : Avoids S (Pure.pure a : DevM ε α) :=
  fun _ _ _ => ⟨rfl, fun _ hw => absurd hw List.not_mem_nil⟩

theorem fail (e : ε) : Avoids S (DevM.fail e : DevM ε α) :=
  fun _ _ _ => ⟨rfl, fun _ hw => absurd hw List.not_mem_nil⟩

theorem query {g : Device → Except ε α} (hg : ∀ d d', d.SameOff S d' → g d' = g d) :
    Avoids S (DevM.query g) :=
  fun d d' h => ⟨Prod.ext (hg d d' h) rfl, fun _ hw => absurd hw List.not_mem_nil⟩

theorem write {w : Write} (hw : w.Avoids S) : Avoids S (DevM.write w : DevM ε Unit) :=
  fun _ _ _ => ⟨rfl, fun v hv => by rwa [List.mem_singleton.mp hv]⟩

theorem bind (hx : Avoids S x) (hk : ∀ a, Avoids S (k a)) : Avoids S (x >>= k) := by
  intro d d' h
  obtain ⟨hsame, havoid⟩ := hx d d' h
  have hres : x.result d' = x.result d := congrArg Prod.fst hsame
  have hws : x.writes d' = x.writes d := congrArg Prod.snd hsame
  cases ha : x.result d with
  | error e =>
      obtain ⟨hr, hw⟩ := bind_of_error (f := k) ha
      obtain ⟨hr', hw'⟩ := bind_of_error (f := k) (hres.trans ha)
      refine ⟨Prod.ext (hr'.trans hr.symm) (hw'.trans (hws.trans hw.symm)), fun w hmem => ?_⟩
      rw [hw] at hmem
      exact havoid w hmem
  | ok a =>
      obtain ⟨hr, hw⟩ := bind_of_ok (f := k) ha
      obtain ⟨hr', hw'⟩ := bind_of_ok (f := k) (hres.trans ha)
      have hfinal : (x.final d).SameOff S (x.final d') := by
        unfold DevM.final
        rw [hws]
        exact h.applyAll _
      obtain ⟨hsame', havoid'⟩ := hk a _ _ hfinal
      refine ⟨Prod.ext ?_ ?_, fun w hmem => ?_⟩
      · exact (hr'.trans (congrArg Prod.fst hsame')).trans hr.symm
      · exact (hw'.trans (congrArg₂ (· ++ ·) hws (congrArg Prod.snd hsame'))).trans hw.symm
      · rw [hw] at hmem
        exact (List.mem_append.mp hmem).elim (havoid w) (havoid' w)

theorem ite {c : Prop} [Decidable c] (hx : Avoids S x) (hy : Avoids S y) :
    Avoids S (if c then x else y) := by
  split
  · exact hx
  · exact hy

end Avoids

/-- Where the overlay changes only bytes of `S`, a program that avoids `S` keeps step with
itself. -/
theorem Lockstep.of_avoids {f : Overlay} {I B : Device → Prop} {G : Prop} {d : Device}
    (hx : Avoids S x)
    (hf : ∀ x ∉ S, ∀ y, f x y = y) (hB : ∀ d w, B d → w.Avoids S → B (d.apply w)) :
    Lockstep f I B G x x (fun a a' => a = a') d := by
  intro hd hc _
  obtain ⟨a, ha, -⟩ := hc.done
  obtain ⟨hsame, havoid⟩ := hx d _ (.overlay hf d)
  have hres : x.result (d.overlay f) = x.result d := congrArg Prod.fst hsame
  have hws : x.writes (d.overlay f) = x.writes d := congrArg Prod.snd hsame
  refine ⟨⟨a, a, hres.symm.trans ha, ha, rfl⟩, ?_, fun ws hsub => ?_⟩
  · rw [hws, List.forall₂_same]
    exact fun w hw => .refl fun x hcov => hf x fun hmem => havoid w hw x hmem hcov
  · apply Device.applyAll_induction hd
    exact fun d' w hw hd' => hB d' w hd' (havoid w (hsub.subset hw))

end DevM

end SystemExtras
