import SystemExtras.Ublock.Server

/-!
# Replies

`ublock_handle_request` trusts what it reads.  A request that is refused leaves the
length of the reply unset, and the lengths inside READ and WRITE requests are never
compared with the buffers.  The reply is well defined exactly for the requests that
every handler expects and whose lengths happen to fit (`wellDefined_iff_proper`).
-/

namespace SystemExtras.Ublock

variable {w : ℕ} {lay : Layout} {ctx : Ctx} {message : Message} {status : ℤ} {op : Op}

/-- The replies are small structures: their sizes are no problem for a `size_t`. -/
def Layout.Small (lay : Layout) : Prop := ∀ op, lay.outHeader + lay.outSize op < 2 ^ 32

/-- The handler does not refuse the message behind the header. -/
def BodyAccepted (lay : Layout) (message : Message) : Op → Prop
  | .init => message.length - lay.inHeader = lay.inSize .init ∧
      message.body lay lay.version = ublockVersion
  | .ready => message.length - lay.inHeader = lay.inSize .ready
  | .read => message.length - lay.inHeader = lay.inSize .read
  | .write => lay.inSize .write ≤ message.length - lay.inHeader

instance : Decidable (BodyAccepted lay message op) := by
  cases op <;> unfold BodyAccepted <;> infer_instance

/-- A complete header with a known request, and a body that its handler takes. -/
def Accepted (lay : Layout) (message : Message) : Prop :=
  lay.inHeader ≤ message.length ∧ ∃ op, lay.op? message = some op ∧ BodyAccepted lay message op

/-- The calls that a request asks for. -/
def callsFor (lay : Layout) (message : Message) : Op → List Call
  | .read => [.read (message.body lay lay.readLength) (message.body lay lay.readOffset)]
  | .write => [.write (lay.inHeader + lay.inSize .write) (message.body lay lay.writeLength)
      (message.body lay lay.writeOffset)]
  | .init | .ready => []

/-- The bytes that follow the reply. -/
def payload (lay : Layout) (message : Message) (status : ℤ) : Op → ℕ
  | .read => if 0 ≤ status then message.body lay lay.readLength else 0
  | .init | .ready | .write => 0

section Handlers

theorem handleFn_refused (h : ¬ BodyAccepted lay message op) :
    handleFn w lay ctx message (message.length - lay.inHeader) status op = refuse ctx := by
  cases op with
  | init =>
      by_cases hlen : message.length - lay.inHeader = lay.inSize .init
      · have hversion : message.body lay lay.version ≠ ublockVersion := fun hv => h ⟨hlen, hv⟩
        simp only [handleFn, ublockHandleInit, hlen, hversion, ne_eq, not_true_eq_false,
          not_false_eq_true, if_true, if_false]
      · exact if_pos hlen
  | ready => exact if_pos h
  | read => exact if_pos h
  | write => exact if_pos (not_le.mp h)

variable (hw : 32 ≤ w) (hsmall : lay.Small)

include hw hsmall in
theorem outSize_lt (op : Op) : lay.outHeader + lay.outSize op < 2 ^ w :=
  lt_of_lt_of_le (hsmall op) (Nat.pow_le_pow_right (by decide) hw)

include hw hsmall in
theorem handleFn_accepted (h : BodyAccepted lay message op) :
    (handleFn w lay ctx message (message.length - lay.inHeader) status op).result = 0 ∧
    (handleFn w lay ctx message (message.length - lay.inHeader) status op).outLen =
      some (sizeT w (lay.outSize op + payload lay message status op)) ∧
    (handleFn w lay ctx message (message.length - lay.inHeader) status op).calls =
      callsFor lay message op := by
  have hsize : sizeT w (lay.outSize op) = lay.outSize op :=
    Nat.mod_eq_of_lt (by have := outSize_lt hw hsmall op; omega)
  cases op with
  | init =>
      simp only [BodyAccepted] at h
      simp [handleFn, ublockHandleInit, payload, callsFor, h.1, h.2, hsize]
  | ready =>
      simp only [BodyAccepted] at h
      simp [handleFn, ublockHandleReady, payload, callsFor, h, hsize]
  | read =>
      simp only [BodyAccepted] at h
      simp only [handleFn, ublockHandleRead, payload, callsFor, h, ne_eq, not_true_eq_false,
        if_false, true_and, and_true]
      by_cases hstatus : 0 ≤ status
      · simp only [if_pos hstatus]
      · simp only [if_neg hstatus, Nat.add_zero, hsize]
  | write =>
      simp only [BodyAccepted] at h
      simp [handleFn, ublockHandleWrite, payload, callsFor, not_lt.mpr h, hsize]

/-- A refused request fails, and nothing is set. -/
theorem handleRequest_refused (h : ¬ Accepted lay message) :
    (ublockHandleRequest w lay ctx message status).1.result = -EPROTO ∧
    (ublockHandleRequest w lay ctx message status).1.outLen = none ∧
    (ublockHandleRequest w lay ctx message status).1.ctx = ctx := by
  unfold ublockHandleRequest
  by_cases hheader : message.length < lay.inHeader
  · rw [if_pos hheader]
    exact ⟨rfl, rfl, rfl⟩
  · rw [if_neg hheader]
    cases hop : lay.op? message with
    | none => exact ⟨rfl, rfl, rfl⟩
    | some op =>
        have hbody : ¬ BodyAccepted lay message op :=
          fun hbody => h ⟨not_lt.mp hheader, op, hop, hbody⟩
        simp only [handleFn_refused hbody]
        exact ⟨rfl, rfl, rfl⟩

include hw hsmall in
/-- An accepted request succeeds. -/
theorem handleRequest_accepted (hheader : lay.inHeader ≤ message.length)
    (hop : lay.op? message = some op) (hbody : BodyAccepted lay message op) :
    (ublockHandleRequest w lay ctx message status).1.result = 0 ∧
    (ublockHandleRequest w lay ctx message status).1.outLen =
      some (sizeT w (lay.outHeader + lay.outSize op + payload lay message status op)) ∧
    (ublockHandleRequest w lay ctx message status).1.calls = callsFor lay message op := by
  obtain ⟨hresult, hout, hcalls⟩ := handleFn_accepted hw hsmall hbody
  unfold ublockHandleRequest
  simp only [if_neg (not_lt.mpr hheader), hop]
  refine ⟨hresult, ?_, hcalls⟩
  rw [hout, Option.map_some, sizeT, sizeT, Nat.add_mod_mod, ← Nat.add_assoc]
  rfl

end Handlers

/-- The reply has a length and fits into the buffer; the callback for READ is asked for no more
than fits behind the headers; and the one for WRITE gets bytes of the request. -/
structure WellDefined (lay : Layout) (ctx : Ctx) (message : Message) (handled : Handled) :
    Prop where
  outLen : ∃ n, handled.outLen = some n ∧ n ≤ ctx.maxBuf
  read : ∀ length offset, .read length offset ∈ handled.calls →
    lay.outHeader + lay.outSize .read + length ≤ ctx.maxBuf
  write : ∀ start length offset, .write start length offset ∈ handled.calls →
    start + length ≤ message.length

/-- The bytes that a request asks for: those to read must fit behind the headers of the reply,
and those to write must have come with the request. -/
def LengthsFit (lay : Layout) (ctx : Ctx) (message : Message) : Op → Prop
  | .read => lay.outHeader + lay.outSize .read + message.body lay lay.readLength ≤ ctx.maxBuf
  | .write => lay.outHeader + lay.outSize .write ≤ ctx.maxBuf ∧
      lay.inHeader + lay.inSize .write + message.body lay lay.writeLength ≤ message.length
  | op => lay.outHeader + lay.outSize op ≤ ctx.maxBuf

/-- A request as the handlers expect it. -/
def Proper (lay : Layout) (ctx : Ctx) (message : Message) : Prop :=
  lay.inHeader ≤ message.length ∧ ∃ op, lay.op? message = some op ∧
    BodyAccepted lay message op ∧ LengthsFit lay ctx message op

theorem Proper.accepted (h : Proper lay ctx message) : Accepted lay message := by
  obtain ⟨hheader, op, hop, hbody, -⟩ := h
  exact ⟨hheader, op, hop, hbody⟩

/-- **When a reply is well defined.** -/
theorem wellDefined_iff_proper (hw : 32 ≤ w) (hsmall : lay.Small) (hmax : ctx.maxBuf < 2 ^ 32) :
    WellDefined lay ctx message (ublockHandleRequest w lay ctx message status).1 ↔
      Proper lay ctx message := by
  have hmax' : ctx.maxBuf < 2 ^ w := lt_of_lt_of_le hmax (Nat.pow_le_pow_right (by decide) hw)
  by_cases haccepted : Accepted lay message
  · obtain ⟨hheader, op, hop, hbody⟩ := haccepted
    obtain ⟨-, hout, hcalls⟩ :=
      handleRequest_accepted hw hsmall hheader hop hbody
    have hlt := outSize_lt hw hsmall op
    constructor
    · intro h
      refine ⟨hheader, op, hop, hbody, ?_⟩
      obtain ⟨n, hn, hle⟩ := h.outLen
      obtain rfl : _ = n := Option.some.inj (hout.symm.trans hn)
      cases op with
      | init | ready =>
          rwa [payload, Nat.add_zero, sizeT, Nat.mod_eq_of_lt hlt] at hle
      | read =>
          refine h.read _ (message.body lay lay.readOffset) ?_
          rw [hcalls]
          exact List.mem_singleton_self _
      | write =>
          rw [payload, Nat.add_zero, sizeT, Nat.mod_eq_of_lt hlt] at hle
          refine ⟨hle, h.write _ _ (message.body lay lay.writeOffset) ?_⟩
          rw [hcalls]
          exact List.mem_singleton_self _
    · intro h
      obtain ⟨-, op', hop', -, hfit⟩ := h
      obtain rfl : op = op' := Option.some.inj (hop.symm.trans hop')
      have hle : lay.outHeader + lay.outSize op + payload lay message status op ≤ ctx.maxBuf := by
        cases op with
        | init | ready => exact hfit
        | read =>
            have hpayload : payload lay message status .read ≤ message.body lay lay.readLength := by
              simp only [payload]
              split
              · exact le_rfl
              · exact Nat.zero_le _
            exact (Nat.add_le_add_left hpayload _).trans hfit
        | write => exact hfit.1
      refine ⟨⟨_, hout, ?_⟩, ?_, ?_⟩
      · rwa [sizeT, Nat.mod_eq_of_lt (lt_of_le_of_lt hle hmax')]
      · intro length offset hmem
        rw [hcalls] at hmem
        cases op with
        | read =>
            obtain ⟨rfl, -⟩ := Call.read.inj (List.mem_singleton.mp hmem)
            exact hfit
        | init | ready | write => simp [callsFor] at hmem
      · intro start length offset hmem
        rw [hcalls] at hmem
        cases op with
        | write =>
            obtain ⟨rfl, rfl, -⟩ := Call.write.inj (List.mem_singleton.mp hmem)
            exact hfit.2
        | init | ready | read => simp [callsFor] at hmem
  · refine ⟨fun h => ?_, fun h => absurd h.accepted haccepted⟩
    obtain ⟨n, hn, -⟩ := h.outLen
    rw [(handleRequest_refused haccepted).2.1] at hn
    cases hn

/-! ## A layout -/

/-- The structures without padding, with their fields in little endian. -/
def packedLayout : Layout where
  inHeader := 8
  outHeader := 8
  inSize
    | .init => 12
    | .ready => 4
    | .read => 16
    | .write => 16
  outSize
    | .init => 16
    | .ready => 4
    | .read => 4
    | .write => 4
  opcode := ⟨0, 4⟩
  seq := ⟨4, 4⟩
  version := ⟨0, 4⟩
  index := ⟨4, 4⟩
  maxBuf := ⟨8, 4⟩
  readLength := ⟨0, 8⟩
  readOffset := ⟨8, 8⟩
  writeLength := ⟨0, 8⟩
  writeOffset := ⟨8, 8⟩
  inOp
    | .init => 1
    | .ready => 2
    | .read => 3
    | .write => 4
  outOp
    | .init => 0x101
    | .ready => 0x102
    | .read => 0x103
    | .write => 0x104

theorem small_packedLayout : packedLayout.Small := by
  intro op
  cases op <;> decide

/-- A request with the given opcode and words behind the header. -/
def packedRequest (opcode : ℕ) (words : List ℕ) (length : ℕ) : Message where
  data := Mem.zero.assign (words.zipIdx.map fun p => (⟨8 + 4 * p.2, 4⟩, p.1))
    |>.store 0 4 opcode
  length := length

/-- A context after INIT. -/
def initedCtx (maxBuf : ℕ) : Ctx := ⟨0, 2 ^ 20, maxBuf, ⟨true, false, false⟩, 0⟩

/-- A READ of one sector. -/
def sectorRead : Message := packedRequest 3 [512, 0, 0, 0] 24

theorem wellDefined_iff_proper_sectorRead :
    WellDefined packedLayout (initedCtx 4096) sectorRead
      (ublockHandleRequest 32 packedLayout (initedCtx 4096) sectorRead 0).1 :=
  (wellDefined_iff_proper (by decide) small_packedLayout (by decide)).mpr
    ⟨by decide, .read, by decide, by decide,
      by unfold LengthsFit; decide⟩

/-- A READ of as many bytes as the buffer has, and a request that nobody knows. -/
theorem not_wellDefined_longRead :
    ¬ WellDefined packedLayout (initedCtx 4096) (packedRequest 3 [4096, 0, 0, 0] 24)
        (ublockHandleRequest 32 packedLayout (initedCtx 4096)
          (packedRequest 3 [4096, 0, 0, 0] 24) 0).1 ∧
      ¬ WellDefined packedLayout (initedCtx 4096) (packedRequest 9 [] 8)
        (ublockHandleRequest 32 packedLayout (initedCtx 4096) (packedRequest 9 [] 8) 0).1 := by
  constructor
  · intro h
    obtain ⟨n, hn, hle⟩ := h.outLen
    have hout : (ublockHandleRequest 32 packedLayout (initedCtx 4096)
        (packedRequest 3 [4096, 0, 0, 0] 24) 0).1.outLen = some 4108 := by decide
    obtain rfl : 4108 = n := Option.some.inj (hout.symm.trans hn)
    exact absurd hle (by decide)
  · intro h
    obtain ⟨n, hn, -⟩ := h.outLen
    have hout : (ublockHandleRequest 32 packedLayout (initedCtx 4096)
        (packedRequest 9 [] 8) 0).1.outLen = none := by decide
    rw [hout] at hn
    cases hn

end SystemExtras.Ublock
