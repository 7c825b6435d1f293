import SystemExtras.Ublock.Replies

/-!
# Runs of the server

Two promises about a whole run.  The buffers are allocated once, with the size that
the first request negotiated; a later INIT changes the size that is passed on with
them, so they stay large enough in the runs to which no larger INIT is delivered
(`capacity_of_modest`).  The server counts failed requests and means to stop after
`MAX_FAILURES` of them in a row, but its loop returns at the first
(`run_documented_iff`).
-/

namespace SystemExtras.Ublock

variable {w : ℕ} {lay : Layout} {ctx ctx' : Ctx} {message : Message} {status result : ℤ}
  {e : Event} {events : List Event} {inSize outSize : ℕ}

/-! ## What a request can change -/

/-- The settings of a context that no success, failure or stop changes. -/
structure SameSettings (ctx ctx' : Ctx) : Prop where
  maxBuf : ctx'.maxBuf = ctx.maxBuf
  inited : ctx'.flags.inited = ctx.flags.inited
  ready : ctx'.flags.ready = ctx.flags.ready
  running : ctx'.flags.running = true → ctx.flags.running = true

theorem SameSettings.refl (ctx : Ctx) : SameSettings ctx ctx := ⟨rfl, rfl, rfl, id⟩

theorem SameSettings.trans {ctx'' : Ctx} (h : SameSettings ctx ctx')
    (h' : SameSettings ctx' ctx'') :
    SameSettings ctx ctx'' :=
  ⟨h'.maxBuf.trans h.maxBuf, h'.inited.trans h.inited, h'.ready.trans h.ready,
    fun hr => h.running (h'.running hr)⟩

theorem sameSettings_stop (ctx : Ctx) : SameSettings ctx (ublockStop ctx) := by
  unfold ublockStop
  split
  · exact ⟨rfl, rfl, rfl, fun h => by cases h⟩
  · exact .refl ctx

theorem sameSettings_stopIf (stops : Bool) (ctx : Ctx) : SameSettings ctx (stopIf stops ctx) := by
  cases stops with
  | false => exact .refl ctx
  | true => exact sameSettings_stop ctx

theorem sameSettings_succeed (ctx : Ctx) : SameSettings ctx (ublockSucceed ctx) :=
  ⟨rfl, rfl, rfl, id⟩

theorem sameSettings_fail (ctx : Ctx) : SameSettings ctx (ublockFail ctx) := by
  have hcount : SameSettings ctx { ctx with fails := ctx.fails + 1 } := ⟨rfl, rfl, rfl, id⟩
  simp only [ublockFail]
  split
  · exact hcount.trans (sameSettings_stop _)
  · exact hcount

/-- An INIT request that is accepted. -/
def IsInit (lay : Layout) (message : Message) : Prop :=
  lay.inHeader ≤ message.length ∧ lay.op? message = some .init ∧ BodyAccepted lay message .init

/-- The size of the buffers that an INIT request leads to. -/
def maxBufOf (lay : Layout) (message : Message) : ℕ :=
  if message.body lay lay.maxBuf < MAX_BUF then message.body lay lay.maxBuf else MAX_BUF

instance : Decidable (IsInit lay message) :=
  inferInstanceAs (Decidable (lay.inHeader ≤ message.length ∧ lay.op? message = some .init ∧
    BodyAccepted lay message .init))

/-- What a handler makes of a context: INIT and READY set their flag, INIT also the size of the
buffers. -/
inductive Settles (lay : Layout) (message : Message) (ctx : Ctx) : Ctx → Prop
  | same : ¬ IsInit lay message → Settles lay message ctx ctx
  | ready : ¬ IsInit lay message →
      Settles lay message ctx { ctx with flags := { ctx.flags with ready := true } }
  | init (index : ℕ) : IsInit lay message → Settles lay message ctx
      { ctx with
        maxBuf := maxBufOf lay message
        index := index
        flags := { ctx.flags with inited := true } }

theorem Settles.inited {c : Ctx} (h : Settles lay message ctx c)
    (hinited : ctx.flags.inited = true) : c.flags.inited = true := by
  cases h with
  | same | ready => exact hinited
  | init => rfl

theorem Settles.running {c : Ctx} (h : Settles lay message ctx c) :
    c.flags.running = ctx.flags.running := by
  cases h <;> rfl

theorem handleRequest_settles :
    Settles lay message ctx (ublockHandleRequest w lay ctx message status).1.ctx := by
  by_cases haccepted : Accepted lay message
  · obtain ⟨hheader, op, hop, hbody⟩ := haccepted
    unfold ublockHandleRequest
    simp only [if_neg (not_lt.mpr hheader), hop]
    have hother : op ≠ .init → ¬ IsInit lay message := fun hne hinit =>
      hne (Option.some.inj (hop.symm.trans hinit.2.1))
    cases op with
    | init =>
        have hinit : IsInit lay message := ⟨hheader, hop, hbody⟩
        simp only [BodyAccepted] at hbody
        simp only [handleFn, ublockHandleInit, hbody.1, hbody.2, ne_eq, not_true_eq_false, if_false]
        exact .init _ hinit
    | ready =>
        simp only [BodyAccepted] at hbody
        simp only [handleFn, ublockHandleReady, hbody, ne_eq, not_true_eq_false, if_false]
        exact .ready (hother (by decide))
    | read =>
        simp only [BodyAccepted] at hbody
        simp only [handleFn, ublockHandleRead, hbody, ne_eq, not_true_eq_false, if_false]
        exact .same (hother (by decide))
    | write =>
        simp only [BodyAccepted] at hbody
        simp only [handleFn, ublockHandleWrite, not_lt.mpr hbody, if_false]
        exact .same (hother (by decide))
  · rw [(handleRequest_refused haccepted).2.2]
    exact .same fun hinit => haccepted ⟨hinit.1, .init, hinit.2⟩

/-- Everything that a request can do to the settings. -/
theorem doRequest_cases (h : ublockDoRequest w lay ctx inSize outSize e = .returned result ctx') :
    (readRequest e inSize = none ∧ SameSettings ctx ctx') ∨
      ∃ message c, readRequest e inSize = some message ∧ Settles lay message ctx c ∧
        SameSettings c ctx' := by
  unfold ublockDoRequest at h
  cases hread : readRequest e inSize with
  | none =>
      simp only [hread, Outcome.returned.injEq] at h
      rw [← h.2]
      exact .inl ⟨rfl, .refl ctx⟩
  | some message =>
      simp only [hread] at h
      refine .inr ⟨message, (ublockHandleRequest w lay ctx message e.status).1.ctx, rfl,
        handleRequest_settles, ?_⟩
      have hstop := sameSettings_stopIf e.stops
        (ublockHandleRequest w lay ctx message e.status).1.ctx
      split at h
      · cases h
      · split at h
        · obtain ⟨-, rfl⟩ := Outcome.returned.inj h
          exact hstop
        · split at h
          · obtain ⟨-, rfl⟩ := Outcome.returned.inj h
            exact hstop.trans (sameSettings_fail _)
          · obtain ⟨-, rfl⟩ := Outcome.returned.inj h
            exact hstop.trans (sameSettings_succeed _)

/-! ## The size of the buffers -/

/-- The size that is passed on with the buffers after a request. -/
def maxBufAfter (lay : Layout) (maxBuf : ℕ) (e : Event) : ℕ :=
  match readRequest e maxBuf with
  | none => maxBuf
  | some message => if IsInit lay message then maxBufOf lay message else maxBuf

/-- No INIT among these requests that is delivered asks for more than `cap` bytes.  What can be
delivered depends on the size that was negotiated before. -/
def Modest (lay : Layout) (cap : ℕ) : ℕ → List Event → Prop
  | _, [] => True
  | maxBuf, e :: rest =>
      (∀ message, readRequest e maxBuf = some message → IsInit lay message →
        maxBufOf lay message ≤ cap) ∧ Modest lay cap (maxBufAfter lay maxBuf e) rest

theorem doRequest_maxBuf
    (h : ublockDoRequest w lay ctx ctx.maxBuf outSize e = .returned result ctx') :
    ctx'.maxBuf = maxBufAfter lay ctx.maxBuf e := by
  unfold maxBufAfter
  obtain ⟨hread, hsame⟩ | ⟨message, c, hread, hsettles, hsame⟩ := doRequest_cases h
  · rw [hread]
    exact hsame.maxBuf
  · rw [hread, hsame.maxBuf]
    cases hsettles with
    | same hother => exact (if_neg hother).symm
    | ready hother => exact (if_neg hother).symm
    | init index hinit => exact (if_pos hinit).symm

theorem doRequest_modest {cap : ℕ} (hmodest : Modest lay cap ctx.maxBuf (e :: events))
    (hle : ctx.maxBuf ≤ cap)
    (h : ublockDoRequest w lay ctx ctx.maxBuf outSize e = .returned result ctx') :
    ctx'.maxBuf ≤ cap ∧ Modest lay cap ctx'.maxBuf events := by
  obtain ⟨hasks, hrest⟩ := hmodest
  rw [doRequest_maxBuf h]
  refine ⟨?_, hrest⟩
  unfold maxBufAfter
  split
  · exact hle
  · rename_i message hread
    split
    · exact hasks message hread ‹_›
    · exact hle

theorem loopFrom_modest {cap : ℕ} {exitCond : ExitCond} (hmodest : Modest lay cap ctx.maxBuf events)
    (hle : ctx.maxBuf ≤ cap)
    (hend : (loopFrom w lay exitCond ctx result events).ending ≠ .aborted) :
    (loopFrom w lay exitCond ctx result events).ctx.maxBuf ≤ cap ∧
      Modest lay cap (loopFrom w lay exitCond ctx result events).ctx.maxBuf
        (loopFrom w lay exitCond ctx result events).rest := by
  induction events generalizing ctx result with
  | nil => exact ⟨hle, hmodest⟩
  | cons e rest ih =>
      rw [loopFrom] at hend ⊢
      split
      · rename_i hgo
        rw [if_pos hgo] at hend
        split
        · rename_i habort
          rw [habort] at hend
          exact absurd rfl hend
        · rename_i result' ctx' hrequest
          obtain ⟨hle', hmodest'⟩ := doRequest_modest hmodest hle hrequest
          rw [hrequest] at hend
          simp only at hend
          split
          · exact ⟨hle', hmodest'⟩
          · rename_i hzero
            rw [if_neg hzero] at hend
            exact ih hmodest' hle' hend
      · exact ⟨hle, hmodest⟩

/-- The contexts that a client can bring about after `ublock_init`, with the requests that are
left: `ublock_run` sets its flag and serves requests while it is set, as often as it is called,
and `ublock_stop` can be called at any time. -/
inductive Reaches (w : ℕ) (lay : Layout) (ctx : Ctx) (events : List Event) :
    Ctx → List Event → Prop
  | refl : Reaches w lay ctx events ctx events
  | stop {c : Ctx} {es : List Event} : Reaches w lay ctx events c es →
      Reaches w lay ctx events (ublockStop c) es
  | start {c : Ctx} {es : List Event} : Reaches w lay ctx events c es → c.flags.inited = true →
      Reaches w lay ctx events c.setRunning es
  | request {c c' : Ctx} {e : Event} {es : List Event} {result : ℤ} :
      Reaches w lay ctx events c (e :: es) → c.flags.running = true →
      ublockDoRequest w lay c c.maxBuf c.maxBuf e = .returned result c' →
      Reaches w lay ctx events c' es

theorem Reaches.trans {c c' : Ctx} {es es' : List Event} (h : Reaches w lay ctx events c es)
    (h' : Reaches w lay c es c' es') : Reaches w lay ctx events c' es' := by
  induction h' with
  | refl => exact h
  | stop _ ih => exact ih.stop
  | start _ hinited ih => exact ih.start hinited
  | request _ hrunning hrequest ih => exact ih.request hrunning hrequest

theorem goesOn_stopped : goesOn ⟨false, true, false⟩ ctx result = ctx.flags.running := by
  simp [goesOn]

theorem reaches_loopFrom
    (hend : (loopFrom w lay ⟨false, true, false⟩ ctx result events).ending ≠ .aborted) :
    Reaches w lay ctx events (loopFrom w lay ⟨false, true, false⟩ ctx result events).ctx
      (loopFrom w lay ⟨false, true, false⟩ ctx result events).rest := by
  induction events generalizing ctx result with
  | nil => exact .refl
  | cons e rest ih =>
      rw [loopFrom] at hend ⊢
      split
      · rename_i hgo
        rw [if_pos hgo] at hend
        have hrunning : ctx.flags.running = true := goesOn_stopped.symm.trans hgo
        split
        · rename_i habort
          rw [habort] at hend
          exact absurd rfl hend
        · rename_i result' ctx' hrequest
          have hstep : Reaches w lay ctx (e :: rest) ctx' rest :=
            Reaches.refl.request hrunning hrequest
          rw [hrequest] at hend
          simp only at hend
          split
          · exact hstep
          · rename_i hzero
            rw [if_neg hzero] at hend
            exact hstep.trans (ih hend)
      · exact .refl

/-- What `ublock_run` leaves behind is reached. -/
theorem reaches_run (hend : (ublockRun w lay ctx events).ending ≠ .aborted) :
    Reaches w lay ctx events (ublockRun w lay ctx events).ctx
      (ublockRun w lay ctx events).rest := by
  unfold ublockRun at hend ⊢
  by_cases hinited : ctx.flags.inited = true
  · rw [if_pos hinited] at hend ⊢
    have hstart : Reaches w lay ctx events ctx.setRunning events := Reaches.refl.start hinited
    refine hstart.trans (reaches_loopFrom fun habort => hend ?_)
    simp only [ublockLoop, habort, LoopEnd.ignore]
  · rw [if_neg hinited]
    exact .refl

theorem Reaches.modest {cap : ℕ} {c : Ctx} {es : List Event} (h : Reaches w lay ctx events c es)
    (hmodest : Modest lay cap ctx.maxBuf events) (hle : ctx.maxBuf ≤ cap) :
    c.maxBuf ≤ cap ∧ Modest lay cap c.maxBuf es := by
  induction h with
  | refl => exact ⟨hle, hmodest⟩
  | stop _ ih =>
      rw [(sameSettings_stop _).maxBuf]
      exact ih
  | start _ _ ih => exact ih
  | request _ _ hrequest ih => exact doRequest_modest ih.2 ih.1 hrequest

/-- Without INIT there is nothing to run. -/
theorem Reaches.of_not_inited {c : Ctx} {es : List Event} (h : Reaches w lay ctx events c es)
    (hinited : ctx.flags.inited = false) (hrunning : ctx.flags.running = false) :
    c.maxBuf = ctx.maxBuf ∧ c.flags.inited = false ∧ c.flags.running = false := by
  induction h with
  | refl => exact ⟨rfl, hinited, hrunning⟩
  | @stop c es _ ih =>
      have hsame := sameSettings_stop c
      refine ⟨hsame.maxBuf.trans ih.1, hsame.inited.trans ih.2.1, ?_⟩
      by_contra hne
      exact absurd (hsame.running (by simpa using hne)) (by simp [ih.2.2])
  | start _ hset ih => exact absurd hset (by simp [ih.2.1])
  | request _ hset _ ih => exact absurd hset (by simp [ih.2.2])

theorem awaitReady_started {env : InitEnv} {server : Server} {rest : List Event}
    (h : awaitReady w lay env ctx events = .started server rest) :
    server.inCap = ctx.maxBuf ∧ server.outCap = ctx.maxBuf ∧
      server.ctx = (loopFrom w lay ⟨true, false, false⟩ ctx 0 events).ctx ∧
      rest = (loopFrom w lay ⟨true, false, false⟩ ctx 0 events).rest ∧
      (loopFrom w lay ⟨true, false, false⟩ ctx 0 events).ending ≠ .aborted := by
  simp only [awaitReady, ublockLoop] at h
  split at h
  · cases h
  · split at h
    · cases h
    · cases h
    · rename_i hend
      obtain ⟨rfl, rfl⟩ := InitEnd.started.inj h
      refine ⟨rfl, rfl, rfl, rfl, ?_⟩
      rw [hend]
      exact LoopEnd.noConfusion

/-- The first request of `ublock_init` has been served. -/
theorem init_cases {env : InitEnv} {devSize : ℕ} {server : Server} {rest : List Event}
    (h : ublockInit w lay env devSize events = .started server rest) :
    ∃ first tail ctx, events = first :: tail ∧
      awaitReady w lay env ctx tail = .started server rest ∧
      ublockDoRequest w lay (initialCtx env devSize) (ublockInitBufSize lay)
        (ublockInitBufSize lay) first = .returned 0 ctx ∧ ctx.flags ≠ ⟨false, false, false⟩ := by
  unfold ublockInit at h
  split at h
  · cases h
  split at h
  · cases h
  split at h
  · cases h
  cases events with
  | nil => cases h
  | cons first tail =>
      simp only at h
      split at h
      · cases h
      · rename_i result ctx hrequest
        split at h
        · cases h
        · rename_i hzero
          split at h
          · cases h
          · rename_i hflags
            rw [not_not.mp hzero] at hrequest
            exact ⟨first, tail, ctx, rfl, h, hrequest, hflags⟩

/-- That request was INIT, or there is nothing but READY. -/
theorem first_cases {env : InitEnv} {devSize : ℕ}
    (h : ublockDoRequest w lay (initialCtx env devSize) inSize outSize e = .returned result ctx)
    (hflags : ctx.flags ≠ ⟨false, false, false⟩) :
    (∃ message, e.request = some message ∧ IsInit lay message ∧
      ctx.maxBuf = maxBufOf lay message) ∨
    (ctx.flags.ready = true ∧ ctx.flags.inited = false ∧ ctx.flags.running = false) := by
  -- a context like the one that was set up has no flag
  have hnone : ∀ c : Ctx, SameSettings c ctx → c.flags = ⟨false, false, false⟩ → False := by
    intro c hsame hc
    have hrunning : ctx.flags.running = false := by
      by_contra hne
      have := hsame.running (by simpa using hne)
      rw [hc] at this
      cases this
    have hinited := hsame.inited
    have hready := hsame.ready
    rw [hc] at hinited hready
    exact hflags (Flags.ext hinited hready hrunning)
  obtain ⟨-, hsame⟩ | ⟨message, c, hread, hsettles, hsame⟩ := doRequest_cases h
  · exact (hnone _ hsame rfl).elim
  · have hrequest : e.request = some message := (Option.filter_eq_some_iff.mp hread).1
    cases hsettles with
    | same => exact (hnone _ hsame rfl).elim
    | ready =>
        refine .inr ⟨hsame.ready, hsame.inited, ?_⟩
        by_contra hne
        have := hsame.running (by simpa using hne)
        cases this
    | init index hinit => exact .inl ⟨message, hrequest, hinit, hsame.maxBuf⟩

/-- **The buffers stay large enough** in every run in which no INIT that is delivered asks for more
than the first one did. -/
theorem capacity_of_modest {env : InitEnv} {devSize : ℕ} {server : Server} {first : Event}
    {rest : List Event}
    (hinit : ublockInit w lay env devSize (first :: events) = .started server rest)
    (hmodest : ∀ message, first.request = some message → IsInit lay message →
      Modest lay (maxBufOf lay message) (maxBufOf lay message) events)
    {c : Ctx} {es : List Event} (hreaches : Reaches w lay server.ctx rest c es) :
    c.maxBuf ≤ server.inCap ∧ c.maxBuf ≤ server.outCap := by
  obtain ⟨first', tail, ctx, hevents, hawait, hrequest, hflags⟩ := init_cases hinit
  obtain ⟨rfl, rfl⟩ := List.cons.inj hevents
  obtain ⟨hin, hout, hctx, hrest, hend⟩ := awaitReady_started hawait
  have hcap : c.maxBuf ≤ ctx.maxBuf := by
    obtain ⟨message, hmessage, hfirst, hmax⟩ | ⟨hready, hinited, hrunning⟩ :=
      first_cases hrequest hflags
    · have hrests := hmodest message hmessage hfirst
      rw [← hmax] at hrests
      obtain ⟨hle, hmodest'⟩ : server.ctx.maxBuf ≤ ctx.maxBuf ∧
          Modest lay ctx.maxBuf server.ctx.maxBuf rest := by
        rw [hctx, hrest]
        exact loopFrom_modest hrests le_rfl hend
      exact (hreaches.modest hmodest' hle).1
    · -- the loop of `ublock_init` ends at once
      have hloop : (loopFrom w lay ⟨true, false, false⟩ ctx 0 events).ctx = ctx := by
        cases events with
        | nil => rfl
        | cons e events => simp [loopFrom, goesOn, hready]
      rw [hloop] at hctx
      rw [hctx] at hreaches
      exact (hreaches.of_not_inited hinited hrunning).1.le
  exact ⟨hin ▸ hcap, hout ▸ hcap⟩

/-- A request that is read, and answered with `wrote` bytes. -/
def servedEvent (message : Message) (stops : Bool) (wrote : ℕ) : Event :=
  ⟨some message, 0, stops, 0, wrote⟩

/-- INIT, asking for `maxBuf` bytes. -/
def initEvent (maxBuf : ℕ) : Event := servedEvent (packedRequest 1 [0, 3, maxBuf] 20) false 24

def readyEvent : Event := servedEvent (packedRequest 2 [0] 12) false 12

/-- Everything works. -/
def goodEnv : InitEnv := ⟨true, true, true, true, 0⟩

/-- The server after INIT with 4096 bytes and READY. -/
def readyServer : Server := ⟨⟨3, 2 ^ 20, 4096, ⟨true, true, false⟩, 0⟩, 4096, 4096⟩

theorem init_readyServer : ublockInit 32 packedLayout goodEnv (2 ^ 20)
    [initEvent 4096, readyEvent, initEvent 512] = .started readyServer [initEvent 512] := rfl

theorem capacity_of_modest_readyServer : Reaches 32 packedLayout readyServer.ctx [initEvent 512]
      (ublockRun 32 packedLayout readyServer.ctx [initEvent 512]).ctx [] ∧
    (ublockRun 32 packedLayout readyServer.ctx [initEvent 512]).ctx.maxBuf ≤ readyServer.inCap := by
  have hreaches : Reaches 32 packedLayout readyServer.ctx [initEvent 512]
      (ublockRun 32 packedLayout readyServer.ctx [initEvent 512]).ctx [] :=
    reaches_run (by decide)
  refine ⟨hreaches, (capacity_of_modest init_readyServer ?_ hreaches).1⟩
  intro message hmessage _
  obtain rfl : packedRequest 1 [0, 3, 4096] 20 = message := Option.some.inj hmessage
  refine ⟨fun m hm _ => ?_, fun m hm _ => ?_, trivial⟩
  · obtain rfl : packedRequest 2 [0] 12 = m := Option.some.inj hm
    decide
  · obtain rfl : packedRequest 1 [0, 3, 512] 20 = m := Option.some.inj hm
    decide

/-- INIT with 4096 bytes, then with 8192, then READY: the buffers have half the size. -/
theorem not_capacity_twoInits : ∃ server, ublockInit 32 packedLayout goodEnv (2 ^ 20)
      [initEvent 4096, initEvent 8192, readyEvent] = .started server [] ∧
    ¬ (server.ctx.maxBuf ≤ server.inCap ∧ server.ctx.maxBuf ≤ server.outCap) :=
  ⟨⟨⟨3, 2 ^ 20, 8192, ⟨true, true, false⟩, 0⟩, 4096, 4096⟩, rfl, by decide⟩

/-! ## Failed requests -/

instance : Decidable (Accepted lay message) :=
  inferInstanceAs (Decidable (lay.inHeader ≤ message.length ∧
    ∃ op ∈ lay.op? message, BodyAccepted lay message op))

/-- A request that the server refuses. -/
def Fails (lay : Layout) (e : Event) : Prop :=
  ∃ message ∈ e.request, ¬ Accepted lay message

instance : Decidable (Fails lay e) :=
  inferInstanceAs (Decidable (∃ message ∈ e.request, ¬ Accepted lay message))

/-- The number of failures in a row after a request. -/
def failsAfter (lay : Layout) (fails : ℤ) (e : Event) : ℤ := if Fails lay e then fails + 1 else 0

/-- The loop as the counter of failures means it: requests are served until `ublock_stop` is
called or more than `MAX_FAILURES` of them have failed in a row.  The result is the number of
requests, and whether the loop has ended. -/
def documentedRun (lay : Layout) : ℤ → List Event → ℕ × Bool
  | _, [] => (0, false)
  | fails, e :: rest =>
      if e.stops ∨ MAX_FAILURES < failsAfter lay fails e then (1, true)
      else
        let r := documentedRun lay (failsAfter lay fails e) rest
        (r.1 + 1, r.2)

/-- The same of a run of the code. -/
def LoopResult.progress (r : LoopResult) : ℕ × Bool := (r.served, decide (r.ending ≠ .waiting))

/-- The control file works: the request is read, and its reply is written. -/
def Answers (w : ℕ) (lay : Layout) (ctx : Ctx) (e : Event) : Prop :=
  ∃ message, readRequest e ctx.maxBuf = some message ∧
    ((ublockHandleRequest w lay ctx message e.status).1.outLen.getD e.junk ≤ ctx.maxBuf) ∧
    ((ublockHandleRequest w lay ctx message e.status).1.outLen.getD e.junk ≤
      (e.wrote % 2 ^ w).toNat)

/-- It works for every request that a run serves. -/
def Answered (w : ℕ) (lay : Layout) : Ctx → List Event → Prop
  | _, [] => True
  | ctx, e :: rest => Answers w lay ctx e ∧ ∀ ctx',
      ublockDoRequest w lay ctx ctx.maxBuf ctx.maxBuf e = .returned 0 ctx' →
        Answered w lay ctx' rest

/-- The first request that fails is one during which `ublock_stop` is called, or it is the first
of the run and as many as are allowed have failed before. -/
def FirstFailureStops (lay : Layout) (fails : ℤ) (events : List Event) : Prop :=
  ∀ pre e post, events = pre ++ e :: post → (∀ p ∈ pre, ¬ Fails lay p ∧ p.stops = false) →
    Fails lay e → e.stops = true ∨ (pre = [] ∧ MAX_FAILURES ≤ fails)

section Failures

variable {fails : ℤ}

theorem firstFailureStops_of_fails (he : Fails lay e) :
    FirstFailureStops lay fails (e :: events) ↔ e.stops = true ∨ MAX_FAILURES ≤ fails := by
  constructor
  · intro h
    obtain hstop | ⟨-, hle⟩ := h [] e events rfl (fun p hp => by cases hp) he
    · exact .inl hstop
    · exact .inr hle
  · intro h pre e' post hsplit hpre he'
    cases pre with
    | nil =>
        obtain ⟨rfl, -⟩ := List.cons.inj hsplit
        exact h.imp id fun hle => ⟨rfl, hle⟩
    | cons p pre =>
        obtain ⟨rfl, -⟩ := List.cons.inj hsplit
        exact absurd he (hpre e List.mem_cons_self).1

theorem firstFailureStops_of_not_fails (he : ¬ Fails lay e) :
    FirstFailureStops lay fails (e :: events) ↔ e.stops = true ∨
      FirstFailureStops lay 0 events := by
  constructor
  · intro h
    by_cases hstop : e.stops = true
    · exact .inl hstop
    · refine .inr fun pre e' post hsplit hpre he' => ?_
      obtain hstop' | ⟨hnil, -⟩ := h (e :: pre) e' post (by rw [hsplit]; rfl) (by
        intro p hp
        obtain rfl | hp := List.mem_cons.mp hp
        · exact ⟨he, by simpa using hstop⟩
        · exact hpre p hp) he'
      · exact .inl hstop'
      · cases hnil
  · intro h pre e' post hsplit hpre he'
    cases pre with
    | nil =>
        obtain ⟨rfl, -⟩ := List.cons.inj hsplit
        exact absurd he' he
    | cons p pre =>
        obtain ⟨rfl, rfl⟩ := List.cons.inj hsplit
        obtain hstop | hrest := h
        · rw [(hpre e List.mem_cons_self).2] at hstop
          cases hstop
        · obtain hstop | ⟨-, hle⟩ := hrest pre e' post rfl
            (fun p hp => hpre p (List.mem_cons_of_mem _ hp)) he'
          · exact .inl hstop
          · exact absurd hle (by decide)

/-- A loop that has ended has served a request. -/
theorem documentedRun_ne (fails : ℤ) (events : List Event) :
    documentedRun lay fails events ≠ (0, true) := by
  cases events with
  | nil => exact fun h => by cases h
  | cons e rest =>
      simp only [documentedRun]
      split <;> simp

theorem handleRequest_result (h : Accepted lay message) :
    (ublockHandleRequest w lay ctx message status).1.result = 0 := by
  obtain ⟨hheader, op, hop, hbody⟩ := h
  unfold ublockHandleRequest
  simp only [if_neg (not_lt.mpr hheader), hop]
  cases op with
  | init =>
      simp only [BodyAccepted] at hbody
      simp [handleFn, ublockHandleInit, hbody.1, hbody.2]
  | ready =>
      simp only [BodyAccepted] at hbody
      simp [handleFn, ublockHandleReady, hbody]
  | read =>
      simp only [BodyAccepted] at hbody
      simp [handleFn, ublockHandleRead, hbody]
  | write =>
      simp only [BodyAccepted] at hbody
      simp [handleFn, ublockHandleWrite, not_lt.mpr hbody]

theorem doRequest_of_fails (h : Answers w lay ctx e) (hfails : Fails lay e) :
    ∃ c, ublockDoRequest w lay ctx ctx.maxBuf ctx.maxBuf e = .returned (-EPROTO) c := by
  obtain ⟨message, hread, hout, hwrote⟩ := h
  obtain ⟨message', hrequest, hrefused⟩ := hfails
  obtain rfl : message' = message :=
    Option.some.inj (hrequest.symm.trans (Option.filter_eq_some_iff.mp hread).1)
  refine ⟨ublockFail (stopIf e.stops ctx), ?_⟩
  obtain ⟨hresult, -, hctx⟩ := handleRequest_refused hrefused
  unfold ublockDoRequest
  simp only [hread, if_neg (not_lt.mpr hout), if_neg (not_lt.mpr hwrote)]
  rw [hresult, hctx, if_pos (by decide)]

theorem doRequest_of_not_fails (h : Answers w lay ctx e) (hfails : ¬ Fails lay e)
    (hinited : ctx.flags.inited = true) (hrunning : ctx.flags.running = true) :
    ∃ c, ublockDoRequest w lay ctx ctx.maxBuf ctx.maxBuf e = .returned 0 c ∧ c.fails = 0 ∧
      c.flags.inited = true ∧ c.flags.running = !e.stops := by
  obtain ⟨message, hread, hout, hwrote⟩ := h
  have haccepted : Accepted lay message := by
    by_contra hrefused
    exact hfails ⟨message, (Option.filter_eq_some_iff.mp hread).1, hrefused⟩
  have hresult : (ublockHandleRequest w lay ctx message e.status).1.result = 0 :=
    handleRequest_result haccepted
  have hsettles : Settles lay message ctx (ublockHandleRequest w lay ctx message e.status).1.ctx :=
    handleRequest_settles
  refine ⟨ublockSucceed (stopIf e.stops (ublockHandleRequest w lay ctx message e.status).1.ctx),
    ?_, rfl, ?_, ?_⟩
  · unfold ublockDoRequest
    simp only [hread, if_neg (not_lt.mpr hout), if_neg (not_lt.mpr hwrote)]
    rw [hresult, if_neg (by decide)]
  · exact (sameSettings_stopIf e.stops _).inited.trans (hsettles.inited hinited)
  · cases hstops : e.stops with
    | false => exact hsettles.running.trans hrunning
    | true => simp [stopIf, ublockStop, ublockSucceed, hsettles.inited hinited]

theorem progress_after (r : LoopResult) : r.after.progress = (r.progress.1 + 1, r.progress.2) := rfl

theorem loopFrom_of_not_goesOn {exitCond : ExitCond} (h : goesOn exitCond ctx result = false) :
    loopFrom w lay exitCond ctx result events = ⟨0, .returned 0, ctx, events⟩ := by
  cases events <;> simp [loopFrom, h]

/-- The loop of `ublock_run`, from a context in which it goes on. -/
theorem loopFrom_documented_iff (hinited : ctx.flags.inited = true)
    (hrunning : ctx.flags.running = true) (hanswered : Answered w lay ctx events) :
    (loopFrom w lay ⟨false, true, false⟩ ctx result events).progress =
      documentedRun lay ctx.fails events ↔ FirstFailureStops lay ctx.fails events := by
  induction events generalizing ctx result with
  | nil =>
      have hgo : goesOn ⟨false, true, false⟩ ctx result = true := goesOn_stopped.trans hrunning
      refine iff_of_true ?_ fun pre e post hsplit => by simp at hsplit
      simp [loopFrom, LoopResult.progress, documentedRun, hgo]
  | cons e rest ih =>
      obtain ⟨hanswers, hrest⟩ := hanswered
      rw [loopFrom, if_pos (goesOn_stopped.trans hrunning)]
      by_cases hfails : Fails lay e
      · -- the code returns; so does the other loop if it was to stop anyway
        obtain ⟨c, hrequest⟩ := doRequest_of_fails hanswers hfails
        have hafter : failsAfter lay ctx.fails e = ctx.fails + 1 := if_pos hfails
        simp only [hrequest, documentedRun, hafter, firstFailureStops_of_fails hfails,
          if_pos (show -EPROTO ≠ 0 by decide), ← Int.add_one_le_iff, add_le_add_iff_right]
        by_cases hstop : e.stops = true ∨ MAX_FAILURES ≤ ctx.fails
        · simp [LoopResult.progress, hstop]
        · refine iff_of_false ?_ hstop
          rw [if_neg hstop]
          intro heq
          have hfst : (documentedRun lay (ctx.fails + 1) rest).1 = 0 :=
            (Nat.succ.inj (congrArg Prod.fst heq)).symm
          have hsnd : (documentedRun lay (ctx.fails + 1) rest).2 = true :=
            (congrArg Prod.snd heq).symm
          exact documentedRun_ne _ _ (Prod.ext hfst hsnd)
      · obtain ⟨c, hrequest, hzero, hinited', hrunning'⟩ :=
          doRequest_of_not_fails hanswers hfails hinited hrunning
        have hafter : failsAfter lay ctx.fails e = 0 := if_neg hfails
        simp only [hrequest, documentedRun, hafter, firstFailureStops_of_not_fails hfails]
        rw [if_neg (by decide)]
        by_cases hstop : e.stops = true
        · have hend : goesOn ⟨false, true, false⟩ c 0 = false := by
            rw [goesOn_stopped, hrunning', hstop]
            rfl
          refine iff_of_true ?_ (.inl hstop)
          rw [if_pos (.inl hstop), progress_after, loopFrom_of_not_goesOn hend]
          rfl
        · have hrunning : c.flags.running = true := by simpa [hstop] using hrunning'
          have hnot : ¬ (e.stops = true ∨ MAX_FAILURES < 0) := by
            rintro (h | h)
            · exact hstop h
            · exact absurd h (by decide)
          have hih : (loopFrom w lay ⟨false, true, false⟩ c 0 rest).progress =
              documentedRun lay c.fails rest ↔ FirstFailureStops lay c.fails rest :=
            ih hinited' hrunning (hrest c hrequest)
          rw [hzero] at hih
          rw [if_neg hnot, progress_after, Prod.ext_iff, or_iff_right hstop, ← hih, Prod.ext_iff]
          simp

theorem progress_ignore (r : LoopResult) :
    LoopResult.progress { r with ending := r.ending.ignore } = r.progress := by
  cases hend : r.ending <;> simp [LoopResult.progress, LoopEnd.ignore, hend]

/-- **When failures are tolerated as the counter promises**: exactly when there is nothing to
tolerate. -/
theorem run_documented_iff (hinited : ctx.flags.inited = true)
    (hanswered : Answered w lay ctx.setRunning events) :
    (ublockRun w lay ctx events).progress = documentedRun lay ctx.fails events ↔
      FirstFailureStops lay ctx.fails events := by
  unfold ublockRun
  rw [if_pos hinited, progress_ignore]
  exact loopFrom_documented_iff hinited rfl hanswered

/-- A READ of one sector. -/
def readEvent (stops : Bool) : Event := servedEvent sectorRead stops 524

theorem run_documented_iff_readEvents :
    (ublockRun 32 packedLayout readyServer.ctx [readEvent false, readEvent true]).progress =
      documentedRun packedLayout 0 [readEvent false, readEvent true] := by
  refine (run_documented_iff rfl ?_).mpr ?_
  · refine ⟨⟨sectorRead, rfl, by decide, by decide⟩, fun c hc => ?_⟩
    obtain ⟨-, rfl⟩ := Outcome.returned.inj hc
    exact ⟨⟨sectorRead, rfl, by decide, by decide⟩, fun _ _ => trivial⟩
  · intro pre e post hsplit _ hfails
    have hmem : e ∈ [readEvent false, readEvent true] := by simp [hsplit]
    simp only [List.mem_cons, List.not_mem_nil, or_false] at hmem
    obtain rfl | rfl := hmem
    · exact absurd hfails (by decide)
    · exact absurd hfails (by decide)

/-- A request that nobody knows. -/
def unknownEvent : Event := servedEvent (packedRequest 9 [] 8) false 0

/-- One request that nobody knows ends the run, although ten of them were to be tolerated. -/
theorem not_run_documented_unknown :
    Answered 32 packedLayout readyServer.ctx.setRunning [unknownEvent, readEvent false] ∧
      (ublockRun 32 packedLayout readyServer.ctx [unknownEvent, readEvent false]).progress =
        (1, true) ∧
      documentedRun packedLayout readyServer.ctx.fails [unknownEvent, readEvent false] =
        (2, false) := by
  refine ⟨⟨⟨packedRequest 9 [] 8, rfl, by decide, by decide⟩, fun c hc => ?_⟩,
    by decide, by decide⟩
  obtain ⟨hresult, -⟩ := Outcome.returned.inj hc
  exact absurd hresult (by decide)

end Failures

end SystemExtras.Ublock
