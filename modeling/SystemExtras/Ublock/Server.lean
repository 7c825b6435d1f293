import SystemExtras.Lib.Bytes
import SystemExtras.Lib.Words

/-!
# A block device served from user space

`libublock` reads requests from the control file of a driver, calls back into its
client to read or write blocks, and writes a reply.  The first request, INIT,
negotiates the size of the buffers; READY ends the phase in which the kernel looks
for partitions.

The messages are laid out by `linux/ublock.h`, which belongs to the kernel: sizes
and fields are those of a `Layout`.  A message is handed over whole or not at all;
what the control file and the callbacks do while a request is served is its `Event`.
A length that the code never sets is left open (`none`), and the event says which
value the variable happens to have.
-/

namespace SystemExtras.Ublock

/-! ## Messages -/

/-- The requests. -/
inductive Op
  | init
  | ready
  | read
  | write
  deriving DecidableEq, Repr

/-- `linux/ublock.h`: the sizes of the headers and of the messages behind them, the fields of
these and the numbers of the requests and replies. -/
structure Layout where
  inHeader : ℕ
  outHeader : ℕ
  inSize : Op → ℕ
  outSize : Op → ℕ
  opcode : Field
  seq : Field
  version : Field
  index : Field
  maxBuf : Field
  readLength : Field
  readOffset : Field
  writeLength : Field
  writeOffset : Field
  inOp : Op → ℕ
  outOp : Op → ℕ

/-- The buffer with a request and the length that was read. -/
structure Message where
  data : Mem
  length : ℕ

/-- `UBLOCK_VERSION`. -/
def ublockVersion : ℕ := 0

/-- `MAX_BUF`. -/
def MAX_BUF : ℕ := 65536

/-- `MAX_FAILURES`. -/
def MAX_FAILURES : ℤ := 10

def EPROTO : ℤ := 71
def ENOMEM : ℤ := 12
def ENOENT : ℤ := 2
def EINVAL : ℤ := 22

/-! ## Context -/

/-- `CTX_INITED`, `CTX_READY` and `CTX_RUNNING`. -/
@[ext] structure Flags where
  inited : Bool
  ready : Bool
  running : Bool
  deriving DecidableEq, Repr

/-- `struct ublock_ctx`, up to the buffers, the file and the callbacks. -/
structure Ctx where
  index : ℕ
  size : ℕ
  maxBuf : ℕ
  flags : Flags
  fails : ℤ
  deriving DecidableEq, Repr

/-- `ublock_stop`. -/
def ublockStop (ctx : Ctx) : Ctx :=
  if ctx.flags.inited then { ctx with flags := { ctx.flags with running := false } } else ctx

/-- `ublock_succeed`. -/
def ublockSucceed (ctx : Ctx) : Ctx := { ctx with fails := 0 }

/-- `ublock_fail`. -/
def ublockFail (ctx : Ctx) : Ctx :=
  let ctx := { ctx with fails := ctx.fails + 1 }
  if MAX_FAILURES < ctx.fails then ublockStop ctx else ctx

/-- A call of one of `struct ublock_ops`.  The bytes to write are those from `start` on in the
buffer of the request. -/
inductive Call
  | read (length offset : ℕ)
  | write (start length offset : ℕ)
  deriving DecidableEq, Repr

/-- What stands behind the header of a reply. -/
inductive Reply
  | init (version size maxBuf : ℕ)
  | ready
  | read (status : ℤ)
  | write (status : ℤ)
  deriving DecidableEq, Repr

/-- What a handler returns and leaves behind: the result, the length of the reply if it is set,
the reply, the context and the calls it made. -/
structure Handled where
  result : ℤ
  outLen : Option ℕ
  reply : Option Reply
  ctx : Ctx
  calls : List Call
  deriving DecidableEq, Repr

section Handlers

variable (w : ℕ) (lay : Layout)

/-- A field of the message behind the header. -/
def Message.body (message : Message) (f : Field) : ℕ := (f.at_ lay.inHeader).get message.data

/-- A handler that returns `-EPROTO` and does nothing else. -/
def refuse (ctx : Ctx) : Handled := ⟨-EPROTO, none, none, ctx, []⟩

/-- `ublock_handle_init`. -/
def ublockHandleInit (ctx : Ctx) (message : Message) (inLen : ℕ) : Handled :=
  if inLen ≠ lay.inSize .init then refuse ctx
  else if message.body lay lay.version ≠ ublockVersion then refuse ctx
  else
    let asked := message.body lay lay.maxBuf
    let maxBuf := if asked < MAX_BUF then asked else MAX_BUF
    { result := 0
      outLen := some (lay.outSize .init)
      reply := some (.init ublockVersion ctx.size maxBuf)
      ctx := { ctx with
        maxBuf := maxBuf
        index := u32 (message.body lay lay.index)
        flags := { ctx.flags with inited := true } }
      calls := [] }

/-- `ublock_handle_ready`. -/
def ublockHandleReady (ctx : Ctx) (inLen : ℕ) : Handled :=
  if inLen ≠ lay.inSize .ready then refuse ctx
  else
    { result := 0
      outLen := some (lay.outSize .ready)
      reply := some .ready
      ctx := { ctx with flags := { ctx.flags with ready := true } }
      calls := [] }

/-- `ublock_handle_read`; `status` is what the callback returns. -/
def ublockHandleRead (ctx : Ctx) (message : Message) (inLen : ℕ) (status : ℤ) : Handled :=
  if inLen ≠ lay.inSize .read then refuse ctx
  else
    let length := message.body lay lay.readLength
    { result := 0
      outLen := some <|
        if 0 ≤ status then sizeT w (lay.outSize .read + length) else lay.outSize .read
      reply := some (.read status)
      ctx := ctx
      calls := [.read length (message.body lay lay.readOffset)] }

/-- `ublock_handle_write`. -/
def ublockHandleWrite (ctx : Ctx) (message : Message) (inLen : ℕ) (status : ℤ) : Handled :=
  if inLen < lay.inSize .write then refuse ctx
  else
    { result := 0
      outLen := some (lay.outSize .write)
      reply := some (.write status)
      ctx := ctx
      calls := [.write (lay.inHeader + lay.inSize .write) (message.body lay lay.writeLength)
        (message.body lay lay.writeOffset)] }

/-- The request that the header of a message names. -/
def Layout.op? (message : Message) : Option Op :=
  let opcode := lay.opcode.get message.data
  if opcode = lay.inOp .init then some .init
  else if opcode = lay.inOp .ready then some .ready
  else if opcode = lay.inOp .read then some .read
  else if opcode = lay.inOp .write then some .write
  else none

/-- The handler of a request. -/
def handleFn (ctx : Ctx) (message : Message) (inLen : ℕ) (status : ℤ) : Op → Handled
  | .init => ublockHandleInit lay ctx message inLen
  | .ready => ublockHandleReady lay ctx inLen
  | .read => ublockHandleRead w lay ctx message inLen status
  | .write => ublockHandleWrite lay ctx message inLen status

/-- The header and the body of a reply. -/
structure OutMessage where
  opcode : ℕ
  seq : ℕ
  body : Option Reply
  deriving DecidableEq, Repr

/-- `ublock_handle_request`, with the reply it leaves in the buffer. -/
def ublockHandleRequest (ctx : Ctx) (message : Message) (status : ℤ) :
    Handled × Option OutMessage :=
  if message.length < lay.inHeader then (refuse ctx, none)
  else
    match lay.op? message with
    | none => (refuse ctx, none)
    | some op =>
        let handled := handleFn w lay ctx message (message.length - lay.inHeader) status op
        ({ handled with outLen := handled.outLen.map fun n => sizeT w (lay.outHeader + n) },
          some ⟨lay.outOp op, lay.seq.get message.data, handled.reply⟩)

end Handlers

/-! ## The server -/

/-- What happens while a request is served: the message, if the file can be read; what the
callback returns and whether `ublock_stop` is called meanwhile; the value of `out_len` if nothing
sets it; and what `write` returns. -/
structure Event where
  request : Option Message
  status : ℤ
  stops : Bool
  junk : ℕ
  wrote : ℤ

/-- How a function ends: the assertion fails, or it returns. -/
inductive Outcome
  | aborted
  | returned (result : ℤ) (ctx : Ctx)
  deriving DecidableEq, Repr

section Server

variable (w : ℕ) (lay : Layout)

/-- `ublock_stop`, where another thread or a callback calls it. -/
def stopIf (stops : Bool) (ctx : Ctx) : Ctx := if stops then ublockStop ctx else ctx

/-- `read` gives whole messages, and only those that the buffer can hold. -/
def readRequest (e : Event) (inSize : ℕ) : Option Message :=
  e.request.filter fun message => message.length ≤ inSize

/-- `ublock_do_request`.  What `write` returns is compared as a `size_t`, so that an error
passes. -/
def ublockDoRequest (ctx : Ctx) (inSize outSize : ℕ) (e : Event) : Outcome :=
  match readRequest e inSize with
  | none => .returned (-EPROTO) ctx
  | some message =>
      let handled := (ublockHandleRequest w lay ctx message e.status).1
      let ctx := stopIf e.stops handled.ctx
      let outLen := handled.outLen.getD e.junk
      if outSize < outLen then .aborted
      else if (e.wrote % 2 ^ w).toNat < outLen then .returned (-EPROTO) ctx
      else if handled.result ≠ 0 then .returned handled.result (ublockFail ctx)
      else .returned handled.result (ublockSucceed ctx)

/-- `EXIT_READY`, `EXIT_STOPPED` and `EXIT_FAIL`. -/
structure ExitCond where
  ready : Bool
  stopped : Bool
  fail : Bool
  deriving DecidableEq, Repr

/-- The condition of the loop in `ublock_loop`. -/
def goesOn (exitCond : ExitCond) (ctx : Ctx) (result : ℤ) : Bool :=
  (exitCond.ready && !ctx.flags.ready) || (exitCond.stopped && ctx.flags.running) ||
    (exitCond.fail && result != 0)

/-- How a loop over the requests ends; `waiting` if it reads on after the last of them. -/
inductive LoopEnd
  | waiting
  | aborted
  | returned (result : ℤ)
  deriving DecidableEq, Repr

/-- The number of requests that a loop has served, how it ended, the context and the requests
that are left. -/
structure LoopResult where
  served : ℕ
  ending : LoopEnd
  ctx : Ctx
  rest : List Event

/-- One more request before a loop. -/
def LoopResult.after (r : LoopResult) : LoopResult := { r with served := r.served + 1 }

/-- The rounds of `ublock_loop`. -/
def loopFrom (exitCond : ExitCond) : Ctx → ℤ → List Event → LoopResult
  | ctx, result, [] =>
      ⟨0, if goesOn exitCond ctx result then .waiting else .returned 0, ctx, []⟩
  | ctx, result, e :: rest =>
      if goesOn exitCond ctx result then
        match ublockDoRequest w lay ctx ctx.maxBuf ctx.maxBuf e with
        | .aborted => ⟨1, .aborted, ctx, rest⟩
        | .returned result ctx =>
            if result ≠ 0 then ⟨1, .returned result, ctx, rest⟩
            else (loopFrom exitCond ctx result rest).after
      else ⟨0, .returned 0, ctx, e :: rest⟩

/-- `ublock_loop`. -/
def ublockLoop (exitCond : ExitCond) (ctx : Ctx) (events : List Event) : LoopResult :=
  loopFrom w lay exitCond ctx 0 events

/-- `CTX_RUNNING` is set. -/
def Ctx.setRunning (ctx : Ctx) : Ctx := { ctx with flags := { ctx.flags with running := true } }

/-- The result of a loop is not looked at. -/
def LoopEnd.ignore : LoopEnd → LoopEnd
  | .waiting => .waiting
  | .aborted => .aborted
  | .returned _ => .returned 0

/-- `ublock_run`. -/
def ublockRun (ctx : Ctx) (events : List Event) : LoopResult :=
  if ctx.flags.inited then
    let r := ublockLoop w lay ⟨false, true, false⟩ ctx.setRunning events
    { r with ending := r.ending.ignore }
  else ⟨0, .returned (-EINVAL), ctx, events⟩

/-- A context with the sizes of its buffers. -/
structure Server where
  ctx : Ctx
  inCap : ℕ
  outCap : ℕ
  deriving DecidableEq, Repr

/-- `ublock_init_buf_size`. -/
def ublockInitBufSize : ℕ :=
  let inSize := lay.inHeader + lay.inSize .init
  let outSize := lay.outHeader + lay.outSize .init
  if outSize < inSize then inSize else outSize

/-- What `ublock_init` meets: whether the three allocations succeed and the control file can be
opened, and what stands in `fails`, which is not set. -/
structure InitEnv where
  ctxMalloc : Bool
  firstMalloc : Bool
  opens : Bool
  bufMalloc : Bool
  fails : ℤ

/-- How `ublock_init` ends: with an error, with a failed assertion, waiting for a request, or
with a server and the requests that it has not read. -/
inductive InitEnd
  | failed (result : ℤ)
  | aborted
  | waiting
  | started (server : Server) (rest : List Event)

/-- The context that `ublock_init` sets up. -/
def initialCtx (env : InitEnv) (devSize : ℕ) : Ctx :=
  ⟨0, devSize, 0, ⟨false, false, false⟩, env.fails⟩

/-- The second half of `ublock_init`: the buffers are allocated, and requests are served until
the kernel is ready. -/
def awaitReady (env : InitEnv) (ctx : Ctx) (events : List Event) : InitEnd :=
  if !env.bufMalloc then .failed (-ENOMEM)
  else
    let r := ublockLoop w lay ⟨true, false, false⟩ ctx events
    match r.ending with
    | .waiting => .waiting
    | .aborted => .aborted
    | .returned _ => .started ⟨r.ctx, ctx.maxBuf, ctx.maxBuf⟩ r.rest

/-- `ublock_init`.  The test of the flags is `!flags & CTX_INITED`, so that any flag passes. -/
def ublockInit (env : InitEnv) (devSize : ℕ) (events : List Event) : InitEnd :=
  if !env.ctxMalloc then .failed (-ENOMEM)
  else if !env.firstMalloc then .failed (-ENOMEM)
  else if !env.opens then .failed (-ENOENT)
  else
    match events with
    | [] => .waiting
    | e :: rest =>
        match ublockDoRequest w lay (initialCtx env devSize) (ublockInitBufSize lay)
          (ublockInitBufSize lay) e with
        | .aborted => .aborted
        | .returned result ctx =>
            if result ≠ 0 then .failed (-EPROTO)
            else if ctx.flags = ⟨false, false, false⟩ then .failed (-EPROTO)
            else awaitReady w lay env ctx rest

end Server

end SystemExtras.Ublock
