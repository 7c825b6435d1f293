import SystemExtras.Wrapper.JniProtocol

/-!
# Who holds the baton

In a run of the protocol the right to touch the `ExecutionManager` passes from thread to
thread like a baton.  `Nest` says who holds it, and what the manager and the log hold then.

The calls in whose requests another call was made are `outer`; their native threads wait for
the outcomes of the requests.  The innermost call goes on as if it were alone, with two
exceptions.  An outcome that the client sends for it may wake a native thread of an outer call
(`stolen`).  When it is over, the status word is `FINISHED`, so that the outcome for the request
of the outer call is not taken (`refusing`).

`Nest.action` says what an action makes of such a state: another one, with one call more in
`outer` if the action is a call inside of a call, or a state in which the client is not served.
-/

namespace SystemExtras.Wrapper

/-- A native thread computes, and the server thread waits for it. -/
def NativeOk (l : CallLog) (status : Status) (call : JniCall) : NativePc → Prop
  | .start => l.Fresh
  | .running => l.Settled
  | .storeFunction r => l.Asking r
  | .storeLength r => l.Asking r ∧ call.function = r.function
  | .storeTaintsize r => l.Asking r ∧ call.function = r.function ∧ call.length = r.length
  | .storeData r => l.Asking r ∧ call.function = r.function ∧ call.length = r.length ∧
      call.taintsize = r.taintsize
  | .setJni => l.Asking call
  | .postReply => l.Asking call ∧ status = .wait4Jni
  | .waitJni => False
  | .setExec => l.Answered call.length call.paramData
  | .resume => l.Answered call.length call.paramData
  | .setFinished => l.Settled
  | .postFinished => l.Settled ∧ status = .finished

/-- The server thread sends a request to the client. -/
def Sending (call : JniCall) : Server → Prop
  | .readStatus _ => True
  | .sendFunction => True
  | .sendLength function => function = call.function
  | .sendTaintsize function length => function = call.function ∧ length = call.length
  | .sendData function length taintsize =>
      function = call.function ∧ length = call.length ∧ taintsize = call.taintsize
  | _ => False

/-- The server thread takes the outcome of a request from the client. -/
def Taking (l : CallLog) (call : JniCall) : Server → Prop
  | .compare function datasize rawdata => function = call.function ∧ l.Answered datasize rawdata
  | .setLength datasize rawdata => l.Answered datasize rawdata
  | .setData datasize rawdata => call.length = datasize ∧ l.Answered datasize rawdata
  | .setLengthAgain datasize => call.length = datasize ∧ l.Answered datasize call.paramData
  | .checkStatus => l.Answered call.length call.paramData
  | .postJni => l.Answered call.length call.paramData
  | _ => False

/-- The transaction is one of the call with these arguments. -/
def Transaction.Of (invoke : PlatformInvoke) : Transaction → Prop
  | .taintCall invoke' => invoke' = invoke
  | .callback => True

/-- The server thread takes the outcome of a request of an outer call, as far as it does. -/
def Refusing : Server → Prop
  | .compare _ _ _ => True
  | .setLength _ _ => True
  | .setData _ _ => True
  | .setLengthAgain _ => True
  | .checkStatus => True
  | _ => False

/-- The native threads of calls that wait for the outcomes of their requests. -/
def waiting (outer : List Frame) : List Native := outer.map fun frame => ⟨frame.call, .waitJni⟩

/-- The client executes requests of the calls `outer`, made before call `n`; all other calls before
it are over. -/
structure Outer (log : ℕ → CallLog) (n : ℕ) (outer : List Frame) : Prop where
  handling : ∀ frame ∈ outer, ∃ function, frame.handling = some function
  lt : ∀ frame ∈ outer, frame.call < n
  settled : ∀ frame ∈ outer, (log frame.call).Settled
  past : ∀ j < n, (∀ frame ∈ outer, frame.call ≠ j) → (log j).Done

/-- Call `n` with the arguments `invoke` is in progress, inside of the calls `outer`. -/
structure InCall (log : ℕ → CallLog) (outer : List Frame) (n : ℕ) (invoke : PlatformInvoke) :
    Prop where
  outer : Outer log n outer
  invoke : (log n).invoke = invoke

/-- The systems of runs in which the client is served. -/
inductive Nest : List Frame → System → Prop
  | idle {outer status invoke call n log} (houter : Outer log n outer)
      (hstatus : outer ≠ [] → status = .finished) :
      Nest outer ⟨⟨status, 0, 0, invoke, call⟩, outer, .idle, waiting outer, n, log⟩
  | setInvoke {outer status old invoke call n log} (hcall : InCall log outer n invoke)
      (hlog : (log n).Fresh) :
      Nest outer ⟨⟨status, 0, 0, old, call⟩, ⟨n, none⟩ :: outer, .setInvoke n invoke,
        waiting outer, n + 1, log⟩
  | setExec {outer status invoke call n log} (hcall : InCall log outer n invoke)
      (hlog : (log n).Fresh) :
      Nest outer ⟨⟨status, 0, 0, invoke, call⟩, ⟨n, none⟩ :: outer, .setExec n invoke,
        waiting outer, n + 1, log⟩
  | create {outer status invoke call n log} (hcall : InCall log outer n invoke)
      (hlog : (log n).Fresh) :
      Nest outer ⟨⟨status, 0, 0, invoke, call⟩, ⟨n, none⟩ :: outer, .create n invoke,
        waiting outer, n + 1, log⟩
  | computing {outer status invoke call n log t pc} (hcall : InCall log outer n invoke)
      (ht : t.Of invoke) (hnative : NativeOk (log n) status call pc) :
      Nest outer ⟨⟨status, 0, 0, invoke, call⟩, ⟨n, none⟩ :: outer, .waitReply t,
        ⟨n, pc⟩ :: waiting outer, n + 1, log⟩
  | asked {outer invoke call n log t} (hcall : InCall log outer n invoke) (ht : t.Of invoke)
      (hlog : (log n).Asking call) :
      Nest outer ⟨⟨.wait4Jni, 1, 0, invoke, call⟩, ⟨n, none⟩ :: outer, .waitReply t,
        ⟨n, .waitJni⟩ :: waiting outer, n + 1, log⟩
  | sending {outer invoke call n log server} (hcall : InCall log outer n invoke)
      (hserver : Sending call server) (hlog : (log n).Asking call) :
      Nest outer ⟨⟨.wait4Jni, 0, 0, invoke, call⟩, ⟨n, none⟩ :: outer, server,
        ⟨n, .waitJni⟩ :: waiting outer, n + 1, log⟩
  | handling {outer invoke call n log} (hcall : InCall log outer n invoke)
      (hlog : (log n).Settled) :
      Nest outer ⟨⟨.wait4Jni, 0, 0, invoke, call⟩, ⟨n, some call.function⟩ :: outer, .idle,
        ⟨n, .waitJni⟩ :: waiting outer, n + 1, log⟩
  | taking {outer invoke call n log server} (hcall : InCall log outer n invoke)
      (hserver : Taking (log n) call server) :
      Nest outer ⟨⟨.wait4Jni, 0, 0, invoke, call⟩, ⟨n, none⟩ :: outer, server,
        ⟨n, .waitJni⟩ :: waiting outer, n + 1, log⟩
  | answered {outer invoke call n log} (hcall : InCall log outer n invoke)
      (hlog : (log n).Answered call.length call.paramData) :
      Nest outer ⟨⟨.wait4Jni, 0, 1, invoke, call⟩, ⟨n, none⟩ :: outer, .waitReply .callback,
        ⟨n, .waitJni⟩ :: waiting outer, n + 1, log⟩
  | ended {outer invoke call n log t} (hcall : InCall log outer n invoke) (ht : t.Of invoke)
      (hlog : (log n).Settled) :
      Nest outer ⟨⟨.finished, 1, 0, invoke, call⟩, ⟨n, none⟩ :: outer, .waitReply t,
        waiting outer, n + 1, log⟩
  | finishing {outer invoke call n log t} (hcall : InCall log outer n invoke) (ht : t.Of invoke)
      (hlog : (log n).Settled) :
      Nest outer ⟨⟨.finished, 0, 0, invoke, call⟩, ⟨n, none⟩ :: outer, .readStatus t,
        waiting outer, n + 1, log⟩
  | sendResult {outer invoke call n log t} (hcall : InCall log outer n invoke) (ht : t.Of invoke)
      (hlog : (log n).Settled) :
      Nest outer ⟨⟨.finished, 0, 0, invoke, call⟩, ⟨n, none⟩ :: outer, .sendResult t,
        waiting outer, n + 1, log⟩
  -- the native thread `i`, of an outer call, goes on with the outcome for call `n`
  | stolen {outer status invoke call n log} {natives : List Native} {i m : ℕ} {pc : NativePc}
      (hlt : ∀ frame ∈ outer, frame.call < n) (hm : m < n) (hlog : (log m).Settled)
      (houter : outer ≠ []) (hpc : pc = .setExec ∨ pc = .resume)
      (hnative : natives[i]? = some ⟨m, pc⟩)
      (hothers : ∀ j t, j ≠ i → natives[j]? = some t → t.pc = .waitJni) :
      Nest outer ⟨⟨status, 0, 0, invoke, call⟩, ⟨n, none⟩ :: outer, .waitReply .callback, natives,
        n + 1, log⟩
  | refusing {frame rest invoke call n log server}
      (hlt : ∀ other ∈ frame :: rest, other.call < n) (hserver : Refusing server) :
      Nest (frame :: rest) ⟨⟨.finished, 0, 0, invoke, call⟩, ⟨frame.call, none⟩ :: rest, server,
        waiting (frame :: rest), n, log⟩

/-! ## Every action passes the baton on -/

section Steps

variable {log : ℕ → CallLog} {outer : List Frame} {n i : ℕ} {invoke : PlatformInvoke}
  {status : Status} {call : JniCall} {t : Transaction} {pc : NativePc} {request : Option JniCall}
  {s s' : System} {f : CallLog → CallLog}

theorem Outer.congr {log' : ℕ → CallLog} (h : Outer log n outer) (hsame : ∀ j < n, log' j = log j) :
    Outer log' n outer where
  handling := h.handling
  lt := h.lt
  settled frame hframe := by
    rw [hsame _ (h.lt frame hframe)]
    exact h.settled frame hframe
  past j hj hnone := by
    rw [hsame j hj]
    exact h.past j hj hnone

theorem Outer.nil (h : ∀ j < n, (log j).Done) : Outer log n [] :=
  ⟨nofun, nofun, nofun, fun j hj _ => h j hj⟩

/-- The client makes a call while it executes a request of call `n`. -/
theorem Outer.push (h : Outer log n outer) (hlog : (log n).Settled) (function : ℕ) :
    Outer log (n + 1) (⟨n, some function⟩ :: outer) where
  handling := List.forall_mem_cons.mpr ⟨⟨function, rfl⟩, h.handling⟩
  lt := List.forall_mem_cons.mpr
    ⟨Nat.lt_succ_self n, fun frame hframe => (h.lt frame hframe).trans (Nat.lt_succ_self n)⟩
  settled := List.forall_mem_cons.mpr ⟨hlog, h.settled⟩
  past j hj hnone := by
    obtain ⟨hne, hrest⟩ := List.forall_mem_cons.mp hnone
    exact h.past j (lt_of_le_of_ne (Nat.le_of_lt_succ hj) (Ne.symm hne)) hrest

theorem InCall.note (h : InCall log outer n invoke) (hf : ∀ l, (f l).invoke = l.invoke) :
    InCall (note log n f) outer n invoke := by
  refine ⟨h.outer.congr fun j hj => note_of_ne f hj.ne, ?_⟩
  rw [note_self, hf, h.invoke]

/-- When the last reply has been sent, the call is one of the past. -/
theorem InCall.finish (h : InCall log outer n invoke) (hlog : (log n).Settled) :
    Outer (Wrapper.note log n fun l => { l with
      replies := l.replies ++ [.finished invoke.pResult invoke.argc] }) (n + 1) outer := by
  have hsame := h.outer.congr fun j hj => note_of_ne (fun l : CallLog => { l with
    replies := l.replies ++ [.finished invoke.pResult invoke.argc] }) hj.ne
  refine ⟨hsame.handling, fun frame hframe => (hsame.lt frame hframe).trans (Nat.lt_succ_self n),
    hsame.settled, fun j hj hnone => ?_⟩
  rcases Nat.lt_succ_iff_lt_or_eq.mp hj with hj | rfl
  · exact hsame.past j hj hnone
  · rw [note_self]
    refine ⟨hlog.started, ?_, hlog.returns⟩
    rw [h.invoke, hlog.replies]

/-- The first transaction of a call. -/
theorem nest_taintCall (houter : Outer log n outer) (old v : PlatformInvoke) :
    Nest outer ⟨⟨status, 0, 0, old, call⟩, ⟨n, none⟩ :: outer, .setInvoke n v, waiting outer, n + 1,
      Function.update log n ⟨v, [], [], [], [], []⟩⟩ := by
  refine .setInvoke ⟨houter.congr fun j hj => Function.update_of_ne hj.ne .., ?_⟩ ?_
  · rw [Function.update_self]
  · rw [Function.update_self]
    exact ⟨rfl, rfl, rfl, rfl, rfl⟩

theorem waiting_pc {t : Native} (h : (waiting outer)[i]? = some t) : t.pc = .waitJni := by
  unfold waiting at h
  rw [List.getElem?_map] at h
  obtain ⟨frame, -, rfl⟩ := Option.map_eq_some_iff.mp h
  rfl

/-- A native thread that waits for an outcome, or that is not there, does nothing. -/
theorem blocked (hjni : s.em.mJniReady = 0) (h : ∀ t, s.natives[i]? = some t → t.pc = .waitJni) :
    s.nativeAction i request = none := by
  unfold System.nativeAction
  cases ht : s.natives[i]? with
  | none => rfl
  | some t =>
      have hpc := h t ht
      simp only [hpc, hjni, if_true]

/-- The native thread goes on while the server thread waits. -/
theorem nest_computing (hcall : InCall log outer n invoke) (ht : t.Of invoke)
    (hnative : NativeOk (log n) status call pc)
    (hs : System.nativeAction ⟨⟨status, 0, 0, invoke, call⟩, ⟨n, none⟩ :: outer, .waitReply t,
      ⟨n, pc⟩ :: waiting outer, n + 1, log⟩ i request = some s') : Nest outer s' := by
  cases i with
  | succ i =>
      rw [blocked rfl fun t ht => waiting_pc ht] at hs
      cases hs
  | zero =>
      cases pc with
      | start =>
          obtain rfl := Option.some.inj hs
          refine .computing (hcall.note fun _ => rfl) ht ?_
          rw [note_self]
          have hfresh : (log n).Fresh := hnative
          refine ⟨?_, ?_, ?_⟩
          · show (log n).started ++ [invoke] = [(log n).invoke]
            rw [hfresh.started, hcall.invoke, List.nil_append]
          · show (log n).replies = (log n).requests.map .wait4Jni
            rw [hfresh.replies, hfresh.requests, List.map_nil]
          · show (log n).returns = (log n).callbacks
            rw [hfresh.returns, hfresh.callbacks]
      | running =>
          have hlog : (log n).Settled := hnative
          cases request with
          | none =>
              obtain rfl := Option.some.inj hs
              exact .computing hcall ht hlog
          | some r =>
              obtain rfl := Option.some.inj hs
              refine .computing (hcall.note fun _ => rfl) ht ?_
              rw [note_self]
              exact ⟨hlog.started, ⟨_, rfl, hlog.replies⟩, hlog.returns⟩
      | storeFunction r =>
          obtain rfl := Option.some.inj hs
          exact .computing hcall ht ⟨hnative, rfl⟩
      | storeLength r =>
          obtain rfl := Option.some.inj hs
          exact .computing hcall ht ⟨hnative.1, hnative.2, rfl⟩
      | storeTaintsize r =>
          obtain rfl := Option.some.inj hs
          exact .computing hcall ht ⟨hnative.1, hnative.2.1, hnative.2.2, rfl⟩
      | storeData r =>
          obtain rfl := Option.some.inj hs
          obtain ⟨hlog, hfunction, hlength, htaintsize⟩ := hnative
          refine .computing hcall ht ?_
          -- all four parts of the request are in place
          show (log n).Asking ⟨call.function, call.length, call.taintsize, r.paramData⟩
          rw [hfunction, hlength, htaintsize]
          exact hlog
      | setJni =>
          obtain rfl := Option.some.inj hs
          exact .computing hcall ht ⟨hnative, rfl⟩
      | postReply =>
          obtain ⟨hlog, rfl⟩ := hnative
          obtain rfl := Option.some.inj hs
          exact .asked hcall ht hlog
      | waitJni => exact hnative.elim
      | setExec =>
          obtain rfl := Option.some.inj hs
          exact .computing hcall ht hnative
      | resume =>
          obtain rfl := Option.some.inj hs
          have hlog : (log n).Answered call.length call.paramData := hnative
          refine .computing (hcall.note fun _ => rfl) ht ?_
          rw [note_self]
          exact ⟨hlog.started, hlog.replies, hlog.returns.symm⟩
      | setFinished =>
          obtain rfl := Option.some.inj hs
          exact .computing hcall ht ⟨hnative, rfl⟩
      | postFinished =>
          obtain ⟨hlog, rfl⟩ := hnative
          obtain rfl := Option.some.inj hs
          exact .ended hcall ht hlog

/-- The server thread sends a request. -/
theorem nest_sending {server : Server} (hcall : InCall log outer n invoke)
    (hserver : Sending call server) (hlog : (log n).Asking call)
    (hs : System.serverAction ⟨⟨.wait4Jni, 0, 0, invoke, call⟩, ⟨n, none⟩ :: outer, server,
      ⟨n, .waitJni⟩ :: waiting outer, n + 1, log⟩ = some s') : Nest outer s' := by
  cases server with
  | readStatus t =>
      obtain rfl := Option.some.inj hs
      exact .sending hcall trivial hlog
  | sendFunction =>
      obtain rfl := Option.some.inj hs
      exact .sending hcall rfl hlog
  | sendLength function =>
      obtain rfl := Option.some.inj hs
      exact .sending hcall ⟨hserver, rfl⟩ hlog
  | sendTaintsize function length =>
      obtain rfl := Option.some.inj hs
      exact .sending hcall ⟨hserver.1, hserver.2, rfl⟩ hlog
  | sendData function length taintsize =>
      obtain ⟨rfl, rfl, rfl⟩ := hserver
      obtain rfl := Option.some.inj hs
      refine .handling (hcall.note fun _ => rfl) ?_
      rw [note_self]
      obtain ⟨before, hrequests, hreplies⟩ := hlog.replies
      refine ⟨hlog.started, ?_, hlog.returns⟩
      simp only [hrequests, hreplies, List.map_append, List.map_cons, List.map_nil]
  | _ => exact hserver.elim

/-- The server thread takes an outcome. -/
theorem nest_taking {server : Server} (hcall : InCall log outer n invoke)
    (hserver : Taking (log n) call server)
    (hs : System.serverAction ⟨⟨.wait4Jni, 0, 0, invoke, call⟩, ⟨n, none⟩ :: outer, server,
      ⟨n, .waitJni⟩ :: waiting outer, n + 1, log⟩ = some s') : Nest outer s' := by
  cases server with
  | compare function datasize rawdata =>
      obtain ⟨hfunction, hlog⟩ := hserver
      have hs : (if function = call.function then _ else _) = some s' := hs
      rw [if_pos hfunction] at hs
      obtain rfl := Option.some.inj hs
      exact .taking hcall hlog
  | setLength datasize rawdata =>
      obtain rfl := Option.some.inj hs
      exact .taking hcall ⟨rfl, hserver⟩
  | setData datasize rawdata =>
      obtain rfl := Option.some.inj hs
      exact .taking hcall hserver
  | setLengthAgain datasize =>
      obtain rfl := Option.some.inj hs
      exact .taking hcall hserver.2
  | checkStatus =>
      obtain rfl := Option.some.inj hs
      exact .taking hcall hserver
  | postJni =>
      obtain rfl := Option.some.inj hs
      exact .answered hcall hserver
  | _ => exact hserver.elim

/-- A reply by which the client gives a call up. -/
theorem not_served_reply {frame : Frame} {rest : List Frame} {r : Reply}
    (hclient : s.client = frame :: rest) (hlt : frame.call < s.calls)
    (hwait : ∀ call, r ≠ .wait4Jni call) (hfinished : ∀ pResult argc, r ≠ .finished pResult argc) :
    ¬ Served (s.reply r) := by
  intro h
  have hlog : ((s.reply r).log frame.call).replies = (s.log frame.call).replies ++ [r] := by
    unfold System.reply
    rw [hclient]
    simp only [note_self]
  have hmem : r ∈ ((s.reply r).log frame.call).replies := by
    rw [hlog]
    exact List.mem_append_right _ (List.mem_singleton_self r)
  rcases h.accepted frame.call (by rwa [System.reply_calls]) r hmem with ⟨call, hr⟩ | hr
  · exact hwait call hr
  · exact hfinished _ _ hr

/-- The outcome for a request of an outer call is not taken. -/
theorem nest_refusing {frame : Frame} {rest : List Frame} {server : Server}
    (hlt : ∀ other ∈ frame :: rest, other.call < n) (hserver : Refusing server)
    (hs : System.serverAction ⟨⟨.finished, 0, 0, invoke, call⟩, ⟨frame.call, none⟩ :: rest, server,
      waiting (frame :: rest), n, log⟩ = some s') :
    (Nest (frame :: rest) s' ∧ s'.log = log) ∨ ¬ Served s' := by
  cases server with
  | compare function datasize rawdata =>
      have hs : (if function = call.function then _ else _) = some s' := hs
      split at hs
      · obtain rfl := Option.some.inj hs
        exact Or.inl ⟨.refusing hlt trivial, rfl⟩
      · obtain rfl := Option.some.inj hs
        exact Or.inr (not_served_reply rfl (hlt frame List.mem_cons_self) nofun nofun)
  | setLength datasize rawdata =>
      obtain rfl := Option.some.inj hs
      exact Or.inl ⟨.refusing hlt trivial, rfl⟩
  | setData datasize rawdata =>
      obtain rfl := Option.some.inj hs
      exact Or.inl ⟨.refusing hlt trivial, rfl⟩
  | setLengthAgain datasize =>
      obtain rfl := Option.some.inj hs
      exact Or.inl ⟨.refusing hlt trivial, rfl⟩
  | checkStatus =>
      -- the inner call has left `FINISHED` in the status word
      obtain rfl := Option.some.inj hs
      exact Or.inr (not_served_reply rfl (hlt frame List.mem_cons_self) nofun nofun)
  | _ => exact hserver.elim

/-- The native thread of an outer call goes on with an outcome that is not its own. -/
theorem nest_stolen {natives : List Native} {j m : ℕ} (hlt : ∀ frame ∈ outer, frame.call < n)
    (hm : m < n) (hlog : (log m).Settled)
    (houter : outer ≠ []) (hpc : pc = .setExec ∨ pc = .resume)
    (hnative : natives[i]? = some ⟨m, pc⟩)
    (hothers : ∀ j t, j ≠ i → natives[j]? = some t → t.pc = .waitJni)
    (hs : System.nativeAction ⟨⟨status, 0, 0, invoke, call⟩, ⟨n, none⟩ :: outer,
      .waitReply .callback, natives, n + 1, log⟩ j request = some s') :
    Nest outer s' ∨ ¬ Served s' := by
  by_cases hj : j = i
  · subst hj
    unfold System.nativeAction at hs
    simp only [hnative] at hs
    rcases hpc with rfl | rfl
    · obtain rfl := Option.some.inj hs
      refine Or.inl (.stolen hlt hm hlog houter (Or.inr rfl) (i := j) ?_ fun k t hk ht => ?_)
      · show (natives.modify j fun t => { t with pc := .resume })[j]? = _
        rw [List.getElem?_modify, hnative]
        simp
      · have ht : (natives.modify j fun t => { t with pc := .resume })[k]? = some t := ht
        rw [List.getElem?_modify] at ht
        exact hothers k t hk (by simpa [Ne.symm hk] using ht)
    · obtain rfl := Option.some.inj hs
      refine Or.inr fun hserved => ?_
      have hprefix := (hserved.resumed m (hm.trans (Nat.lt_succ_self n))).length_le
      simp only [note_self, List.length_append, List.length_singleton, hlog.returns] at hprefix
      omega
  · rw [blocked rfl fun t ht => hothers j t hj ht] at hs
    cases hs

theorem waiting_cons_pc {t : Native} (h : (⟨n, .waitJni⟩ :: waiting outer)[i]? = some t) :
    t.pc = .waitJni := by
  cases i with
  | zero =>
      obtain rfl := Option.some.inj h
      rfl
  | succ i => exact waiting_pc (List.getElem?_cons_succ ▸ h)

/-- The outcome for call `n` wakes the native thread of an outer call. -/
theorem nest_woken {frame : Frame} (houter : Outer log n outer)
    (hframe : outer[i]? = some frame) :
    Nest outer ⟨⟨status, 0, 0, invoke, call⟩, ⟨n, none⟩ :: outer, .waitReply .callback,
      (⟨n, .waitJni⟩ :: waiting outer).modify (i + 1) (fun t => { t with pc := .setExec }), n + 1,
      log⟩ := by
  have hmem := List.mem_of_getElem? hframe
  refine .stolen houter.lt (houter.lt frame hmem) (houter.settled frame hmem)
    (List.ne_nil_of_mem hmem) (Or.inl rfl) (i := i + 1) ?_ fun j t hj ht => ?_
  · rw [List.getElem?_modify, List.getElem?_cons_succ, waiting, List.getElem?_map, hframe]
    simp
  · rw [List.getElem?_modify] at ht
    exact waiting_cons_pc (by simpa [Ne.symm hj] using ht)

/-- **What an action makes of a system** in which the client is served. -/
theorem Nest.action {a : Action} (h : Nest outer s) (hs : s.action a = some s') :
    (Nest outer s' ∧ (outer = [] → ¬ Nested s a)) ∨
      (Nested s a ∧ ∃ frame, Nest (frame :: outer) s') ∨
      (outer ≠ [] ∧ ¬ Served s') := by
  cases h with
  | @idle _ status invoke call n log houter hstatus =>
      cases a with
      | taintCall v =>
          obtain rfl := System.taintCall_eq hs
          exact Or.inl ⟨nest_taintCall houter invoke v, fun hnil hnested => hnested hnil⟩
      | callback datasize rawdata =>
          obtain ⟨k, function, rest, rfl, rfl⟩ := System.callback_eq hs
          obtain rfl := hstatus (List.cons_ne_nil _ _)
          exact Or.inl ⟨@Nest.refusing ⟨k, some function⟩ rest _ _ _ _ _ houter.lt trivial,
            fun _ => id⟩
      | server => cases hs
      | native i request =>
          rw [System.action, blocked rfl fun t ht => waiting_pc ht] at hs
          cases hs
  | setInvoke hcall hlog =>
      cases a with
      | server =>
          obtain rfl := Option.some.inj hs
          exact Or.inl ⟨.setExec hcall hlog, fun _ => id⟩
      | native i request =>
          rw [System.action, blocked rfl fun t ht => waiting_pc ht] at hs
          cases hs
      | _ => cases hs
  | setExec hcall hlog =>
      cases a with
      | server =>
          obtain rfl := Option.some.inj hs
          exact Or.inl ⟨.create hcall hlog, fun _ => id⟩
      | native i request =>
          rw [System.action, blocked rfl fun t ht => waiting_pc ht] at hs
          cases hs
      | _ => cases hs
  | create hcall hlog =>
      cases a with
      | server =>
          obtain rfl := Option.some.inj hs
          exact Or.inl ⟨.computing hcall rfl hlog, fun _ => id⟩
      | native i request =>
          rw [System.action, blocked rfl fun t ht => waiting_pc ht] at hs
          cases hs
      | _ => cases hs
  | computing hcall ht hnative =>
      cases a with
      | native => exact Or.inl ⟨nest_computing hcall ht hnative hs, fun _ => id⟩
      | _ => cases hs
  | asked hcall ht hlog =>
      cases a with
      | server =>
          obtain rfl := Option.some.inj hs
          exact Or.inl ⟨.sending hcall trivial hlog, fun _ => id⟩
      | native i request =>
          rw [System.action, blocked rfl fun t ht => waiting_cons_pc ht] at hs
          cases hs
      | _ => cases hs
  | sending hcall hserver hlog =>
      cases a with
      | server => exact Or.inl ⟨nest_sending hcall hserver hlog hs, fun _ => id⟩
      | native i request =>
          rw [System.action, blocked rfl fun t ht => waiting_cons_pc ht] at hs
          cases hs
      | _ => cases hs
  | @handling _ invoke call n log hcall hlog =>
      cases a with
      | taintCall v =>
          obtain rfl := System.taintCall_eq hs
          refine Or.inr (Or.inl ⟨List.cons_ne_nil _ _, ⟨n, some call.function⟩, ?_⟩)
          exact nest_taintCall (hcall.outer.push hlog call.function) invoke v
      | callback datasize rawdata =>
          obtain rfl := Option.some.inj hs
          refine Or.inl ⟨.taking (hcall.note fun _ => rfl) ⟨rfl, ?_⟩, fun _ => id⟩
          rw [note_self]
          refine ⟨hlog.started, hlog.replies, ?_⟩
          show _ ++ _ = _
          rw [hlog.returns]
      | server => cases hs
      | native i request =>
          rw [System.action, blocked rfl fun t ht => waiting_cons_pc ht] at hs
          cases hs
  | taking hcall hserver =>
      cases a with
      | server => exact Or.inl ⟨nest_taking hcall hserver hs, fun _ => id⟩
      | native i request =>
          rw [System.action, blocked rfl fun t ht => waiting_cons_pc ht] at hs
          cases hs
      | _ => cases hs
  | @answered _ invoke call n log hcall hlog =>
      cases a with
      | native i request =>
          cases i with
          | zero =>
              obtain rfl := Option.some.inj hs
              exact Or.inl ⟨.computing hcall trivial hlog, fun _ => id⟩
          | succ i =>
              have hs : System.nativeAction _ (i + 1) request = some s' := hs
              unfold System.nativeAction at hs
              simp only [List.getElem?_cons_succ, waiting, List.getElem?_map] at hs
              cases hframe : outer[i]? with
              | none =>
                  rw [hframe] at hs
                  cases hs
              | some frame =>
                  rw [hframe] at hs
                  obtain rfl := Option.some.inj hs
                  exact Or.inl ⟨nest_woken hcall.outer hframe, fun _ => id⟩
      | _ => cases hs
  | ended hcall ht hlog =>
      cases a with
      | server =>
          obtain rfl := Option.some.inj hs
          exact Or.inl ⟨.finishing hcall ht hlog, fun _ => id⟩
      | native i request =>
          rw [System.action, blocked rfl fun t ht => waiting_pc ht] at hs
          cases hs
      | _ => cases hs
  | finishing hcall ht hlog =>
      cases a with
      | server =>
          obtain rfl := Option.some.inj hs
          exact Or.inl ⟨.sendResult hcall ht hlog, fun _ => id⟩
      | native i request =>
          rw [System.action, blocked rfl fun t ht => waiting_pc ht] at hs
          cases hs
      | _ => cases hs
  | @sendResult _ invoke call n log t hcall ht hlog =>
      cases a with
      | server =>
          have hdone := hcall.finish hlog
          cases t with
          | taintCall v =>
              obtain rfl : v = invoke := ht
              obtain rfl := Option.some.inj hs
              exact Or.inl ⟨.idle hdone fun _ => rfl, fun _ => id⟩
          | callback =>
              obtain rfl := Option.some.inj hs
              exact Or.inl ⟨.idle hdone fun _ => rfl, fun _ => id⟩
      | native i request =>
          rw [System.action, blocked rfl fun t ht => waiting_pc ht] at hs
          cases hs
      | _ => cases hs
  | stolen hlt hm hlog houter hpc hnative hothers =>
      cases a with
      | native j request =>
          rcases nest_stolen hlt hm hlog houter hpc hnative hothers hs with h | h
          · exact Or.inl ⟨h, fun _ => id⟩
          · exact Or.inr (Or.inr ⟨houter, h⟩)
      | _ => cases hs
  | refusing hlt hserver =>
      cases a with
      | server =>
          rcases nest_refusing hlt hserver hs with h | h
          · exact Or.inl ⟨h.1, fun _ => id⟩
          · exact Or.inr (Or.inr ⟨List.cons_ne_nil _ _, h⟩)
      | native i request =>
          rw [System.action, blocked rfl fun t ht => waiting_pc ht] at hs
          cases hs
      | _ => cases hs

theorem Nest.lt (h : Nest outer s) : ∀ frame ∈ outer, frame.call < s.calls := by
  have hsucc : ∀ {m : ℕ}, (∀ frame ∈ outer, frame.call < m) → ∀ frame ∈ outer, frame.call < m + 1 :=
    fun h frame hframe => Nat.lt_succ_of_lt (h frame hframe)
  cases h with
  | idle houter => exact houter.lt
  | stolen hlt => exact hsucc hlt
  | refusing hlt => exact hlt
  | setInvoke hcall => exact hsucc hcall.outer.lt
  | setExec hcall => exact hsucc hcall.outer.lt
  | create hcall => exact hsucc hcall.outer.lt
  | computing hcall => exact hsucc hcall.outer.lt
  | asked hcall => exact hsucc hcall.outer.lt
  | sending hcall => exact hsucc hcall.outer.lt
  | handling hcall => exact hsucc hcall.outer.lt
  | taking hcall => exact hsucc hcall.outer.lt
  | answered hcall => exact hsucc hcall.outer.lt
  | ended hcall => exact hsucc hcall.outer.lt
  | finishing hcall => exact hsucc hcall.outer.lt
  | sendResult hcall => exact hsucc hcall.outer.lt

/-- The innermost call of the client is none of `outer`, but where the client executes a request or
its outcome is not taken. -/
theorem Nest.top (h : Nest outer s) :
    (∃ handling, s.client = ⟨s.calls - 1, handling⟩ :: outer ∧ ∀ frame ∈ outer,
        frame.call < s.calls - 1) ∨
      ∀ s', s.serverAction = some s' → s'.log = s.log ∨ ¬ Served s' := by
  cases h with
  | idle => exact Or.inr nofun
  | stolen hlt => exact Or.inl ⟨_, rfl, hlt⟩
  | refusing hlt hserver =>
      refine Or.inr fun s' hs => ?_
      rcases nest_refusing hlt hserver hs with h | h
      · exact Or.inl h.2
      · exact Or.inr h
  | setInvoke hcall => exact Or.inl ⟨_, rfl, hcall.outer.lt⟩
  | setExec hcall => exact Or.inl ⟨_, rfl, hcall.outer.lt⟩
  | create hcall => exact Or.inl ⟨_, rfl, hcall.outer.lt⟩
  | computing hcall => exact Or.inl ⟨_, rfl, hcall.outer.lt⟩
  | asked hcall => exact Or.inl ⟨_, rfl, hcall.outer.lt⟩
  | sending hcall => exact Or.inl ⟨_, rfl, hcall.outer.lt⟩
  | handling hcall => exact Or.inl ⟨_, rfl, hcall.outer.lt⟩
  | taking hcall => exact Or.inl ⟨_, rfl, hcall.outer.lt⟩
  | answered hcall => exact Or.inl ⟨_, rfl, hcall.outer.lt⟩
  | ended hcall => exact Or.inl ⟨_, rfl, hcall.outer.lt⟩
  | finishing hcall => exact Or.inl ⟨_, rfl, hcall.outer.lt⟩
  | sendResult hcall => exact Or.inl ⟨_, rfl, hcall.outer.lt⟩

/-- As long as the client is served, an outer call gets no reply. -/
theorem Nest.replies {a : Action} (h : Nest outer s) (hs : s.action a = some s')
    (hserved : Served s') {frame : Frame} (hframe : frame ∈ outer) :
    (s'.log frame.call).replies = (s.log frame.call).replies := by
  have hlt := h.lt frame hframe
  cases a with
  | taintCall v =>
      rw [System.taintCall_eq hs]
      simp only [Function.update_of_ne hlt.ne]
  | callback datasize rawdata =>
      obtain ⟨k, function, rest, -, rfl⟩ := System.callback_eq hs
      exact note_field (·.replies) fun _ => rfl
  | native i request => exact (System.nativeAction_log hs).2.2.2.1
  | server =>
      rcases h.top with ⟨handling, hclient, hbelow⟩ | hserver
      · rcases (System.serverAction_log hs).2 with hlog | ⟨r, rfl⟩
        · rw [hlog]
        · unfold System.reply
          rw [hclient]
          simp only [note_of_ne _ (hbelow frame hframe).ne]
      · rcases hserver s' hs with hlog | hnot
        · rw [hlog]
        · exact absurd hserved hnot

end Steps

end SystemExtras.Wrapper
