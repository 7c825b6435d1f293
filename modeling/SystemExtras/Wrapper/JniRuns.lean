import SystemExtras.Wrapper.JniBaton

/-!
# Runs of the protocol

What the protocol guarantees in flat runs (`flatRun_protocol`): the log of every call holds what
the run was given, every request is replied and every outcome found, and the calls can always
come to their end.

With calls inside of calls all is lost.  A call inside of which another one was made gets no
reply in a run in which the client is served (`serves_flat_only`): the inner call leaves
`FINISHED` in the status word, so that the outcome for the request of the outer call is refused,
or the outer native thread was woken by an outcome for the inner call.
-/

namespace SystemExtras.Wrapper

section Runs

variable {log : ℕ → CallLog} {outer : List Frame} {n k : ℕ} {invoke : PlatformInvoke}
  {status : Status} {call : JniCall} {t : Transaction} {a : Action} {as : List Action}
  {s s' : System}

/-! ## Flat runs -/

/-- A flat action stays outside of other calls. -/
theorem Nest.flat_action (h : Nest [] s) (ha : ¬ Nested s a) (hs : s.action a = some s') :
    Nest [] s' := by
  rcases h.action hs with ⟨hs', -⟩ | ⟨hnested, -⟩ | ⟨hne, -⟩
  · exact hs'
  · exact absurd hnested ha
  · exact absurd rfl hne

theorem Nest.flat_run (h : Nest [] s) : FlatActions s as → s.run as = some s' → Nest [] s' := by
  induction as generalizing s with
  | nil =>
      intro _ hs
      obtain rfl := Option.some.inj hs
      exact h
  | cons a rest ih =>
      rintro ⟨ha, hrest⟩ hs
      obtain ⟨s₁, hs₁, hs⟩ := Option.bind_eq_some_iff.mp hs
      exact ih (h.flat_action ha hs₁) (hrest s₁ hs₁) hs

theorem nest_init (jniCall : JniCall) (invoke : PlatformInvoke) (log : ℕ → CallLog) :
    Nest [] (System.init jniCall invoke log) :=
  .idle (.nil fun j hj => absurd hj (Nat.not_lt_zero j)) fun h => absurd rfl h

/-- Outside of other calls only the last call has a thread. -/
theorem Nest.numbered (h : Nest [] s) : Numbered s := by
  have hone : ∀ {m : ℕ} {pc : NativePc}, ∀ t ∈ [(⟨m, pc⟩ : Native)], t.call < m + 1 := by
    intro m pc t ht
    rw [List.mem_singleton.mp ht]
    exact Nat.lt_succ_self m
  have hclient : ∀ {m : ℕ} {handling : Option ℕ}, ∀ frame ∈ [(⟨m, handling⟩ : Frame)],
      frame.call < m + 1 := by
    intro m handling frame hframe
    rw [List.mem_singleton.mp hframe]
    exact Nat.lt_succ_self m
  cases h with
  | idle => exact ⟨nofun, nofun⟩
  | setInvoke => exact ⟨nofun, hclient⟩
  | setExec => exact ⟨nofun, hclient⟩
  | create => exact ⟨nofun, hclient⟩
  | computing => exact ⟨hone, hclient⟩
  | asked => exact ⟨hone, hclient⟩
  | sending => exact ⟨hone, hclient⟩
  | handling => exact ⟨hone, hclient⟩
  | taking => exact ⟨hone, hclient⟩
  | answered => exact ⟨hone, hclient⟩
  | ended => exact ⟨nofun, hclient⟩
  | finishing => exact ⟨nofun, hclient⟩
  | sendResult => exact ⟨nofun, hclient⟩
  | stolen _ _ _ hne => exact absurd rfl hne

theorem System.along_cons {α : Type} (f : System → Action → List α) (hs : s.action a = some s') :
    s.along f (a :: as) = f s a ++ s'.along f as := by
  rw [System.along, hs]
  rfl

/-- What a flat run is given stands in the log. -/
theorem Nest.soFar_run (h : Nest [] s) (hflat : FlatActions s as) (hs : s.run as = some s')
    (k : ℕ) : s'.soFar (·.requests) k = s.soFar (·.requests) k ++ s.requestsOf k as ∧
      s'.soFar (·.callbacks) k = s.soFar (·.callbacks) k ++ s.callbacksOf k as := by
  induction as generalizing s with
  | nil =>
      obtain rfl := Option.some.inj hs
      exact ⟨(List.append_nil _).symm, (List.append_nil _).symm⟩
  | cons a rest ih =>
      obtain ⟨ha, hrest⟩ := hflat
      obtain ⟨s₁, hs₁, hs⟩ := Option.bind_eq_some_iff.mp hs
      obtain ⟨hrequest, hcallback⟩ := h.numbered.soFar_action hs₁ k
      obtain ⟨hrequests, hcallbacks⟩ := ih (h.flat_action ha hs₁) (hrest s₁ hs₁) hs
      unfold System.requestsOf System.callbacksOf at *
      rw [hrequests, hcallbacks, hrequest, hcallback, System.along_cons _ hs₁,
        System.along_cons _ hs₁, List.append_assoc, List.append_assoc]
      exact ⟨rfl, rfl⟩

theorem callsOf_cons (a : Action) (as : List Action) :
    callsOf (a :: as) = callsOf [a] ++ callsOf as := by
  unfold callsOf
  rw [← List.filterMap_append, List.singleton_append]

/-- The calls of a run, in order. -/
theorem invokes_run (hs : s.run as = some s') : s'.invokes = s.invokes ++ callsOf as := by
  induction as generalizing s with
  | nil =>
      obtain rfl := Option.some.inj hs
      exact (List.append_nil _).symm
  | cons a rest ih =>
      obtain ⟨s₁, hs₁, hs⟩ := Option.bind_eq_some_iff.mp hs
      rw [ih hs, System.invokes_action hs₁, callsOf_cons a rest, List.append_assoc]

/-! ## The end of the calls -/

/-- The calls in progress can come to their end, without another call. -/
def Finishes (s : System) : Prop :=
  ∃ rest s', FlatActions s rest ∧ callsOf rest = [] ∧ s.run rest = some s' ∧ s'.client = []

theorem Finishes.before (h : Finishes s') (a : Action) (hs : s.action a = some s')
    (hcall : callsOf [a] = []) : Finishes s := by
  obtain ⟨rest, s₁, hflat, hcalls, hrun, hclient⟩ := h
  refine ⟨a :: rest, s₁, ⟨?_, ?_⟩, ?_, ?_, hclient⟩
  · cases a with
    | taintCall v => cases hcall
    | _ => exact id
  · intro s₂ hs₂
    obtain rfl : s' = s₂ := Option.some.inj (hs.symm.trans hs₂)
    exact hflat
  · rw [callsOf_cons, hcall, hcalls]
    rfl
  · rw [System.run, hs]
    exact hrun

theorem finishes_sendResult : Finishes ⟨⟨status, 0, 0, invoke, call⟩, [⟨n, none⟩],
    .sendResult t, [], n + 1, log⟩ := by
  cases t with
  | taintCall v => exact ⟨[.server], _, ⟨id, fun _ _ => trivial⟩, rfl, rfl, rfl⟩
  | callback => exact ⟨[.server], _, ⟨id, fun _ _ => trivial⟩, rfl, rfl, rfl⟩

theorem finishes_ended : Finishes ⟨⟨.finished, 1, 0, invoke, call⟩, [⟨n, none⟩], .waitReply t, [],
    n + 1, log⟩ :=
  (finishes_sendResult.before .server rfl rfl).before .server rfl rfl

theorem finishes_running : Finishes ⟨⟨status, 0, 0, invoke, call⟩, [⟨n, none⟩], .waitReply t,
    [⟨n, .running⟩], n + 1, log⟩ :=
  ((finishes_ended.before (.native 0 none) rfl rfl).before (.native 0 none) rfl rfl).before
    (.native 0 none) rfl rfl

theorem finishes_woken : Finishes ⟨⟨status, 0, 0, invoke, call⟩, [⟨n, none⟩], .waitReply t,
    [⟨n, .setExec⟩], n + 1, log⟩ :=
  (finishes_running.before (.native 0 none) rfl rfl).before (.native 0 none) rfl rfl

theorem finishes_answered : Finishes ⟨⟨status, 0, 1, invoke, call⟩, [⟨n, none⟩],
    .waitReply .callback, [⟨n, .waitJni⟩], n + 1, log⟩ :=
  finishes_woken.before (.native 0 none) rfl rfl

/-- From any place where the server thread takes an outcome. -/
theorem finishes_taking {server : Server} (h : Taking (log n) call server) :
    Finishes ⟨⟨.wait4Jni, 0, 0, invoke, call⟩, [⟨n, none⟩], server, [⟨n, .waitJni⟩], n + 1,
      log⟩ := by
  have hpost : ∀ call, Finishes ⟨⟨.wait4Jni, 0, 0, invoke, call⟩, [⟨n, none⟩], .postJni,
      [⟨n, .waitJni⟩], n + 1, log⟩ := fun call => finishes_answered.before .server rfl rfl
  have hcheck : ∀ call, Finishes ⟨⟨.wait4Jni, 0, 0, invoke, call⟩, [⟨n, none⟩], .checkStatus,
      [⟨n, .waitJni⟩], n + 1, log⟩ := fun call => (hpost call).before .server rfl rfl
  have hagain : ∀ call datasize, Finishes ⟨⟨.wait4Jni, 0, 0, invoke, call⟩, [⟨n, none⟩],
      .setLengthAgain datasize, [⟨n, .waitJni⟩], n + 1, log⟩ :=
    fun call datasize => (hcheck _).before .server rfl rfl
  have hdata : ∀ call datasize rawdata, Finishes ⟨⟨.wait4Jni, 0, 0, invoke, call⟩, [⟨n, none⟩],
      .setData datasize rawdata, [⟨n, .waitJni⟩], n + 1, log⟩ :=
    fun call datasize rawdata => (hagain _ datasize).before .server rfl rfl
  have hlength : ∀ call datasize rawdata, Finishes ⟨⟨.wait4Jni, 0, 0, invoke, call⟩, [⟨n, none⟩],
      .setLength datasize rawdata, [⟨n, .waitJni⟩], n + 1, log⟩ :=
    fun call datasize rawdata => (hdata _ datasize rawdata).before .server rfl rfl
  cases server with
  | compare function datasize rawdata =>
      exact (hlength call datasize rawdata).before .server (if_pos h.1) rfl
  | setLength datasize rawdata => exact hlength call datasize rawdata
  | setData datasize rawdata => exact hdata call datasize rawdata
  | setLengthAgain datasize => exact hagain call datasize
  | checkStatus => exact hcheck call
  | postJni => exact hpost call
  | _ => exact h.elim

/-- The client sends an outcome back. -/
theorem finishes_handling (h : (log n).Settled) : Finishes ⟨⟨.wait4Jni, 0, 0, invoke, call⟩,
    [⟨n, some call.function⟩], .idle, [⟨n, .waitJni⟩], n + 1, log⟩ := by
  have hlog : ((note log n fun l => { l with
      callbacks := l.callbacks ++ [(0, Mem.zero)] }) n).Answered 0 Mem.zero := by
    rw [note_self]
    exact ⟨h.started, h.replies, by rw [h.returns]⟩
  have htaking : Taking _ call (.compare call.function 0 Mem.zero) := ⟨rfl, hlog⟩
  exact (finishes_taking htaking).before (.callback 0 Mem.zero) rfl rfl

/-- From any place where the server thread sends a request. -/
theorem finishes_sending {server : Server} (h : Sending call server) (hlog : (log n).Asking call) :
    Finishes ⟨⟨.wait4Jni, 0, 0, invoke, call⟩, [⟨n, none⟩], server, [⟨n, .waitJni⟩], n + 1,
      log⟩ := by
  have hdata : Finishes ⟨⟨.wait4Jni, 0, 0, invoke, call⟩, [⟨n, none⟩],
      .sendData call.function call.length call.taintsize, [⟨n, .waitJni⟩], n + 1, log⟩ := by
    refine Finishes.before (finishes_handling ?_) .server rfl rfl
    rw [note_self]
    obtain ⟨before, hrequests, hreplies⟩ := hlog.replies
    refine ⟨hlog.started, ?_, hlog.returns⟩
    simp only [hrequests, hreplies, List.map_append, List.map_cons, List.map_nil]
  have htaint : Finishes ⟨⟨.wait4Jni, 0, 0, invoke, call⟩, [⟨n, none⟩],
      .sendTaintsize call.function call.length, [⟨n, .waitJni⟩], n + 1, log⟩ :=
    hdata.before .server rfl rfl
  have hlength : Finishes ⟨⟨.wait4Jni, 0, 0, invoke, call⟩, [⟨n, none⟩],
      .sendLength call.function, [⟨n, .waitJni⟩], n + 1, log⟩ := htaint.before .server rfl rfl
  have hfunction : Finishes ⟨⟨.wait4Jni, 0, 0, invoke, call⟩, [⟨n, none⟩], .sendFunction,
      [⟨n, .waitJni⟩], n + 1, log⟩ := hlength.before .server rfl rfl
  cases server with
  | readStatus t => exact hfunction.before .server rfl rfl
  | sendFunction => exact hfunction
  | sendLength function =>
      obtain rfl : function = call.function := h
      exact hlength
  | sendTaintsize function length =>
      obtain ⟨rfl, rfl⟩ : function = call.function ∧ length = call.length := h
      exact htaint
  | sendData function length taintsize =>
      obtain ⟨rfl, rfl, rfl⟩ :
        function = call.function ∧ length = call.length ∧ taintsize = call.taintsize := h
      exact hdata
  | _ => exact h.elim

theorem finishes_asked (hlog : (log n).Asking call) : Finishes ⟨⟨.wait4Jni, 1, 0, invoke, call⟩,
    [⟨n, none⟩], .waitReply t, [⟨n, .waitJni⟩], n + 1, log⟩ :=
  Finishes.before (@finishes_sending _ _ _ _ (.readStatus t) trivial hlog) .server rfl rfl

/-- From any place where a native thread computes. -/
theorem finishes_computing {pc : NativePc} (h : NativeOk (log n) status call pc) :
    Finishes ⟨⟨status, 0, 0, invoke, call⟩, [⟨n, none⟩], .waitReply t, [⟨n, pc⟩], n + 1, log⟩ := by
  have hjni : ∀ status call, (log n).Asking call → Finishes ⟨⟨status, 0, 0, invoke, call⟩,
      [⟨n, none⟩], .waitReply t, [⟨n, .setJni⟩], n + 1, log⟩ := fun status call hlog =>
    ((finishes_asked hlog).before (.native 0 none) rfl rfl).before (.native 0 none) rfl rfl
  have hdata : ∀ call r, (log n).Asking ⟨call.function, call.length, call.taintsize, r.paramData⟩ →
      Finishes ⟨⟨status, 0, 0, invoke, call⟩, [⟨n, none⟩], .waitReply t, [⟨n, .storeData r⟩],
        n + 1, log⟩ := fun call r hlog => (hjni _ _ hlog).before (.native 0 none) rfl rfl
  have htaint : ∀ call r, (log n).Asking ⟨call.function, call.length, r.taintsize, r.paramData⟩ →
      Finishes ⟨⟨status, 0, 0, invoke, call⟩, [⟨n, none⟩], .waitReply t, [⟨n, .storeTaintsize r⟩],
        n + 1, log⟩ := fun call r hlog => (hdata _ r hlog).before (.native 0 none) rfl rfl
  have hlength : ∀ call r, (log n).Asking ⟨call.function, r.length, r.taintsize, r.paramData⟩ →
      Finishes ⟨⟨status, 0, 0, invoke, call⟩, [⟨n, none⟩], .waitReply t, [⟨n, .storeLength r⟩],
        n + 1, log⟩ := fun call r hlog => (htaint _ r hlog).before (.native 0 none) rfl rfl
  cases pc with
  | start => exact finishes_running.before (.native 0 none) rfl rfl
  | running => exact finishes_running
  | storeFunction r =>
      exact (hlength { call with function := r.function } r h).before (.native 0 none) rfl rfl
  | storeLength r =>
      obtain ⟨hlog, hfunction⟩ := h
      refine hlength call r ?_
      rw [hfunction]
      exact hlog
  | storeTaintsize r =>
      obtain ⟨hlog, hfunction, hlen⟩ := h
      refine htaint call r ?_
      rw [hfunction, hlen]
      exact hlog
  | storeData r =>
      obtain ⟨hlog, hfunction, hlen, htaintsize⟩ := h
      refine hdata call r ?_
      rw [hfunction, hlen, htaintsize]
      exact hlog
  | setJni => exact hjni status call h
  | postReply =>
      obtain ⟨hlog, rfl⟩ := h
      exact (finishes_asked hlog).before (.native 0 none) rfl rfl
  | waitJni => exact h.elim
  | setExec => exact finishes_woken
  | resume => exact finishes_running.before (.native 0 none) rfl rfl
  | setFinished =>
      exact (finishes_ended.before (.native 0 none) rfl rfl).before (.native 0 none) rfl rfl
  | postFinished =>
      obtain ⟨-, rfl⟩ := h
      exact finishes_ended.before (.native 0 none) rfl rfl

theorem finishes_create : Finishes ⟨⟨status, 0, 0, invoke, call⟩, [⟨n, none⟩],
    .create n invoke, [], n + 1, log⟩ :=
  finishes_running.before (.native 0 none) rfl rfl |>.before .server rfl rfl

/-- Every system of a flat run can come to its end. -/
theorem Nest.finishes (h : Nest [] s) : Finishes s := by
  cases h with
  | idle => exact ⟨[], _, trivial, rfl, rfl, rfl⟩
  | setInvoke => exact (finishes_create.before .server rfl rfl).before .server rfl rfl
  | setExec => exact finishes_create.before .server rfl rfl
  | create => exact finishes_create
  | computing hcall ht hnative => exact finishes_computing hnative
  | asked hcall ht hlog => exact finishes_asked hlog
  | sending hcall hserver hlog => exact finishes_sending hserver hlog
  | handling hcall hlog => exact finishes_handling hlog
  | taking hcall hserver => exact finishes_taking hserver
  | answered => exact finishes_answered
  | ended => exact finishes_ended
  | finishing => exact finishes_sendResult.before .server rfl rfl
  | sendResult => exact finishes_sendResult
  | stolen _ _ _ hne => exact absurd rfl hne

/-! ## What the protocol guarantees -/

/-- What a state of a flat run looks like. -/
structure InOrder (s : System) : Prop where
  /-- a call is replied one `WAIT4JNI` for each request, with the request, and then `FINISHED` -/
  replies : ∀ k < s.calls, (s.log k).replies <+: (s.log k).requests.map .wait4Jni ++
    [.finished (s.log k).invoke.pResult (s.log k).invoke.argc]
  /-- after its requests the native code finds what the client has sent back -/
  returns : ∀ k < s.calls, (s.log k).returns <+: (s.log k).callbacks
  /-- a call that is over has had all of its replies -/
  complete : ∀ k < s.calls, ¬ InProgress s k → (s.log k).Done
  semaphores : s.em.mReplyReady ≤ 1 ∧ s.em.mJniReady ≤ 1
  /-- between two calls nothing is left behind -/
  quiet : s.client = [] → s.em.mReplyReady = 0 ∧ s.em.mJniReady = 0 ∧ s.server = .idle ∧
    s.natives = []
  /-- as long as a call is in progress, some thread can go on -/
  live : s.client ≠ [] → ∃ a s', ¬ Nested s a ∧ s.action a = some s'

theorem CallLog.Done.prefix_of_replies {l : CallLog} (h : l.Done) : l.replies <+:
    l.requests.map .wait4Jni ++ [.finished l.invoke.pResult l.invoke.argc] :=
  h.replies ▸ List.prefix_rfl

theorem CallLog.Done.prefix_of_returns {l : CallLog} (h : l.Done) : l.returns <+: l.callbacks :=
  h.returns ▸ List.prefix_rfl

/-- What the log of a call in progress says. -/
structure CallLog.Going (l : CallLog) : Prop where
  replies : l.replies <+: l.requests.map .wait4Jni
  returns : l.returns <+: l.callbacks

theorem CallLog.Fresh.going {l : CallLog} (h : l.Fresh) : l.Going :=
  ⟨h.replies ▸ List.nil_prefix, h.returns ▸ List.nil_prefix⟩

theorem CallLog.Settled.going {l : CallLog} (h : l.Settled) : l.Going :=
  ⟨h.replies ▸ List.prefix_rfl, h.returns ▸ List.prefix_rfl⟩

theorem CallLog.Asking.going {l : CallLog} {r : JniCall} (h : l.Asking r) : l.Going := by
  obtain ⟨before, hrequests, hreplies⟩ := h.replies
  refine ⟨?_, h.returns ▸ List.prefix_rfl⟩
  rw [hreplies, hrequests, List.map_append]
  exact List.prefix_append _ _

theorem CallLog.Answered.going {l : CallLog} {m : ℕ} {data : Mem} (h : l.Answered m data) :
    l.Going := by
  refine ⟨h.replies ▸ List.prefix_rfl, ?_⟩
  rw [h.returns]
  exact List.prefix_append _ _

theorem NativeOk.going {l : CallLog} {status : Status} {call : JniCall} {pc : NativePc}
    (h : NativeOk l status call pc) : l.Going := by
  cases pc with
  | start => exact CallLog.Fresh.going h
  | running => exact CallLog.Settled.going h
  | storeFunction r => exact CallLog.Asking.going h
  | storeLength r => exact h.1.going
  | storeTaintsize r => exact h.1.going
  | storeData r => exact h.1.going
  | setJni => exact CallLog.Asking.going h
  | postReply => exact h.1.going
  | waitJni => exact h.elim
  | setExec => exact CallLog.Answered.going h
  | resume => exact CallLog.Answered.going h
  | setFinished => exact CallLog.Settled.going h
  | postFinished => exact h.1.going

theorem Taking.going {l : CallLog} {call : JniCall} {server : Server} (h : Taking l call server) :
    l.Going := by
  cases server with
  | compare => exact h.2.going
  | setLength => exact CallLog.Answered.going h
  | setData => exact h.2.going
  | setLengthAgain => exact h.2.going
  | checkStatus => exact CallLog.Answered.going h
  | postJni => exact CallLog.Answered.going h
  | _ => exact h.elim

/-- In the middle of a call. -/
structure MidCall (s : System) (n : ℕ) : Prop where
  client : ∃ handling, s.client = [⟨n, handling⟩]
  calls : s.calls = n + 1
  past : ∀ j < n, (s.log j).Done
  going : (s.log n).Going
  semaphores : s.em.mReplyReady ≤ 1 ∧ s.em.mJniReady ≤ 1
  live : ∃ a s', ¬ Nested s a ∧ s.action a = some s'

/-- Between two calls. -/
structure Quiet (s : System) : Prop where
  client : s.client = []
  past : ∀ j < s.calls, (s.log j).Done
  semaphores : s.em.mReplyReady = 0 ∧ s.em.mJniReady = 0
  threads : s.server = .idle ∧ s.natives = []

/-- The native thread that computes can always go on. -/
theorem computing_live {status : Status} {call : JniCall} {t : Transaction} {pc : NativePc}
    (h : NativeOk (log n) status call pc) :
    ∃ s', System.action ⟨⟨status, 0, 0, invoke, call⟩, [⟨n, none⟩], .waitReply t, [⟨n, pc⟩],
      n + 1, log⟩ (.native 0 none) = some s' := by
  cases pc with
  | waitJni => exact h.elim
  | _ => exact ⟨_, rfl⟩

theorem sending_live {call : JniCall} {server : Server} (h : Sending call server) :
    ∃ s', System.action ⟨⟨.wait4Jni, 0, 0, invoke, call⟩, [⟨n, none⟩], server, [⟨n, .waitJni⟩],
      n + 1, log⟩ .server = some s' := by
  cases server with
  | readStatus => exact ⟨_, rfl⟩
  | sendFunction => exact ⟨_, rfl⟩
  | sendLength => exact ⟨_, rfl⟩
  | sendTaintsize => exact ⟨_, rfl⟩
  | sendData => exact ⟨_, rfl⟩
  | _ => exact h.elim

theorem taking_live {call : JniCall} {server : Server} (h : Taking (log n) call server) :
    ∃ s', System.action ⟨⟨.wait4Jni, 0, 0, invoke, call⟩, [⟨n, none⟩], server, [⟨n, .waitJni⟩],
      n + 1, log⟩ .server = some s' := by
  cases server with
  | compare => exact ⟨_, if_pos h.1⟩
  | setLength => exact ⟨_, rfl⟩
  | setData => exact ⟨_, rfl⟩
  | setLengthAgain => exact ⟨_, rfl⟩
  | checkStatus => exact ⟨_, rfl⟩
  | postJni => exact ⟨_, rfl⟩
  | _ => exact h.elim

theorem Outer.done (h : Outer log n []) : ∀ j < n, (log j).Done :=
  fun j hj => h.past j hj nofun

/-- Every system of a flat run is between two calls or in the middle of one. -/
theorem Nest.quiet_or_midCall (h : Nest [] s) : Quiet s ∨ ∃ n, MidCall s n := by
  cases h with
  | idle houter => exact Or.inl ⟨rfl, houter.done, ⟨rfl, rfl⟩, ⟨rfl, rfl⟩⟩
  | setInvoke hcall hlog =>
      exact Or.inr ⟨_, ⟨_, rfl⟩, rfl, hcall.outer.done, hlog.going, by simp, .server, _, id, rfl⟩
  | setExec hcall hlog =>
      exact Or.inr ⟨_, ⟨_, rfl⟩, rfl, hcall.outer.done, hlog.going, by simp, .server, _, id, rfl⟩
  | create hcall hlog =>
      exact Or.inr ⟨_, ⟨_, rfl⟩, rfl, hcall.outer.done, hlog.going, by simp, .server, _, id, rfl⟩
  | computing hcall ht hnative =>
      obtain ⟨s', hs'⟩ := computing_live hnative
      exact Or.inr ⟨_, ⟨_, rfl⟩, rfl, hcall.outer.done, hnative.going, by simp, _, s', id, hs'⟩
  | asked hcall ht hlog =>
      exact Or.inr ⟨_, ⟨_, rfl⟩, rfl, hcall.outer.done, hlog.going, by simp, .server, _, id, rfl⟩
  | sending hcall hserver hlog =>
      obtain ⟨s', hs'⟩ := sending_live hserver
      exact Or.inr ⟨_, ⟨_, rfl⟩, rfl, hcall.outer.done, hlog.going, by simp, _, s', id, hs'⟩
  | handling hcall hlog =>
      exact Or.inr ⟨_, ⟨_, rfl⟩, rfl, hcall.outer.done, hlog.going, by simp,
        .callback 0 Mem.zero, _, id, rfl⟩
  | taking hcall hserver =>
      obtain ⟨s', hs'⟩ := taking_live hserver
      exact Or.inr ⟨_, ⟨_, rfl⟩, rfl, hcall.outer.done, hserver.going, by simp, _, s', id, hs'⟩
  | answered hcall hlog =>
      exact Or.inr ⟨_, ⟨_, rfl⟩, rfl, hcall.outer.done, hlog.going, by simp, .native 0 none, _, id,
        rfl⟩
  | ended hcall ht hlog =>
      exact Or.inr ⟨_, ⟨_, rfl⟩, rfl, hcall.outer.done, hlog.going, by simp, .server, _, id, rfl⟩
  | finishing hcall ht hlog =>
      exact Or.inr ⟨_, ⟨_, rfl⟩, rfl, hcall.outer.done, hlog.going, by simp, .server, _, id, rfl⟩
  | @sendResult _ _ _ _ _ t hcall ht hlog =>
      refine Or.inr ⟨_, ⟨_, rfl⟩, rfl, hcall.outer.done, hlog.going, by simp, .server, ?_⟩
      cases t <;> exact ⟨_, id, rfl⟩
  | stolen _ _ _ hne => exact absurd rfl hne

/-- A call of a system in the middle of a call is over, or it is that call. -/
theorem MidCall.done_or_eq (h : MidCall s n) {k : ℕ} (hk : k < s.calls) :
    (s.log k).Done ∨ k = n ∧ InProgress s k ∧ (s.log k).Going := by
  rw [h.calls] at hk
  rcases Nat.lt_succ_iff_lt_or_eq.mp hk with hk | rfl
  · exact Or.inl (h.past k hk)
  · obtain ⟨handling, hclient⟩ := h.client
    refine Or.inr ⟨rfl, ⟨⟨k, handling⟩, ?_, rfl⟩, h.going⟩
    rw [hclient]
    exact List.mem_singleton_self _

theorem Quiet.inOrder (h : Quiet s) : InOrder s where
  replies k hk := (h.past k hk).prefix_of_replies
  returns k hk := (h.past k hk).prefix_of_returns
  complete k hk _ := h.past k hk
  semaphores := by
    rw [h.semaphores.1, h.semaphores.2]
    exact ⟨Nat.zero_le 1, Nat.zero_le 1⟩
  quiet _ := ⟨h.semaphores.1, h.semaphores.2, h.threads.1, h.threads.2⟩
  live hclient := absurd h.client hclient

theorem MidCall.inOrder (h : MidCall s n) : InOrder s where
  replies k hk := by
    rcases h.done_or_eq hk with hdone | ⟨-, -, hgoing⟩
    · exact hdone.prefix_of_replies
    · exact hgoing.replies.trans (List.prefix_append _ _)
  returns k hk := by
    rcases h.done_or_eq hk with hdone | ⟨-, -, hgoing⟩
    · exact hdone.prefix_of_returns
    · exact hgoing.returns
  complete k hk hover := by
    rcases h.done_or_eq hk with hdone | ⟨-, hin, -⟩
    · exact hdone
    · exact absurd hin hover
  semaphores := h.semaphores
  quiet hclient := by
    obtain ⟨handling, hframe⟩ := h.client
    rw [hframe] at hclient
    cases hclient
  live _ := h.live


theorem Nest.inOrder (h : Nest [] s) : InOrder s := by
  rcases h.quiet_or_midCall with hquiet | ⟨n, hmid⟩
  · exact hquiet.inOrder
  · exact hmid.inOrder

/-- The guarantees of the protocol after a run from `s₀`. -/
structure Protocol (s₀ : System) (as : List Action) (s : System) : Prop extends InOrder s where
  /-- every call of the client was made, with its arguments -/
  invokes : s.invokes = callsOf as
  /-- the requests of a call are those that its native code stored -/
  requests : ∀ k < s.calls, (s.log k).requests = s₀.requestsOf k as
  /-- the outcomes for a call are those that the client sent -/
  callbacks : ∀ k < s.calls, (s.log k).callbacks = s₀.callbacksOf k as
  /-- the calls in progress can come to their end -/
  finishes : Finishes s

/-- **The protocol in flat runs.**  However the threads take turns, whatever the native
code asks for and whatever the client sends back. -/
theorem flatRun_protocol (jniCall : JniCall) (invoke : PlatformInvoke) (log : ℕ → CallLog)
    (hflat : FlatActions (System.init jniCall invoke log) as)
    (hrun : (System.init jniCall invoke log).run as = some s) :
    Protocol (System.init jniCall invoke log) as s := by
  have hinit := nest_init jniCall invoke log
  have hnest := hinit.flat_run hflat hrun
  have hsoFar := hinit.soFar_run hflat hrun
  refine ⟨hnest.inOrder, invokes_run hrun, fun k hk => ?_, fun k hk => ?_, hnest.finishes⟩
  · have hk' := (hsoFar k).1
    rwa [System.soFar, if_pos hk] at hk'
  · have hk' := (hsoFar k).2
    rwa [System.soFar, if_pos hk] at hk'

/-- Arguments of a call. -/
def invokeAt (pResult : ℕ) : PlatformInvoke := ⟨0, 0, 1, [7], "II", 5, pResult⟩

/-- A request. -/
def requestInt : JniCall := ⟨27, 4, 0, Mem.zero⟩

/-- A system with nothing in its memory. -/
def System.blank : System :=
  .init ⟨0, 0, 0, Mem.zero⟩ (invokeAt 0) fun _ => ⟨invokeAt 0, [], [], [], [], []⟩

/-- A call up to the reply that makes the client execute a request. -/
def askOnce (pResult : ℕ) : List Action :=
  [.taintCall (invokeAt pResult), .server, .server, .server, .native 0 none,
    .native 0 (some requestInt), .native 0 none, .native 0 none, .native 0 none, .native 0 none,
    .native 0 none, .native 0 none, .server, .server, .server, .server, .server, .server]

/-- The outcome of the request, sent back. -/
def answer : List Action :=
  [.callback 4 Mem.zero, .server, .server, .server, .server, .server, .server]

/-- The native code goes on and ends. -/
def finish : List Action :=
  [.native 0 none, .native 0 none, .native 0 none, .native 0 none, .native 0 none, .native 0 none,
    .server, .server, .server]

/-- One call with one request, from the beginning to the end. -/
theorem flatRun_protocol_once :
    ∃ s, System.blank.run (askOnce 16 ++ answer ++ finish) = some s ∧
      Protocol System.blank (askOnce 16 ++ answer ++ finish) s ∧ s.calls = 1 ∧
      (s.log 0).requests = [requestInt] ∧ (s.log 0).callbacks = [(4, Mem.zero)] ∧
      (s.log 0).replies = [.wait4Jni requestInt, .finished 16 1] := by
  have hflat : FlatActions System.blank (askOnce 16 ++ answer ++ finish) := by decide
  exact ⟨_, rfl, flatRun_protocol _ _ _ hflat rfl, rfl, rfl, rfl, rfl⟩

/-! ## Calls inside of calls -/

/-- The client is served in every state of a run. -/
def Serves (s : System) (as : List Action) : Prop :=
  ∀ before, before <+: as → ∀ s', s.run before = some s' → Served s'

/-- The client gets a reply to what it sends for call `k` after it has made another call inside of
it. -/
def GoesOn (s : System) (as : List Action) (k : ℕ) : Prop :=
  ∃ before invoke after s₁ s₂ function rest, as = before ++ .taintCall invoke :: after ∧
    s.run before = some s₁ ∧ s₁.client = ⟨k, some function⟩ :: rest ∧ s.run as = some s₂ ∧
    (s₂.log k).replies ≠ (s₁.log k).replies

theorem InOrder.served (h : InOrder s) : Served s := by
  refine ⟨fun k hk r hr => ?_, h.returns, h.complete⟩
  rcases List.mem_append.mp ((h.replies k hk).subset hr) with hr | hr
  · obtain ⟨call, -, rfl⟩ := List.mem_map.mp hr
    exact Or.inl ⟨call, rfl⟩
  · exact Or.inr (List.mem_singleton.mp hr)

theorem run_append (s : System) (before after : List Action) :
    s.run (before ++ after) = (s.run before).bind fun s' => s'.run after := by
  induction before generalizing s with
  | nil => rfl
  | cons a rest ih =>
      rw [List.cons_append, System.run, System.run, Option.bind_assoc]
      exact congrArg _ (funext fun s' => ih s')

theorem Serves.after {before after : List Action} (h : Serves s (before ++ after))
    (hs : s.run before = some s') : Serves s' after := by
  intro first hfirst s₁ hs₁
  refine h (before ++ first) ((List.prefix_append_right_inj before).mpr hfirst) s₁ ?_
  rw [run_append, hs]
  exact hs₁

theorem Serves.next (h : Serves s (a :: as)) (hs : s.action a = some s') : Served s' := by
  refine h [a] ⟨as, rfl⟩ s' ?_
  rw [System.run, hs]
  rfl

theorem flatActions_of_append {before after : List Action} (h : FlatActions s (before ++ after)) :
    FlatActions s before := by
  induction before generalizing s with
  | nil => trivial
  | cons a rest ih => exact ⟨h.1, fun s' hs' => ih (h.2 s' hs')⟩

/-- As long as the client is served, no outer call comes to its end or gets a reply. -/
theorem Nest.served_run (h : Nest outer s) (hserves : Serves s as) (hs : s.run as = some s') :
    ∃ outer', Nest outer' s' ∧ outer <:+ outer' ∧
      (∀ frame ∈ outer, (s'.log frame.call).replies = (s.log frame.call).replies) ∧
      (outer' = [] → FlatActions s as) := by
  induction as generalizing s outer with
  | nil =>
      obtain rfl := Option.some.inj hs
      exact ⟨outer, h, List.suffix_rfl, fun _ _ => rfl, fun _ => trivial⟩
  | cons a rest ih =>
      obtain ⟨s₁, hs₁, hs⟩ := Option.bind_eq_some_iff.mp hs
      have hserved := hserves.next hs₁
      have hrest : Serves s₁ rest := Serves.after (show Serves s ([a] ++ rest) from hserves) (by
        rw [System.run, hs₁]
        rfl)
      rcases h.action hs₁ with ⟨h₁, hflat⟩ | ⟨-, frame, h₁⟩ | ⟨-, hnot⟩
      · obtain ⟨outer', h', hsuffix, hreplies, hnil⟩ := ih h₁ hrest hs
        refine ⟨outer', h', hsuffix, fun frame hframe => ?_, fun hempty => ⟨?_, ?_⟩⟩
        · rw [hreplies frame hframe, h.replies hs₁ hserved hframe]
        · exact hflat (List.suffix_nil.mp (hempty ▸ hsuffix))
        · intro s₂ hs₂
          obtain rfl : s₁ = s₂ := Option.some.inj (hs₁.symm.trans hs₂)
          exact hnil hempty
      · obtain ⟨outer', h', hsuffix, hreplies, -⟩ := ih h₁ hrest hs
        refine ⟨outer', h', (List.suffix_cons frame outer).trans hsuffix, fun other hother => ?_,
          fun hempty => ?_⟩
        · rw [hreplies other (List.mem_cons_of_mem _ hother), h.replies hs₁ hserved hother]
        · rw [hempty] at hsuffix
          exact absurd (List.suffix_nil.mp hsuffix) (List.cons_ne_nil _ _)
      · exact absurd hserved hnot

/-- A call inside of call `k` makes it an outer one. -/
theorem Nest.nested {function : ℕ} {rest : List Frame} (h : Nest outer s)
    (hclient : s.client = ⟨k, some function⟩ :: rest)
    (hs : s.action (.taintCall invoke) = some s') : ∃ outer' frame, Nest outer' s' ∧
      frame ∈ outer' ∧ frame.call = k ∧ (s'.log k).replies = (s.log k).replies := by
  cases h with
  | @idle _ _ old _ n log houter hstatus =>
      obtain rfl : outer = ⟨k, some function⟩ :: rest := hclient
      have hlt := houter.lt _ List.mem_cons_self
      obtain rfl := System.taintCall_eq hs
      refine ⟨_, _, nest_taintCall houter old invoke, List.mem_cons_self, rfl, ?_⟩
      exact congrArg CallLog.replies (Function.update_of_ne hlt.ne ..)
  | @handling _ old call n log hcall hlog =>
      obtain ⟨hframe, -⟩ := List.cons.inj hclient
      obtain ⟨rfl, -⟩ := Frame.mk.inj hframe
      obtain rfl := System.taintCall_eq hs
      refine ⟨_, _, nest_taintCall (hcall.outer.push hlog call.function) old invoke,
        List.mem_cons_self, rfl, ?_⟩
      exact congrArg CallLog.replies (Function.update_of_ne (Nat.lt_succ_self n).ne ..)
  | _ => cases hclient

theorem not_serves_of_goesOn (h : Nest [] s) (hgoes : GoesOn s as k) : ¬ Serves s as := by
  rintro hserves
  obtain ⟨before, invoke, after, s₁, s₂, function, rest, rfl, hs₁, hclient, hs₂, hne⟩ := hgoes
  rw [run_append, hs₁, Option.bind_some, System.run] at hs₂
  obtain ⟨s', hs', hs₂⟩ := Option.bind_eq_some_iff.mp hs₂
  have hbefore : Serves s before := fun first hfirst =>
    hserves first (hfirst.trans (List.prefix_append _ _))
  have hafter : Serves s₁ ([.taintCall invoke] ++ after) := hserves.after hs₁
  obtain ⟨outer₁, h₁, -⟩ := h.served_run hbefore hs₁
  obtain ⟨outer₂, frame, h₂, hframe, rfl, hreplies⟩ := h₁.nested hclient hs'
  have hrest : Serves s' after := hafter.after (by
    rw [System.run, hs']
    rfl)
  obtain ⟨-, -, -, hsame, -⟩ := h₂.served_run hrest hs₂
  exact hne ((hsame frame hframe).trans hreplies)

/-- **The client is served in flat runs only.**  In a flat run it is served in every state.  In a
run in which it goes on with a call inside of which it has made another one it is not, and a run
that comes to its end serves it only if it is flat. -/
theorem serves_flat_only (jniCall : JniCall) (invoke : PlatformInvoke) (log : ℕ → CallLog)
    (hrun : (System.init jniCall invoke log).run as = some s) :
    (FlatActions (System.init jniCall invoke log) as →
      Serves (System.init jniCall invoke log) as) ∧
    (∀ k, GoesOn (System.init jniCall invoke log) as k →
      ¬ Serves (System.init jniCall invoke log) as) ∧
    (s.client = [] → Serves (System.init jniCall invoke log) as →
      FlatActions (System.init jniCall invoke log) as) := by
  have hinit := nest_init jniCall invoke log
  refine ⟨?_, fun k => not_serves_of_goesOn hinit, fun hclient hserves => ?_⟩
  · rintro hflat before ⟨after, rfl⟩ s' hs'
    exact (hinit.flat_run (flatActions_of_append hflat) hs').inOrder.served
  · obtain ⟨outer, h, -, -, hnil⟩ := hinit.served_run hserves hrun
    refine hnil ?_
    cases h with
    | idle => exact hclient
    | _ => cases hclient

/-- A call without requests. -/
def callOnce (pResult : ℕ) : List Action :=
  [.taintCall (invokeAt pResult), .server, .server, .server, .native 0 none, .native 0 none,
    .native 0 none, .native 0 none, .server, .server, .server]

/-- Alone call `0` is served; with a call inside of it, it is not. -/
theorem serves_flat_only_nested :
    Serves System.blank (askOnce 16 ++ answer ++ finish) ∧
      ¬ Serves System.blank (askOnce 16 ++ callOnce 32 ++ answer.take 6) := by
  constructor
  · exact (serves_flat_only _ _ _ (rfl : System.blank.run (askOnce 16 ++ answer ++ finish) =
      some _)).1 (by decide)
  · refine (serves_flat_only _ _ _ (rfl : System.blank.run
      (askOnce 16 ++ callOnce 32 ++ answer.take 6) = some _)).2.1 0 ?_
    refine ⟨askOnce 16, invokeAt 32, (callOnce 32).tail ++ answer.take 6, _, _, 27, [], rfl, rfl,
      rfl, rfl, fun h => ?_⟩
    exact absurd (congrArg List.length h) (by decide)

/-- Executing a request of call `0`, the client makes call `1`.  When that is over, the
outcome of the request is refused, because the manager does not wait for one. -/
theorem not_served_nested :
    ∃ s, System.blank.run (askOnce 16 ++ callOnce 32 ++ answer.take 6) = some s ∧ ¬ Served s := by
  refine ⟨_, rfl, fun h => ?_⟩
  -- the second reply to call `0` is the status `ERROR`
  have hreplies := h.accepted 0 (by decide) (.status .error) (.tail _ (.head _))
  rcases hreplies with ⟨call, hcall⟩ | hcall
  · cases hcall
  · cases hcall

end Runs

end SystemExtras.Wrapper
