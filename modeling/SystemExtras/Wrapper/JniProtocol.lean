import SystemExtras.Wrapper.Marshal

/-!
# The call-back protocol between client and wrapper

The client runs native code in the wrapper process by a `TAINT_CALL`.  The server
thread that receives it starts a native thread and waits for a reply
(`startExec`).  The native code either ends (`signalResult`) or needs a JNI
function: then it leaves the request in `jniCall`, has the server thread reply
`WAIT4JNI`, and waits (`reqJniCall`).  The client executes the request and sends
its outcome with a `CALLBACK`, which puts it into `jniCall`, wakes the native
thread and waits for the next reply (`setJniResult`).

There is one `ExecutionManager` for each thread id, with one status word, one
`jniCall`, one `platformInvoke` and two semaphores, and only the semaphores are
synchronised.  A system is a client thread, a server thread and native threads
that share an `ExecutionManager`; an action is one access of one thread to what
is shared.  What was asked, answered and replied is noted for each call in a log
that no thread reads.

A call may be issued while the client executes a request of another one.  A run in
which this does not happen is flat (`FlatActions`).  What a run was given is read off
its actions (`callsOf`, `requestsOf`, `callbacksOf`), and what came of it stands in
the log.
-/

namespace SystemExtras.Wrapper

/-! ## What is shared -/

/-- The states of an `ExecutionManager`. -/
inductive Status where
  | init
  | wait4Exec
  | wait4Jni
  | finished
  | error
  deriving DecidableEq, Repr

/-- `platformInvoke_t`; the result and the class are addresses. -/
structure PlatformInvoke where
  clazz : ℕ
  argInfo : ℕ
  argc : ℕ
  argv : List ℕ
  shorty : String
  funcHandle : ℕ
  pResult : ℕ
  deriving DecidableEq, Repr

/-- `ExecutionManager`, as far as the protocol uses it. -/
structure ExecutionManager where
  mStatus : Status
  mReplyReady : ℕ
  mJniReady : ℕ
  platformInvoke : PlatformInvoke
  jniCall : JniCall

/-! ## The threads -/

/-- The reply to a transaction: what stands at `pResult` and `argc` words behind a
status `FINISHED`, a request behind `WAIT4JNI`, another status alone, or the `-1`
of a transaction that failed. -/
inductive Reply where
  | finished (pResult argc : ℕ)
  | wait4Jni (call : JniCall)
  | status (status : Status)
  | failed

/-- The transaction that the server thread is working on; the code of `TAINT_CALL` has
its arguments in local variables. -/
inductive Transaction where
  | taintCall (invoke : PlatformInvoke)
  | callback

/-- Where the server thread stands in `BnWrapper::onTransact`. -/
inductive Server where
  | idle
  -- `TAINT_CALL` and `startExec`
  | setInvoke (call : ℕ) (invoke : PlatformInvoke)
  | setExec (call : ℕ) (invoke : PlatformInvoke)
  | create (call : ℕ) (invoke : PlatformInvoke)
  -- `CALLBACK` and `setJniResult`
  | compare (function datasize : ℕ) (rawdata : Mem)
  | setLength (datasize : ℕ) (rawdata : Mem)
  | setData (datasize : ℕ) (rawdata : Mem)
  | setLengthAgain (datasize : ℕ)
  | checkStatus
  | postJni
  -- the common end
  | waitReply (t : Transaction)
  | readStatus (t : Transaction)
  | sendResult (t : Transaction)
  | sendFunction
  | sendLength (function : ℕ)
  | sendTaintsize (function length : ℕ)
  | sendData (function length taintsize : ℕ)

/-- Where a native thread stands in `runNative`, a JNI stub, `reqJniCall` or
`signalResult`. -/
inductive NativePc where
  | start
  | running
  | storeFunction (r : JniCall)
  | storeLength (r : JniCall)
  | storeTaintsize (r : JniCall)
  | storeData (r : JniCall)
  | setJni
  | postReply
  | waitJni
  | setExec
  | resume
  | setFinished
  | postFinished

/-- A native thread and the call it was created for. -/
structure Native where
  call : ℕ
  pc : NativePc

/-- A `taintCall` of the client: the function code of the request it executes, or `none`
while it waits for the reply to a transaction. -/
structure Frame where
  call : ℕ
  handling : Option ℕ

/-- What happened during a call: its arguments, those that its native thread was started
with, the requests that were stored, the replies to the client, the outcomes that the
client sent back, and those that the native code found. -/
structure CallLog where
  invoke : PlatformInvoke
  started : List PlatformInvoke
  requests : List JniCall
  replies : List Reply
  callbacks : List (ℕ × Mem)
  returns : List (ℕ × Mem)

/-- A client, a server thread and native threads around one `ExecutionManager`. -/
structure System where
  em : ExecutionManager
  /-- the innermost call first -/
  client : List Frame
  server : Server
  natives : List Native
  /-- the number of calls made, which is the number of the next one -/
  calls : ℕ
  log : ℕ → CallLog

/-- A system before the first call.  `jniCall` and `platformInvoke` hold whatever the
constructor found in memory. -/
def System.init (jniCall : JniCall) (platformInvoke : PlatformInvoke) (log : ℕ → CallLog) :
    System where
  em := ⟨.init, 0, 0, platformInvoke, jniCall⟩
  client := []
  server := .idle
  natives := []
  calls := 0
  log := log

/-! ## Actions -/

/-- Adds to the log of a call. -/
def note (log : ℕ → CallLog) (call : ℕ) (f : CallLog → CallLog) : ℕ → CallLog :=
  Function.update log call (f (log call))

/-- The client gets the reply to its transaction.  It executes a request, and returns
from `taintCall` after anything else. -/
def System.reply (s : System) (r : Reply) : System :=
  match s.client with
  | [] => { s with server := .idle }
  | frame :: rest =>
      { s with
        server := .idle
        log := note s.log frame.call fun l => { l with replies := l.replies ++ [r] }
        client := match r with
          | .wait4Jni call => { frame with handling := some call.function } :: rest
          | _ => rest }

/-- The next action of the server thread; none if it waits. -/
def System.serverAction (s : System) : Option System :=
  match s.server with
  | .idle => none
  | .setInvoke call invoke =>
      some { s with em.platformInvoke := invoke, server := .setExec call invoke }
  | .setExec call invoke => some { s with em.mStatus := .wait4Exec, server := .create call invoke }
  | .create call invoke =>
      some { s with natives := ⟨call, .start⟩ :: s.natives,
                    server := .waitReply (.taintCall invoke) }
  | .compare function datasize rawdata =>
      if function = s.em.jniCall.function then some { s with server := .setLength datasize rawdata }
      else some (s.reply .failed)
  | .setLength datasize rawdata =>
      some { s with em.jniCall.length := datasize, server := .setData datasize rawdata }
  | .setData datasize rawdata =>
      some { s with em.jniCall.paramData := rawdata, server := .setLengthAgain datasize }
  | .setLengthAgain datasize =>
      some { s with em.jniCall.length := datasize, server := .checkStatus }
  | .checkStatus =>
      if s.em.mStatus ≠ .wait4Jni then some (s.reply (.status .error))
      else some { s with server := .postJni }
  | .postJni =>
      some { s with em.mJniReady := s.em.mJniReady + 1, server := .waitReply .callback }
  | .waitReply t =>
      if s.em.mReplyReady = 0 then none
      else some { s with em.mReplyReady := s.em.mReplyReady - 1, server := .readStatus t }
  | .readStatus t =>
      match s.em.mStatus, t with
      | .wait4Jni, _ => some { s with server := .sendFunction }
      | .finished, t => some { s with server := .sendResult t }
      | _, .taintCall _ => some (s.reply .failed)
      | status, .callback => some (s.reply (.status status))
  | .sendResult (.taintCall invoke) => some (s.reply (.finished invoke.pResult invoke.argc))
  | .sendResult .callback =>
      some (s.reply (.finished s.em.platformInvoke.pResult s.em.platformInvoke.argc))
  | .sendFunction => some { s with server := .sendLength s.em.jniCall.function }
  | .sendLength function => some { s with server := .sendTaintsize function s.em.jniCall.length }
  | .sendTaintsize function length =>
      some { s with server := .sendData function length s.em.jniCall.taintsize }
  | .sendData function length taintsize =>
      some (s.reply (.wait4Jni ⟨function, length, taintsize, s.em.jniCall.paramData⟩))

/-- The native thread `i` goes on to `pc`. -/
def System.goto (s : System) (i : ℕ) (pc : NativePc) : System :=
  { s with natives := s.natives.modify i fun t => { t with pc := pc } }

/-- The next action of a native thread; none if it waits or does not exist.  Native code
that runs stores a request, or ends. -/
def System.nativeAction (s : System) (i : ℕ) (request : Option JniCall) : Option System :=
  match s.natives[i]? with
  | none => none
  | some t =>
      match t.pc with
      | .start =>
          some { s.goto i .running with
            log := note s.log t.call fun l =>
              { l with started := l.started ++ [s.em.platformInvoke] } }
      | .running =>
          match request with
          | none => some (s.goto i .setFinished)
          | some r =>
              some { s.goto i (.storeFunction r) with
                log := note s.log t.call fun l => { l with requests := l.requests ++ [r] } }
      | .storeFunction r =>
          some { s.goto i (.storeLength r) with em.jniCall.function := r.function }
      | .storeLength r => some { s.goto i (.storeTaintsize r) with em.jniCall.length := r.length }
      | .storeTaintsize r =>
          some { s.goto i (.storeData r) with em.jniCall.taintsize := r.taintsize }
      | .storeData r => some { s.goto i .setJni with em.jniCall.paramData := r.paramData }
      | .setJni => some { s.goto i .postReply with em.mStatus := .wait4Jni }
      | .postReply => some { s.goto i .waitJni with em.mReplyReady := s.em.mReplyReady + 1 }
      | .waitJni =>
          if s.em.mJniReady = 0 then none
          else some { s.goto i .setExec with em.mJniReady := s.em.mJniReady - 1 }
      | .setExec => some { s.goto i .resume with em.mStatus := .wait4Exec }
      | .resume =>
          some { s.goto i .running with
            log := note s.log t.call fun l =>
              { l with returns := l.returns ++ [(s.em.jniCall.length, s.em.jniCall.paramData)] } }
      | .setFinished => some { s.goto i .postFinished with em.mStatus := .finished }
      | .postFinished =>
          some { s with
            em.mReplyReady := s.em.mReplyReady + 1
            natives := s.natives.eraseIdx i }

/-- An action of a thread.  The client decides on the calls and on the outcomes of
requests, native code on its requests. -/
inductive Action where
  | taintCall (invoke : PlatformInvoke)
  | callback (datasize : ℕ) (rawdata : Mem)
  | server
  | native (i : ℕ) (request : Option JniCall)

/-- What an action does to a system; none if it is not possible.  The client can make a
call when it has no other in progress, and also while it executes a request. -/
def System.action (s : System) : Action → Option System
  | .taintCall invoke =>
      let call : System :=
        { s with
          client := ⟨s.calls, none⟩ :: s.client
          server := .setInvoke s.calls invoke
          calls := s.calls + 1
          log := Function.update s.log s.calls ⟨invoke, [], [], [], [], []⟩ }
      match s.client with
      | [] => some call
      | ⟨_, some _⟩ :: _ => some call
      | ⟨_, none⟩ :: _ => none
  | .callback datasize rawdata =>
      match s.client with
      | ⟨call, some function⟩ :: rest =>
          some { s with
            client := ⟨call, none⟩ :: rest
            server := .compare function datasize rawdata
            log := note s.log call fun l =>
              { l with callbacks := l.callbacks ++ [(datasize, rawdata)] } }
      | _ => none
  | .server => s.serverAction
  | .native i request => s.nativeAction i request

/-- A call inside of a call. -/
def Nested (s : System) : Action → Prop
  | .taintCall _ => s.client ≠ []
  | _ => False

/-- A run: the system after some actions. -/
def System.run (s : System) : List Action → Option System
  | [] => some s
  | a :: rest => (s.action a).bind fun s => s.run rest

/-- No action of a run is a call inside of a call. -/
def FlatActions (s : System) : List Action → Prop
  | [] => True
  | a :: rest => ¬ Nested s a ∧ ∀ s' ∈ s.action a, FlatActions s' rest

instance (s : System) : (a : Action) → Decidable (Nested s a)
  | .taintCall _ => inferInstanceAs (Decidable (s.client ≠ []))
  | .callback _ _ => isFalse id
  | .server => isFalse id
  | .native _ _ => isFalse id

instance decidableFlatActions : (s : System) → (as : List Action) → Decidable (FlatActions s as)
  | _, [] => isTrue trivial
  | s, a :: rest =>
      have (s' : System) : Decidable (FlatActions s' rest) := decidableFlatActions s' rest
      inferInstanceAs (Decidable (¬ Nested s a ∧ ∀ s' ∈ s.action a, FlatActions s' rest))

/-! ## What a run is given -/

/-- The arguments of the calls that the client makes. -/
def callsOf (as : List Action) : List PlatformInvoke :=
  as.filterMap fun
    | .taintCall invoke => some invoke
    | _ => none

/-- The request that an action makes the native code of call `k` store. -/
def System.requestBy (s : System) (k : ℕ) : Action → List JniCall
  | .native i (some r) =>
      match s.natives[i]? with
      | some ⟨call, .running⟩ => if call = k then [r] else []
      | _ => []
  | _ => []

/-- The outcome that an action sends back for a request of call `k`. -/
def System.callbackBy (s : System) (k : ℕ) : Action → List (ℕ × Mem)
  | .callback datasize rawdata =>
      match s.client with
      | ⟨call, some _⟩ :: _ => if call = k then [(datasize, rawdata)] else []
      | _ => []
  | _ => []

/-- What the actions of a run add up to, one behind the other. -/
def System.along {α : Type} (f : System → Action → List α) (s : System) : List Action → List α
  | [] => []
  | a :: rest => f s a ++ ((s.action a).map fun s' => s'.along f rest).getD []

/-- The requests of the native code of call `k`. -/
def System.requestsOf (s : System) (k : ℕ) (as : List Action) : List JniCall :=
  s.along (fun s => s.requestBy k) as

/-- The outcomes that the client sends back for the requests of call `k`. -/
def System.callbacksOf (s : System) (k : ℕ) (as : List Action) : List (ℕ × Mem) :=
  s.along (fun s => s.callbackBy k) as

/-! ## What a call leaves in its log -/

namespace CallLog

variable (l : CallLog)

/-- Nothing has happened yet. -/
structure Fresh : Prop where
  started : l.started = []
  requests : l.requests = []
  replies : l.replies = []
  callbacks : l.callbacks = []
  returns : l.returns = []

/-- Every request was replied to the client, and its outcome found by the native code. -/
structure Settled : Prop where
  started : l.started = [l.invoke]
  replies : l.replies = l.requests.map .wait4Jni
  returns : l.returns = l.callbacks

/-- The request `r` is not yet replied. -/
structure Asking (r : JniCall) : Prop where
  started : l.started = [l.invoke]
  replies : ∃ before, l.requests = before ++ [r] ∧ l.replies = before.map .wait4Jni
  returns : l.returns = l.callbacks

/-- The outcome of the last request is not yet found by the native code. -/
structure Answered (datasize : ℕ) (rawdata : Mem) : Prop where
  started : l.started = [l.invoke]
  replies : l.replies = l.requests.map .wait4Jni
  returns : l.callbacks = l.returns ++ [(datasize, rawdata)]

/-- The call is over, and its last reply has its own result and argument count. -/
structure Done : Prop where
  started : l.started = [l.invoke]
  replies : l.replies = l.requests.map .wait4Jni ++ [.finished l.invoke.pResult l.invoke.argc]
  returns : l.returns = l.callbacks

end CallLog

/-- Call `k` is in progress. -/
def InProgress (s : System) (k : ℕ) : Prop := ∃ frame ∈ s.client, frame.call = k

/-- What the client relies on: every transaction is accepted, the native code of every call
resumes with the outcomes of its own requests, and every call ends with its own result and
argument count. -/
structure Served (s : System) : Prop where
  accepted : ∀ k < s.calls, ∀ r ∈ (s.log k).replies, (∃ call, r = .wait4Jni call) ∨
    r = .finished (s.log k).invoke.pResult (s.log k).invoke.argc
  resumed : ∀ k < s.calls, (s.log k).returns <+: (s.log k).callbacks
  ended : ∀ k < s.calls, ¬ InProgress s k → (s.log k).Done

/-! ## What an action does to the log -/

section Accounts

variable {s s' : System} {a : Action} {k : ℕ} {α : Type}

theorem note_self (log : ℕ → CallLog) (n : ℕ) (f : CallLog → CallLog) :
    note log n f n = f (log n) := Function.update_self ..

theorem note_of_ne {log : ℕ → CallLog} {n : ℕ} (f : CallLog → CallLog) (h : k ≠ n) :
    note log n f k = log k := Function.update_of_ne h ..

/-- A field of the log that `f` does not touch. -/
theorem note_field {log : ℕ → CallLog} {n : ℕ} {f : CallLog → CallLog} (field : CallLog → α)
    (h : ∀ l, field (f l) = field l) : field (note log n f k) = field (log k) := by
  by_cases hk : k = n
  · rw [hk, note_self, h]
  · rw [note_of_ne f hk]

/-- The threads and the calls of the client have numbers of calls that were made. -/
structure Numbered (s : System) : Prop where
  natives : ∀ t ∈ s.natives, t.call < s.calls
  client : ∀ frame ∈ s.client, frame.call < s.calls

/-- What stands in the log of a call that was made. -/
def System.soFar (s : System) (field : CallLog → List α) (k : ℕ) : List α :=
  if k < s.calls then field (s.log k) else []

theorem System.reply_calls (r : Reply) : (s.reply r).calls = s.calls := by
  unfold System.reply
  split <;> rfl

theorem System.reply_field (r : Reply) (field : CallLog → α)
    (h : ∀ l replies, field { l with replies := replies } = field l) :
    field ((s.reply r).log k) = field (s.log k) := by
  unfold System.reply
  split
  · rfl
  · exact note_field field fun l => h l _

/-- The server thread changes no more of the log than the replies, and makes no calls. -/
theorem System.serverAction_log (hs : s.serverAction = some s') :
    s'.calls = s.calls ∧ (s'.log = s.log ∨ ∃ r, s' = s.reply r) := by
  have hsame : ∀ t : System, some t = some s' → t.calls = s.calls → t.log = s.log →
      s'.calls = s.calls ∧ (s'.log = s.log ∨ ∃ r, s' = s.reply r) := by
    intro t ht hcalls hlog
    obtain rfl := Option.some.inj ht
    exact ⟨hcalls, Or.inl hlog⟩
  have hreply : ∀ r, some (s.reply r) = some s' →
      s'.calls = s.calls ∧ (s'.log = s.log ∨ ∃ r, s' = s.reply r) := by
    intro r hr
    obtain rfl := Option.some.inj hr
    exact ⟨System.reply_calls r, Or.inr ⟨r, rfl⟩⟩
  unfold System.serverAction at hs
  split at hs
  case h_1 => cases hs
  case h_5 =>
    split at hs
    · exact hsame _ hs rfl rfl
    · exact hreply _ hs
  case h_9 =>
    split at hs
    · exact hreply _ hs
    · exact hsame _ hs rfl rfl
  case h_11 =>
    split at hs
    · cases hs
    · exact hsame _ hs rfl rfl
  case h_12 =>
    split at hs
    · exact hsame _ hs rfl rfl
    · exact hsame _ hs rfl rfl
    · exact hreply _ hs
    · exact hreply _ hs
  case h_13 => exact hreply _ hs
  case h_14 => exact hreply _ hs
  case h_18 => exact hreply _ hs
  all_goals exact hsame _ hs rfl rfl

/-- A native thread notes the request that it stores, makes no calls and sends nothing back. -/
theorem System.nativeAction_log {i : ℕ} {request : Option JniCall}
    (hs : s.nativeAction i request = some s') :
    s'.calls = s.calls ∧ (s'.log k).invoke = (s.log k).invoke ∧
      (s'.log k).requests = (s.log k).requests ++ s.requestBy k (.native i request) ∧
      (s'.log k).replies = (s.log k).replies ∧ (s'.log k).callbacks = (s.log k).callbacks := by
  unfold System.nativeAction at hs
  cases ht : s.natives[i]? with
  | none =>
      rw [ht] at hs
      cases hs
  | some t =>
      obtain ⟨call, pc⟩ := t
      rw [ht] at hs
      have hother : pc ≠ .running → s.requestBy k (.native i request) = [] := by
        intro hpc
        cases request with
        | none => rfl
        | some r => cases pc <;> simp_all [System.requestBy]
      have hsame : ∀ s₁ : System, some s₁ = some s' → s₁.calls = s.calls → s₁.log = s.log →
          pc ≠ .running → s'.calls = s.calls ∧ (s'.log k).invoke = (s.log k).invoke ∧
            (s'.log k).requests = (s.log k).requests ++ s.requestBy k (.native i request) ∧
            (s'.log k).replies = (s.log k).replies ∧
            (s'.log k).callbacks = (s.log k).callbacks := by
        intro s₁ h hcalls hlog hpc
        obtain rfl := Option.some.inj h
        rw [hlog, hother hpc, List.append_nil]
        exact ⟨hcalls, rfl, rfl, rfl, rfl⟩
      cases pc with
      | running =>
          cases request with
          | none =>
              obtain rfl := Option.some.inj hs
              exact ⟨rfl, rfl, (List.append_nil _).symm, rfl, rfl⟩
          | some r =>
              obtain rfl := Option.some.inj hs
              refine ⟨rfl, note_field (·.invoke) fun _ => rfl, ?_,
                note_field (·.replies) fun _ => rfl, note_field (·.callbacks) fun _ => rfl⟩
              by_cases hk : k = call
              · subst hk
                simp [System.requestBy, ht, note_self]
              · simp [System.requestBy, ht, note_of_ne _ hk, Ne.symm hk]
      | start =>
          obtain rfl := Option.some.inj hs
          rw [hother (by simp), List.append_nil]
          exact ⟨rfl, note_field (·.invoke) fun _ => rfl, note_field (·.requests) fun _ => rfl,
            note_field (·.replies) fun _ => rfl, note_field (·.callbacks) fun _ => rfl⟩
      | resume =>
          obtain rfl := Option.some.inj hs
          rw [hother (by simp), List.append_nil]
          exact ⟨rfl, note_field (·.invoke) fun _ => rfl, note_field (·.requests) fun _ => rfl,
            note_field (·.replies) fun _ => rfl, note_field (·.callbacks) fun _ => rfl⟩
      | waitJni =>
          simp only at hs
          split at hs
          · cases hs
          · exact hsame _ hs rfl rfl (by simp)
      | _ => exact hsame _ hs rfl rfl (by simp)

theorem System.taintCall_eq {invoke : PlatformInvoke}
    (hs : s.action (.taintCall invoke) = some s') :
    s' = { s with
      client := ⟨s.calls, none⟩ :: s.client
      server := .setInvoke s.calls invoke
      calls := s.calls + 1
      log := Function.update s.log s.calls ⟨invoke, [], [], [], [], []⟩ } := by
  simp only [System.action] at hs
  split at hs <;> cases hs <;> rfl

theorem System.callback_eq {datasize : ℕ} {rawdata : Mem}
    (hs : s.action (.callback datasize rawdata) = some s') :
    ∃ call function rest, s.client = ⟨call, some function⟩ :: rest ∧
      s' = { s with
        client := ⟨call, none⟩ :: rest
        server := .compare function datasize rawdata
        log := note s.log call fun l =>
          { l with callbacks := l.callbacks ++ [(datasize, rawdata)] } } := by
  simp only [System.action] at hs
  split at hs
  · next call function rest hclient =>
      obtain rfl := Option.some.inj hs
      exact ⟨call, function, rest, hclient, rfl⟩
  · cases hs

/-- What an action adds to the log of a call that was made. -/
theorem System.action_log (hs : s.action a = some s') (hk : k < s.calls) :
    (s'.log k).invoke = (s.log k).invoke ∧
      (s'.log k).requests = (s.log k).requests ++ s.requestBy k a ∧
      (s'.log k).callbacks = (s.log k).callbacks ++ s.callbackBy k a := by
  cases a with
  | taintCall invoke =>
      have hlog : s'.log k = s.log k := by
        rw [System.taintCall_eq hs]
        exact Function.update_of_ne hk.ne ..
      rw [hlog]
      exact ⟨rfl, (List.append_nil _).symm, (List.append_nil _).symm⟩
  | callback datasize rawdata =>
      obtain ⟨call, function, rest, hclient, rfl⟩ := System.callback_eq hs
      refine ⟨note_field (·.invoke) fun _ => rfl, ?_, ?_⟩
      · change _ = _ ++ []
        rw [List.append_nil]
        exact note_field (·.requests) fun _ => rfl
      · by_cases hkc : k = call
        · subst hkc
          simp [System.callbackBy, hclient, note_self]
        · simp [System.callbackBy, hclient, note_of_ne _ hkc, Ne.symm hkc]
  | server =>
      have hlog := (System.serverAction_log hs).2
      have hfield : ∀ field : CallLog → List JniCall ⊕ List (ℕ × Mem) ⊕ PlatformInvoke,
          (∀ l replies, field { l with replies := replies } = field l) →
          field (s'.log k) = field (s.log k) := by
        intro field h
        rcases hlog with hlog | ⟨r, rfl⟩
        · rw [hlog]
        · exact System.reply_field r field h
      refine ⟨?_, ?_, ?_⟩
      · simpa using hfield (fun l => .inr (.inr l.invoke)) fun _ _ => rfl
      · simpa [System.requestBy] using hfield (fun l => .inl l.requests) fun _ _ => rfl
      · simpa [System.callbackBy] using hfield (fun l => .inr (.inl l.callbacks)) fun _ _ => rfl
  | native i request =>
      obtain ⟨-, hinvoke, hrequests, -, hcallbacks⟩ := System.nativeAction_log (k := k) hs
      refine ⟨hinvoke, hrequests, ?_⟩
      rw [hcallbacks]
      exact (List.append_nil _).symm

/-- The calls that an action makes. -/
theorem System.action_calls (hs : s.action a = some s') :
    s'.calls = s.calls + (callsOf [a]).length ∧
      ∀ invoke, a = .taintCall invoke → s'.log s.calls = ⟨invoke, [], [], [], [], []⟩ := by
  cases a with
  | taintCall invoke =>
      rw [System.taintCall_eq hs]
      refine ⟨rfl, fun invoke' h => ?_⟩
      cases h
      exact Function.update_self ..
  | callback datasize rawdata =>
      obtain ⟨call, function, rest, -, rfl⟩ := System.callback_eq hs
      exact ⟨rfl, nofun⟩
  | server => exact ⟨(System.serverAction_log hs).1, nofun⟩
  | native i request => exact ⟨(System.nativeAction_log (k := 0) hs).1, nofun⟩

/-- Where the numbers are in order, what stands in the log of a call grows by what the action
adds, from the beginning on. -/
theorem Numbered.soFar_action (h : Numbered s) (hs : s.action a = some s') (k : ℕ) :
    s'.soFar (·.requests) k = s.soFar (·.requests) k ++ s.requestBy k a ∧
      s'.soFar (·.callbacks) k = s.soFar (·.callbacks) k ++ s.callbackBy k a := by
  obtain ⟨hcalls, hnew⟩ := System.action_calls hs
  by_cases hk : k < s.calls
  · obtain ⟨-, hrequests, hcallbacks⟩ := System.action_log hs hk
    have hk' : k < s'.calls := by omega
    simp only [System.soFar, if_pos hk, if_pos hk', hrequests, hcallbacks, and_self]
  · -- a thread or a call of the client with this number does not exist
    have hrequest : s.requestBy k a = [] := by
      cases a with
      | native i request =>
          cases request with
          | none => rfl
          | some r =>
              cases ht : s.natives[i]? with
              | none => simp [System.requestBy, ht]
              | some t =>
                  have hlt := h.natives t (List.mem_of_getElem? ht)
                  obtain ⟨call, pc⟩ := t
                  have hne : call ≠ k := by
                    simp only at hlt
                    omega
                  cases pc <;> simp [System.requestBy, ht, hne]
      | _ => rfl
    have hcallback : s.callbackBy k a = [] := by
      cases a with
      | callback datasize rawdata =>
          obtain ⟨call, function, rest, hclient, -⟩ := System.callback_eq hs
          have hlt := h.client ⟨call, some function⟩ (by rw [hclient]; exact List.mem_cons_self)
          have hne : call ≠ k := by
            simp only at hlt
            omega
          simp [System.callbackBy, hclient, hne]
      | _ => rfl
    rw [hrequest, hcallback]
    simp only [System.soFar, if_neg hk, List.append_nil]
    by_cases hk' : k < s'.calls
    · cases a with
      | taintCall invoke =>
          have hkeq : k = s.calls := by
            have hone : s'.calls = s.calls + 1 := hcalls
            omega
          rw [if_pos hk', if_pos hk', hkeq, hnew invoke rfl]
          exact ⟨rfl, rfl⟩
      | _ =>
          have hzero : s'.calls = s.calls := hcalls
          omega
    · rw [if_neg hk', if_neg hk']
      exact ⟨rfl, rfl⟩

/-- The arguments of all calls that were made. -/
def System.invokes (s : System) : List PlatformInvoke :=
  (List.range s.calls).map fun k => (s.log k).invoke

theorem System.invokes_action (hs : s.action a = some s') :
    s'.invokes = s.invokes ++ callsOf [a] := by
  obtain ⟨hcalls, hnew⟩ := System.action_calls hs
  have hold : (List.range s.calls).map (fun k => (s'.log k).invoke) = s.invokes := by
    refine List.map_congr_left fun k hk => ?_
    exact (System.action_log hs (List.mem_range.mp hk)).1
  unfold System.invokes
  cases a with
  | taintCall invoke =>
      have hone : s'.calls = s.calls + 1 := hcalls
      rw [hone, List.range_succ, List.map_append, hold, List.map_singleton, hnew invoke rfl]
      rfl
  | _ =>
      have hzero : s'.calls = s.calls := hcalls
      rw [hzero, hold]
      exact (List.append_nil _).symm

end Accounts

end SystemExtras.Wrapper
