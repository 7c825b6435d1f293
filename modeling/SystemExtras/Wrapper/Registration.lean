import SystemExtras.Lib.Records
import SystemExtras.Wrapper.Results

/-!
# Registration of native methods

`RegisterNatives` sends a class and a list of methods.  Each method is a record of two
strings, with their lengths in front of them, and a function pointer, so records start at
any address.  One loop adds up the size of the message, a second one writes the records and
a third one, in the client, takes them apart and registers them one by one.

`registersFaithfully` is about the three together: the writer fills the bytes that were
counted, and the reader registers the methods that were sent.
-/

namespace SystemExtras.Wrapper

/-- `JNINativeMethod`. -/
@[ext] structure NativeMethod where
  name : CString
  signature : CString
  fnPtr : UInt32
  deriving DecidableEq

/-! ## The stub -/

/-- The first loop of `RegisterNatives`. -/
def registerSize (methods : List NativeMethod) : ℕ :=
  4 + 4 + methods.length * (2 * 4 + 4) +
    (methods.map fun m => m.name.strlen + m.signature.strlen + 2).sum

/-- The second loop of `RegisterNatives`, `d2` being where the next record goes. -/
def copyMethods : List NativeMethod → Mem → ℕ → Mem
  | [], data, _ => data
  | m :: methods, data, d2 =>
      let j := m.name.strlen + 1
      let data := data.store d2 4 j
      let d2 := d2 + 4
      let data := data.storeBytes d2 m.name.stored
      let d2 := d2 + j
      let j := m.signature.strlen + 1
      let data := data.store d2 4 j
      let d2 := d2 + 4
      let data := data.storeBytes d2 m.signature.stored
      let d2 := d2 + j
      let data := data.store d2 4 m.fnPtr.toNat
      copyMethods methods data (d2 + 4)

/-- `RegisterNatives`, up to the request.  `heap` is what `malloc` found in the memory it
returns. -/
def registerNatives (heap : Mem) (jclazz : ℕ) (methods : List NativeMethod) : Option JniCall :=
  let size := registerSize methods
  -- `size` is an `int`
  if 2 ^ 31 ≤ size then none
  else
    let data := setWord heap 0 jclazz
    let data := setWord data 1 methods.length
    some ⟨145, size, 0, copyMethods methods data 8⟩

/-! ## The handler -/

/-- A word of a message of `length` bytes; none if it does not lie inside. -/
def messageWord (length : ℕ) (replydata : Mem) (r2 : ℕ) : Option ℕ :=
  if r2 + 4 ≤ length then some (replydata.load r2 4) else none

/-- A string of a message of `length` bytes; none if its end does not lie inside. -/
def messageString (length : ℕ) (replydata : Mem) (r2 : ℕ) : Option CString :=
  replydata.cstring (length - r2) r2

/-- What the handler does: the methods that it registers, and its result. -/
structure Registrations where
  methods : List NativeMethod
  result : ℤ
  deriving DecidableEq

/-- The loop of `callRegisterNatives`, `n` being the number of methods still to come.
`registerTaintedNatives` answers for the last of the methods registered so far. -/
def registerLoop (registerTaintedNatives : List NativeMethod → ℤ) (length : ℕ) (replydata : Mem) :
    ℕ → ℕ → Registrations → Option Registrations
  | 0, _, done => some done
  | n + 1, r2, done => do
      let j ← messageWord length replydata r2
      let r2 := r2 + 4
      let name ← messageString length replydata r2
      let r2 := r2 + j
      let j ← messageWord length replydata r2
      let r2 := r2 + 4
      let signature ← messageString length replydata r2
      let r2 := r2 + j
      let code ← messageWord length replydata r2
      let methods := done.methods ++ [⟨name, signature, UInt32.ofNat code⟩]
      let result := if registerTaintedNatives methods = -1 then -1 else done.result
      registerLoop registerTaintedNatives length replydata n (r2 + 4) ⟨methods, result⟩

/-- `callRegisterNatives`; it gives the class and what is registered for it. -/
def callRegisterNatives (registerTaintedNatives : ℕ → List NativeMethod → ℤ) (length : ℕ)
    (replydata : Mem) : Option (ℕ × Registrations) := do
  let jclazz ← messageWord length replydata 0
  let nMethods ← messageWord length replydata 4
  let done ← registerLoop (registerTaintedNatives jclazz) length replydata (s32 nMethods).toNat 8
    ⟨[], 0⟩
  some (jclazz, done)

/-- The result on its way back to the stub, which returns it as an `int`. -/
def registerReturned (heap behind : Mem) (result : ℤ) : ℤ :=
  s32 (((copyResult .int heap (toU32 result) 0).received behind).load 0 4)

/-! ## The records -/

/-- The bytes of a method in a message. -/
def NativeMethod.record (m : NativeMethod) : List UInt8 :=
  leBytes 4 (m.name.strlen + 1) ++ (m.name.stored ++ (leBytes 4 (m.signature.strlen + 1) ++
    (m.signature.stored ++ leBytes 4 m.fnPtr.toNat)))

/-- The bytes of a message. -/
def registerMessage (jclazz : ℕ) (methods : List NativeMethod) : List UInt8 :=
  leBytes 4 jclazz ++ leBytes 4 methods.length ++ methods.flatMap NativeMethod.record

theorem NativeMethod.length_record (m : NativeMethod) :
    m.record.length = 12 + (m.name.strlen + m.signature.strlen + 2) := by
  simp only [record, List.length_append, length_leBytes, CString.length_stored]
  omega

/-- The bytes that were counted are those of the records. -/
theorem length_registerMessage (jclazz : ℕ) (methods : List NativeMethod) :
    (registerMessage jclazz methods).length = registerSize methods := by
  have hrecords : (methods.flatMap NativeMethod.record).length =
      methods.length * 12 + (methods.map fun m => m.name.strlen + m.signature.strlen + 2).sum := by
    induction methods with
    | nil => rfl
    | cons m methods ih =>
        rw [List.flatMap_cons, List.length_append, ih, m.length_record, List.length_cons,
          List.map_cons, List.sum_cons]
        ring
  simp only [registerMessage, registerSize, List.length_append, length_leBytes, hrecords]
  omega

/-- The writer puts one record behind the other. -/
theorem copyMethods_eq (methods : List NativeMethod) (data : Mem) (d2 : ℕ) :
    copyMethods methods data d2 = data.storeBytes d2 (methods.flatMap NativeMethod.record) := by
  induction methods generalizing data d2 with
  | nil => rw [copyMethods, List.flatMap_nil, Mem.storeBytes_nil]
  | cons m methods ih =>
      have hrecord : ∀ data : Mem, data.storeBytes d2 m.record =
          ((((data.storeBytes d2 (leBytes 4 (m.name.strlen + 1))).storeBytes (d2 + 4)
            m.name.stored).storeBytes (d2 + 4 + (m.name.strlen + 1))
            (leBytes 4 (m.signature.strlen + 1))).storeBytes
            (d2 + 4 + (m.name.strlen + 1) + 4) m.signature.stored).storeBytes
            (d2 + 4 + (m.name.strlen + 1) + 4 + (m.signature.strlen + 1))
            (leBytes 4 m.fnPtr.toNat) := by
        intro data
        rw [NativeMethod.record, ← Mem.storeBytes_append, ← Mem.storeBytes_append,
          ← Mem.storeBytes_append, ← Mem.storeBytes_append]
        simp only [length_leBytes, CString.length_stored]
      rw [List.flatMap_cons, ← Mem.storeBytes_append, hrecord, m.length_record]
      simp only [copyMethods, ih, Mem.store_eq_storeBytes]
      congr 1
      omega

section Registration

variable {register : List NativeMethod → ℤ} {length a : ℕ} {data : Mem}
  {methods : List NativeMethod}

theorem messageWord_of_holds {v : ℕ} (h : data.Holds a (leBytes 4 v)) (hv : v < 2 ^ 32)
    (hin : a + 4 ≤ length) : messageWord length data a = some v := by
  rw [messageWord, if_pos hin, h.load, Nat.mod_eq_of_lt (show v < 256 ^ 4 from hv)]

theorem messageString_of_holds {s : CString} (h : data.Holds a s.stored)
    (hin : a + (s.strlen + 1) ≤ length) : messageString length data a = some s :=
  h.cstring (by omega)

/-- What the loop has done after the methods of the message. -/
def Registrations.after (register : List NativeMethod → ℤ) :
    List NativeMethod → Registrations → Registrations
  | [], done => done
  | m :: methods, done =>
      Registrations.after register methods ⟨done.methods ++ [m],
        if register (done.methods ++ [m]) = -1 then -1 else done.result⟩

/-- One round of the reader: it stays inside the record and registers its method. -/
theorem registerLoop_cons {m : NativeMethod} (n : ℕ) (done : Registrations)
    (h : data.Holds a m.record) (hin : a + m.record.length ≤ length) (hlength : length < 2 ^ 31) :
    registerLoop register length data (n + 1) a done =
      registerLoop register length data n (a + m.record.length) ⟨done.methods ++ [m],
        if register (done.methods ++ [m]) = -1 then -1 else done.result⟩ := by
  rw [m.length_record] at hin ⊢
  simp only [NativeMethod.record, Mem.holds_append, length_leBytes, CString.length_stored] at h
  obtain ⟨hname, hname', hsig, hsig', hcode⟩ := h
  have hfn : m.fnPtr.toNat < 2 ^ 32 := m.fnPtr.toNat_lt
  rw [registerLoop, messageWord_of_holds hname (by omega) (by omega)]
  simp only [Option.bind_eq_bind, Option.bind_some]
  rw [messageString_of_holds hname' (by omega), Option.bind_some,
    messageWord_of_holds hsig (by omega) (by omega), Option.bind_some,
    messageString_of_holds hsig' (by omega), Option.bind_some,
    messageWord_of_holds hcode hfn (by omega), Option.bind_some, UInt32.ofNat_toNat]
  congr 1
  omega

/-- The reader registers the methods of the records, in order. -/
theorem registerLoop_eq (hlength : length < 2 ^ 31) (done : Registrations)
    (h : data.Holds a (methods.flatMap NativeMethod.record))
    (hin : a + (methods.flatMap NativeMethod.record).length ≤ length) :
    registerLoop register length data methods.length a done =
      some (Registrations.after register methods done) := by
  induction methods generalizing a done with
  | nil => rfl
  | cons m methods ih =>
      rw [List.flatMap_cons] at h hin
      rw [List.length_append] at hin
      obtain ⟨hrecord, hrest⟩ := Mem.holds_append.mp h
      rw [List.length_cons, registerLoop_cons _ done hrecord (by omega) hlength,
        ih _ hrest (by omega), Registrations.after]

theorem Registrations.after_methods (done : Registrations) :
    (Registrations.after register methods done).methods = done.methods ++ methods := by
  induction methods generalizing done with
  | nil => rw [after, List.append_nil]
  | cons m methods ih => rw [after, ih, List.append_assoc, List.singleton_append]

/-- The result tells whether one of the registrations has failed, or was `-1` before. -/
theorem Registrations.after_result (done : Registrations) :
    (Registrations.after register methods done).result =
      if ∃ k < methods.length, register (done.methods ++ methods.take (k + 1)) = -1 then -1
      else done.result := by
  induction methods generalizing done with
  | nil => rw [after, if_neg (by simp)]
  | cons m methods ih =>
      have hsplit : (∃ k < (m :: methods).length,
          register (done.methods ++ (m :: methods).take (k + 1)) = -1) ↔
          register (done.methods ++ [m]) = -1 ∨ ∃ k < methods.length,
            register ((done.methods ++ [m]) ++ methods.take (k + 1)) = -1 := by
        constructor
        · rintro ⟨k, hk, hfail⟩
          cases k with
          | zero => exact Or.inl hfail
          | succ k =>
              refine Or.inr ⟨k, by simpa using hk, ?_⟩
              rwa [List.append_assoc, List.singleton_append]
        · rintro (hfail | ⟨k, hk, hfail⟩)
          · exact ⟨0, by simp, hfail⟩
          · refine ⟨k + 1, by simpa using hk, ?_⟩
            rwa [List.append_assoc, List.singleton_append] at hfail
      rw [after, ih]
      by_cases hlater : ∃ k < methods.length,
          register ((done.methods ++ [m]) ++ methods.take (k + 1)) = -1
      · rw [if_pos hlater, if_pos (hsplit.mpr (Or.inr hlater))]
      · rw [if_neg hlater]
        by_cases hfail : register (done.methods ++ [m]) = -1
        · rw [if_pos hfail, if_pos (hsplit.mpr (Or.inl hfail))]
        · rw [if_neg hfail, if_neg fun h => (hsplit.mp h).elim hfail hlater]

/-! ## Methods that are registered as they were sent -/

/-- The message has the announced size and is written byte by byte, whatever memory it lies
in; the client reads inside of it and registers the methods for the class, in order; and the
stub returns `-1` if and only if a registration does. -/
def RegistersFaithfully (registerTaintedNatives : ℕ → List NativeMethod → ℤ) (jclazz : ℕ)
    (methods : List NativeMethod) : Prop :=
  ∃ message : List UInt8, ∀ heap behind : Mem, ∃ call done,
    registerNatives heap jclazz methods = some call ∧
    message.length = call.length ∧ call.paramData = heap.storeBytes 0 message ∧
    callRegisterNatives registerTaintedNatives call.length (replydata call behind) =
      some (jclazz, done) ∧
    done.methods = methods ∧
    ∀ heap' behind', registerReturned heap' behind' done.result = -1 ↔
      ∃ k < methods.length, registerTaintedNatives jclazz (methods.take (k + 1)) = -1

theorem registerReturned_eq (heap behind : Mem) {result : ℤ} (h : result = 0 ∨ result = -1) :
    registerReturned heap behind result = result := by
  have hload := (copyResult .int heap (toU32 result) 0).load_received behind
  have hvalue : ((copyResult .int heap (toU32 result) 0).received behind).load 0 4 =
      toU32 result % 256 ^ 4 := hload.trans (Mem.load_store_self heap 0 4 _)
  rw [registerReturned, hvalue]
  rcases h with rfl | rfl <;> decide

/-- The message lies where the records say. -/
theorem registerNatives_eq (heap : Mem) {jclazz : ℕ} (hsize : registerSize methods < 2 ^ 31) :
    registerNatives heap jclazz methods = some ⟨145, registerSize methods, 0,
      heap.storeBytes 0 (registerMessage jclazz methods)⟩ := by
  rw [registerNatives, if_neg (by omega)]
  simp only [copyMethods_eq, setWord, Mem.store_eq_storeBytes]
  rw [registerMessage, ← Mem.storeBytes_append, ← Mem.storeBytes_append]
  simp only [List.length_append, length_leBytes]

/-- **Native methods are registered as they were sent.** -/
theorem registersFaithfully (registerTaintedNatives : ℕ → List NativeMethod → ℤ) {jclazz : ℕ}
    (hclass : jclazz < 2 ^ 32) (hsize : registerSize methods < 2 ^ 31) :
    RegistersFaithfully registerTaintedNatives jclazz methods := by
  have hlen := length_registerMessage jclazz methods
  refine ⟨registerMessage jclazz methods, fun heap behind => ?_⟩
  have hcall := @registerNatives_eq methods heap jclazz hsize
  generalize hsent : (⟨145, registerSize methods, 0,
    heap.storeBytes 0 (registerMessage jclazz methods)⟩ : JniCall) = call at hcall
  have hlength : call.length = registerSize methods := by rw [← hsent]
  have hdata : call.paramData = heap.storeBytes 0 (registerMessage jclazz methods) := by
    rw [← hsent]
  refine ⟨call, Registrations.after (registerTaintedNatives jclazz) methods ⟨[], 0⟩, hcall,
    hlen.trans hlength.symm, hdata, ?_, ?_, ?_⟩
  · have hholds : (replydata call behind).Holds 0 (registerMessage jclazz methods) := by
      refine (Mem.holds_storeBytes heap 0 _).congr fun i hi => ?_
      rw [← hdata]
      exact if_pos (by omega)
    simp only [registerMessage, Mem.holds_append, length_leBytes, List.length_append] at hholds hlen
    obtain ⟨⟨hword, hcount⟩, hrecords⟩ := hholds
    have hn : methods.length < 2 ^ 31 := by
      unfold registerSize at hsize
      omega
    rw [callRegisterNatives, messageWord_of_holds hword hclass (by omega)]
    simp only [Option.bind_eq_bind, Option.bind_some]
    rw [messageWord_of_holds hcount (by omega) (by omega), Option.bind_some, s32_of_lt hn,
      Int.toNat_natCast, registerLoop_eq (by omega) _ hrecords (by omega), Option.bind_some]
  · exact Registrations.after_methods _
  · intro heap' behind'
    rw [Registrations.after_result]
    simp only [List.nil_append]
    by_cases hfail : ∃ k < methods.length,
        registerTaintedNatives jclazz (methods.take (k + 1)) = -1
    · rw [if_pos hfail, registerReturned_eq _ _ (Or.inr rfl)]
      exact ⟨fun _ => hfail, fun _ => rfl⟩
    · rw [if_neg hfail, registerReturned_eq _ _ (Or.inl rfl)]
      exact ⟨fun h => absurd h (by decide), fun h => absurd h hfail⟩

/-- Two methods, of which the virtual machine refuses the second. -/
theorem registersFaithfully_two :
    RegistersFaithfully (fun _ done => if done.length = 2 then -1 else 0) 0x40000011
      [⟨⟨[105, 110, 105, 116], by decide⟩, ⟨[40, 41, 86], by decide⟩, 0x8001⟩,
        ⟨⟨[114, 117, 110], by decide⟩, ⟨[40, 73, 41, 86], by decide⟩, 0x8101⟩] :=
  registersFaithfully _ (by decide) (by decide)

end Registration

end SystemExtras.Wrapper
