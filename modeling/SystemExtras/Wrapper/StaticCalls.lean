import SystemExtras.Wrapper.Marshal

/-!
# Marshalling of calls of static methods

`CallStatic<Type>Method` packs a call as `Call<Type>Method` does: the class, the method,
the size of the parameters, and a `jvalue` for each parameter.  `CALL_COPY_STATIC` does
not count the word for the size, so the message that it allocates and sends is four bytes
short.

The stub writes past the end of its buffer, whatever the method is
(`not_staticRoundTrips`), and the client finds the last four bytes of the last `jvalue`
in the memory behind the message (`staticDecodes_iff`).
-/

namespace SystemExtras.Wrapper

/-! ## The stubs -/

/-- What the stubs have in common: `CALL_COPY_STATIC` makes room for the message and
writes its head, `copyParams` writes the parameters. -/
def callStaticMethod (function : ℕ) (copyParams : List Char → ℕ → Mem → Option Mem)
    (sigList : SigList) (heap : Mem) (jc methodID : ℕ) : Option JniCall := do
  let n ← getNumParams sigList methodID
  let sig ← getSignatureForMethod sigList methodID
  -- without `sizeof(paramSize)`
  let size := 8 + 8 * n
  if 2 ^ 31 ≤ size then none
  else do
    let data := setWord heap 0 jc
    let data := setWord data 1 methodID
    let data := setWord data 2 (8 * n)
    let data ← copyParams sig n data
    some ⟨function, size, size, data⟩

/-- The stubs that take the arguments one by one. -/
def callStaticMethodV (function : ℕ) (args : List ℕ) :=
  callStaticMethod function fun sig _ data => paramsFromArgs sig args data 12

/-- The stubs that take an array of arguments. -/
def callStaticMethodA (function : ℕ) (args : List ℕ) :=
  callStaticMethod function fun _ n data =>
    if args.length < n then none else some (data.blit 12 (8 * n) (jvalueArray args) 0)

def callStaticVoidMethod := callStaticMethodV 52
def callStaticVoidMethodV := callStaticMethodV 52
def callStaticVoidMethodA := callStaticMethodA 52
def callStaticObjectMethod := callStaticMethodV 88
def callStaticObjectMethodV := callStaticMethodV 88
def callStaticObjectMethodA := callStaticMethodA 88
def callStaticBooleanMethod := callStaticMethodV 87
def callStaticBooleanMethodV := callStaticMethodV 87
def callStaticBooleanMethodA := callStaticMethodA 87
def callStaticByteMethod := callStaticMethodV 86
def callStaticByteMethodV := callStaticMethodV 86
def callStaticByteMethodA := callStaticMethodA 86
def callStaticCharMethod := callStaticMethodV 85
def callStaticCharMethodV := callStaticMethodV 85
def callStaticCharMethodA := callStaticMethodA 85
def callStaticShortMethod := callStaticMethodV 51
def callStaticShortMethodV := callStaticMethodV 51
def callStaticShortMethodA := callStaticMethodA 51
def callStaticIntMethod := callStaticMethodV 89
def callStaticIntMethodV := callStaticMethodV 89
def callStaticIntMethodA := callStaticMethodA 89
def callStaticLongMethod := callStaticMethodV 90
def callStaticLongMethodV := callStaticMethodV 90
def callStaticLongMethodA := callStaticMethodA 90
def callStaticFloatMethod := callStaticMethodV 91
def callStaticFloatMethodV := callStaticMethodV 91
def callStaticFloatMethodA := callStaticMethodA 91
-- the handler for doubles has the code 92
def callStaticDoubleMethod := callStaticMethodV 91
def callStaticDoubleMethodV := callStaticMethodV 91
def callStaticDoubleMethodA := callStaticMethodA 91

/-- The stub of a return type and a form. -/
def staticStub : RetType → Form → List ℕ → SigList → Mem → ℕ → ℕ → Option JniCall
  | .object, .variadic => callStaticObjectMethod
  | .object, .vaList => callStaticObjectMethodV
  | .object, .array => callStaticObjectMethodA
  | .boolean, .variadic => callStaticBooleanMethod
  | .boolean, .vaList => callStaticBooleanMethodV
  | .boolean, .array => callStaticBooleanMethodA
  | .byte, .variadic => callStaticByteMethod
  | .byte, .vaList => callStaticByteMethodV
  | .byte, .array => callStaticByteMethodA
  | .char, .variadic => callStaticCharMethod
  | .char, .vaList => callStaticCharMethodV
  | .char, .array => callStaticCharMethodA
  | .short, .variadic => callStaticShortMethod
  | .short, .vaList => callStaticShortMethodV
  | .short, .array => callStaticShortMethodA
  | .int, .variadic => callStaticIntMethod
  | .int, .vaList => callStaticIntMethodV
  | .int, .array => callStaticIntMethodA
  | .long, .variadic => callStaticLongMethod
  | .long, .vaList => callStaticLongMethodV
  | .long, .array => callStaticLongMethodA
  | .float, .variadic => callStaticFloatMethod
  | .float, .vaList => callStaticFloatMethodV
  | .float, .array => callStaticFloatMethodA
  | .double, .variadic => callStaticDoubleMethod
  | .double, .vaList => callStaticDoubleMethodV
  | .double, .array => callStaticDoubleMethodA
  | .void, .variadic => callStaticVoidMethod
  | .void, .vaList => callStaticVoidMethodV
  | .void, .array => callStaticVoidMethodA

/-! ## The handlers -/

/-- The call that a handler makes: the `CallStatic<Type>TaintedMethodA` of a return type,
with a class, a method and the values of a `jvalue` array. -/
structure StaticCall where
  ret : RetType
  jc : ℕ
  methodID : ℕ
  args : List ℕ
  deriving DecidableEq, Repr

/-- `UNPACK_CALLSTATICMETHOD`, for a method with `n` parameters. -/
def unpackCallStaticMethod (ret : RetType) (n : ℕ) (idata : Mem) : StaticCall :=
  ⟨ret, word idata 0, word idata 1, (List.range n).map fun i => idata.load (12 + 8 * i) 8⟩

def callCallStaticVoidMethodA := unpackCallStaticMethod .void
def callCallStaticObjectMethodA := unpackCallStaticMethod .object
def callCallStaticBooleanMethodA := unpackCallStaticMethod .boolean
def callCallStaticByteMethodA := unpackCallStaticMethod .byte
def callCallStaticCharMethodA := unpackCallStaticMethod .char
def callCallStaticShortMethodA := unpackCallStaticMethod .short
def callCallStaticIntMethodA := unpackCallStaticMethod .int
def callCallStaticLongMethodA := unpackCallStaticMethod .long
def callCallStaticFloatMethodA := unpackCallStaticMethod .float
def callCallStaticDoubleMethodA := unpackCallStaticMethod .double

/-- The cases of `handleJNIRequest` that call static methods. -/
def staticHandler (function : ℕ) : Option (ℕ → Mem → StaticCall) :=
  match function with
  | 51 => some callCallStaticShortMethodA
  | 52 => some callCallStaticVoidMethodA
  | 85 => some callCallStaticCharMethodA
  | 86 => some callCallStaticByteMethodA
  | 87 => some callCallStaticBooleanMethodA
  | 88 => some callCallStaticObjectMethodA
  | 89 => some callCallStaticIntMethodA
  | 90 => some callCallStaticLongMethodA
  | 91 => some callCallStaticFloatMethodA
  | 92 => some callCallStaticDoubleMethodA
  | _ => none

/-- The return type for which the handler of a stub calls. -/
def RetType.served : RetType → RetType
  | .double => .float
  | ret => ret

/-- Every stub is one of the two kinds, and its function code selects the handler of its return type,
but for doubles. -/
theorem staticStub_eq (ret : RetType) (form : Form) : ∃ function,
    staticStub ret form =
        (if form = .array then callStaticMethodA function else callStaticMethodV function) ∧
      staticHandler function = some (unpackCallStaticMethod ret.served) := by
  cases ret with
  | object => cases form <;> exact ⟨88, rfl, rfl⟩
  | boolean => cases form <;> exact ⟨87, rfl, rfl⟩
  | byte => cases form <;> exact ⟨86, rfl, rfl⟩
  | char => cases form <;> exact ⟨85, rfl, rfl⟩
  | short => cases form <;> exact ⟨51, rfl, rfl⟩
  | int => cases form <;> exact ⟨89, rfl, rfl⟩
  | long => cases form <;> exact ⟨90, rfl, rfl⟩
  | float => cases form <;> exact ⟨91, rfl, rfl⟩
  | double => cases form <;> exact ⟨91, rfl, rfl⟩
  | void => cases form <;> exact ⟨52, rfl, rfl⟩

/-! ## The message -/

section Static

variable {ret : RetType} {form : Form} {sigList : SigList} {jc methodID : ℕ}
  {params : List Param} {args : List ℕ} {rest : List Char}

/-- The length of the message fits an `int`. -/
def StaticFits (n : ℕ) : Prop := 8 + 8 * n < 2 ^ 31

/-- A stub whose `copyParams` writes the `jvalue`s makes a message that holds the call, and
sends the first `8 + 8 * n` bytes of it. -/
theorem callStaticMethod_holds {function : ℕ} {copyParams : List Char → ℕ → Mem → Option Mem}
    (hsig : getSignatureForMethod sigList methodID = some (signature params rest))
    (hlen : args.length = params.length)
    (hcopy : ∀ data, ∃ data', copyParams (signature params rest) params.length data = some data' ∧
      (∀ i < args.length, data'.load (12 + 8 * i) 8 = args.getD i 0) ∧ data'.SameOn data 0 12)
    (hjc : jc < 2 ^ 32) (hmethod : methodID < 2 ^ 32) (heap : Mem) :
    (StaticFits params.length → ∃ data,
      callStaticMethod function copyParams sigList heap jc methodID =
          some ⟨function, 8 + 8 * params.length, 8 + 8 * params.length, data⟩ ∧
        HoldsCall data jc methodID args) ∧
    (¬ StaticFits params.length →
      callStaticMethod function copyParams sigList heap jc methodID = none) := by
  have hnum := getNumParams_signature hsig
  unfold StaticFits
  constructor
  · intro hfits
    obtain ⟨data, hdata, hargs, hsame⟩ :=
      hcopy (setWord (setWord (setWord heap 0 jc) 1 methodID) 2 (8 * params.length))
    refine ⟨data, ?_, holdsCall_of_copy hjc hmethod (by omega) hargs (hlen ▸ hsame)⟩
    unfold callStaticMethod
    simp only [hnum, hsig, Option.bind_eq_bind, Option.bind_some]
    rw [if_neg (by omega), hdata]
    rfl
  · intro hfits
    unfold callStaticMethod
    simp only [hnum, hsig, Option.bind_eq_bind, Option.bind_some]
    rw [if_pos (by omega)]

theorem staticStub_holds {function : ℕ}
    (hstub : staticStub ret form =
      (if form = .array then callStaticMethodA function else callStaticMethodV function))
    (hsig : getSignatureForMethod sigList methodID = some (signature params rest))
    (hargs : ArgsFor form params args) (hjc : jc < 2 ^ 32) (hmethod : methodID < 2 ^ 32)
    (heap : Mem) :
    (StaticFits params.length → ∃ data,
      staticStub ret form args sigList heap jc methodID =
          some ⟨function, 8 + 8 * params.length, 8 + 8 * params.length, data⟩ ∧
        HoldsCall data jc methodID args) ∧
    (¬ StaticFits params.length →
      staticStub ret form args sigList heap jc methodID = none) := by
  rw [hstub]
  by_cases hform : form = .array
  · subst hform
    rw [if_pos rfl]
    refine callStaticMethod_holds hsig hargs.length (fun data => ?_) hjc hmethod heap
    obtain ⟨hvals, hsame⟩ := blit_jvalueArray hargs data
    exact ⟨_, if_neg (by rw [hargs.length]; exact lt_irrefl _), hvals, hsame⟩
  · rw [if_neg hform]
    exact callStaticMethod_holds hsig hargs.length (paramsFromArgs_holds hargs hform) hjc hmethod
      heap

/-- The upper word of the last `jvalue`, or the size of the parameters where there are none, lies
behind the bytes that are sent. -/
theorem HoldsCall.load_tail {data : Mem} (h : HoldsCall data jc methodID args) :
    data.load (8 + 8 * args.length) 4 = args.getLastD 0 / 2 ^ 32 := by
  rcases List.eq_nil_or_concat' args with rfl | ⟨front, a, rfl⟩
  · exact h.paramSize
  · have hlast := h.args front.length (by simp)
    have hlow := data.load_lt (12 + 8 * front.length) 4
    rw [load_halves, List.getD_append_right _ _ _ _ le_rfl, Nat.sub_self,
      show 12 + 8 * front.length + 4 = 8 + 8 * (front.length + 1) by omega] at hlast
    have ha : a = data.load (12 + 8 * front.length) 4 +
      2 ^ 32 * data.load (8 + 8 * (front.length + 1)) 4 := hlast.symm
    rw [List.length_append, List.length_singleton, List.getLastD_concat]
    omega

/-! ## Calls that keep their arguments -/

/-- The handler that the stub's function code selects gets the class, the method and the
`jvalue`s of the call, whatever memory the buffers lie in, and the stub leaves the memory
behind its buffer alone. -/
def StaticRoundTrips (ret : RetType) (form : Form) (sigList : SigList) (jc methodID : ℕ)
    (args : List ℕ) : Prop :=
  ∀ heap behind, ∃ call handler, staticStub ret form args sigList heap jc methodID = some call ∧
    staticHandler call.function = some handler ∧
    (handler args.length (replydata call behind)).jc = jc ∧
    (handler args.length (replydata call behind)).methodID = methodID ∧
    (handler args.length (replydata call behind)).args = args ∧
    ∀ x, call.length ≤ x → call.paramData x = heap x

/-- **No static call is marshalled without loss.**  Whatever the method and the arguments
are, the stub writes a word behind the bytes that it allocated. -/
theorem not_staticRoundTrips
    (hsig : getSignatureForMethod sigList methodID = some (signature params rest))
    (hargs : ArgsFor form params args) (hjc : jc < 2 ^ 32) (hmethod : methodID < 2 ^ 32) :
    ¬ StaticRoundTrips ret form sigList jc methodID args := by
  intro h
  obtain ⟨function, hstub, -⟩ := staticStub_eq ret form
  have hholds := staticStub_holds hstub hsig hargs hjc hmethod
  -- the word has the same value in every memory, and was there before in all of them
  have hword : ∀ heap : Mem,
      heap.load (8 + 8 * args.length) 4 = args.getLastD 0 / 2 ^ 32 := by
    intro heap
    obtain ⟨call, _, hcall, -, -, -, -, hinside⟩ := h heap Mem.zero
    by_cases hfits : StaticFits params.length
    · obtain ⟨data, hdata, hmessage⟩ := (hholds heap).1 hfits
      obtain rfl := Option.some.inj (hcall.symm.trans hdata)
      rw [← hmessage.load_tail]
      refine Mem.load_congr fun i _ => (hinside _ ?_).symm
      simp only [hargs.length]
      omega
    · rw [(hholds heap).2 hfits] at hcall
      cases hcall
  have hzero : Mem.zero.load (8 + 8 * args.length) 4 = 0 := by simp [Mem.load, Mem.zero]
  have hones : Mem.load (fun _ => 255) (8 + 8 * args.length) 4 = 2 ^ 32 - 1 := by simp [Mem.load]
  have := (hword Mem.zero).symm.trans hzero
  have := (hword fun _ => 255).symm.trans hones
  omega

/-- What the client decodes: the upper word of the last `jvalue` is what happens to lie
behind the message. -/
theorem staticDecodes_iff
    (hsig : getSignatureForMethod sigList methodID = some (signature params rest))
    (hargs : ArgsFor form params args) (hjc : jc < 2 ^ 32) (hmethod : methodID < 2 ^ 32)
    (hfits : StaticFits params.length) (heap behind : Mem) :
    ((staticStub ret form args sigList heap jc methodID).bind fun call =>
      (staticHandler call.function).map fun handler =>
        handler args.length (replydata call behind)) = some ⟨ret.served, jc, methodID, args⟩ ↔
      args = [] ∨ behind.load (8 + 8 * args.length) 4 = args.getLastD 0 / 2 ^ 32 := by
  obtain ⟨function, hstub, hhandler⟩ := staticStub_eq ret form
  obtain ⟨data, hcall, hmessage⟩ := (staticStub_holds hstub hsig hargs hjc hmethod heap).1 hfits
  have hlen := hargs.length
  generalize hsent :
    (⟨function, 8 + 8 * params.length, 8 + 8 * params.length, data⟩ : JniCall) = call
    at hcall
  have hlength : call.length = 8 + 8 * args.length := by rw [← hsent, hlen]
  have hdata : call.paramData = data := by rw [← hsent]
  have hfunction : call.function = function := by rw [← hsent]
  have hin : ∀ a n, a + n ≤ 8 + 8 * args.length →
      (replydata call behind).load a n = data.load a n := by
    intro a n h
    rw [← hdata]
    exact Mem.load_congr fun i hi => if_pos (by omega)
  rw [hcall, Option.bind_some, hfunction, hhandler, Option.map_some, Option.some.injEq]
  unfold unpackCallStaticMethod word
  rw [hin _ _ (by omega), hin _ _ (by omega),
    show data.load (4 * 0) 4 = jc from hmessage.jobj,
    show data.load (4 * 1) 4 = methodID from hmessage.methodID]
  simp only [StaticCall.mk.injEq, true_and]
  rw [map_load_eq_iff]
  rcases List.eq_nil_or_concat' args with rfl | ⟨front, a, rfl⟩
  · simp
  · have hlow := data.load_lt (12 + 8 * front.length) 4
    have hlast := hmessage.args front.length (by simp)
    have htail := hmessage.load_tail
    have hbehind : (replydata call behind).load (8 + 8 * (front ++ [a]).length) 4 =
        behind.load (8 + 8 * (front ++ [a]).length) 4 :=
      Mem.load_congr fun i _ => if_neg (by omega)
    have hcut : (replydata call behind).load (12 + 8 * front.length) 8 =
        data.load (12 + 8 * front.length) 4 +
          2 ^ 32 * behind.load (8 + 8 * (front ++ [a]).length) 4 := by
      rw [load_halves, hin _ _ (by simp; omega), ← hbehind]
      simp only [List.length_append, List.length_singleton]
      rw [show 12 + 8 * front.length + 4 = 8 + 8 * (front.length + 1) by omega]
    have hwhole : data.load (12 + 8 * front.length) 8 =
        data.load (12 + 8 * front.length) 4 +
          2 ^ 32 * data.load (8 + 8 * (front ++ [a]).length) 4 := by
      rw [load_halves, List.length_append, List.length_singleton,
        show 12 + 8 * front.length + 4 = 8 + 8 * (front.length + 1) by omega]
    have hget : (front ++ [a]).getD front.length 0 = a := by
      rw [List.getD_append_right _ _ _ _ le_rfl, Nat.sub_self, List.getD_cons_zero]
    rw [htail] at hwhole
    rw [hlast, hget] at hwhole
    constructor
    · intro h
      have hread := h front.length (by simp)
      rw [hcut, hget] at hread
      right
      omega
    · intro h i hi
      have hbound : i < front.length ∨ i = front.length := by
        rw [List.length_append, List.length_singleton] at hi
        omega
      rcases hbound with hlt | rfl
      · rw [hin _ _ (by simp; omega)]
        exact hmessage.args i hi
      · have htail := h.resolve_left (by simp)
        rw [hcut, hget, htail]
        exact hwhole.symm

/-- `CallStaticIntMethodA` of a method with the signature `(I)I`. -/
theorem not_staticRoundTrips_intA :
    ¬ StaticRoundTrips .int .array [(0x7000, signature [.i] ['I'])] 0x5000 0x7000 [42] := by
  have hsig : getSignatureForMethod [(0x7000, signature [.i] ['I'])] 0x7000 =
      some (signature [.i] ['I']) := by decide
  have hargs : ArgsFor .array [.i] [42] := ⟨rfl, by decide⟩
  exact not_staticRoundTrips hsig hargs (by decide) (by decide)

/-- `CallStaticLongMethod` of a method with the signature `(J)J`: of the argument `2 ^ 32 + 1`
only the lower word arrives, and the upper one is written behind the buffer. -/
theorem not_staticRoundTrips_long :
    ¬ StaticRoundTrips .long .variadic [(0x7000, signature [.j] ['J'])] 0x5000 0x7000
      [2 ^ 32 + 1] := by
  intro h
  obtain ⟨call, handler, hcall, hhandler, -, -, hargs, -⟩ := h Mem.zero Mem.zero
  have hrun : ((staticStub .long .variadic [2 ^ 32 + 1] [(0x7000, signature [.j] ['J'])] Mem.zero
      0x5000 0x7000).bind fun call => (staticHandler call.function).map fun handler =>
        (handler 1 (replydata call Mem.zero)).args) = some [1] := by decide
  rw [hcall, Option.bind_some, hhandler, Option.map_some, Option.some.injEq] at hrun
  have hboth : [1] = [2 ^ 32 + 1] := hrun.symm.trans hargs
  exact absurd hboth (by decide)

end Static

end SystemExtras.Wrapper
