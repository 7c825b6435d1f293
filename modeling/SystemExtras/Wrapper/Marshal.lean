import Mathlib.Data.List.GetD
import SystemExtras.Lib.Bytes
import SystemExtras.Lib.Words

/-!
# Marshalling of JNI requests

Native code that runs in the wrapper process calls JNI functions through stubs
(`JniRemote.cpp`).  A stub packs its arguments into a buffer of 32-bit words,
notes a function code and a length in `jniCall`, and waits; the client receives
the first `length` bytes, selects a handler by the function code
(`handleJNIRequest`) and takes the buffer apart again (`BpWrapper.cpp`).

Two families of stubs are modelled with their handlers.

* `Set<Type>ArrayRegion` puts the array handle and the start index behind the
  elements, at a word index computed by dividing the byte length by four.
  `regionRoundTrips_iff` says what that costs: the round trip is exact when the
  byte length is a multiple of four, and otherwise only if the bytes behind the
  last full word happen to be those of the handle.
* `Call<Type>Method` puts a word with the size of the parameters in front of
  them.  Three of the handlers do not know of that word and read every parameter
  four bytes too early (`callRoundTrips_iff`).

Pointers, handles and `int`s have 32 bits, and words are little-endian.
-/

namespace SystemExtras.Wrapper

/-- `jniCall_t`. -/
structure JniCall where
  function : ℕ
  length : ℕ
  taintsize : ℕ
  paramData : Mem

/-- `replydata`: the first `length` bytes of the message, in a buffer behind which
other memory lies. -/
def replydata (call : JniCall) (behind : Mem) : Mem := fun x =>
  if x < call.length then call.paramData x else behind x

/-- `data[k]` of an `int*`. -/
def word (data : Mem) (k : ℕ) : ℕ := data.load (4 * k) 4

/-- `data[k] = v` of an `int*`. -/
def setWord (data : Mem) (k v : ℕ) : Mem := data.store (4 * k) 4 v

theorem word_setWord (data : Mem) (k : ℕ) {v : ℕ} (hv : v < 2 ^ 32) :
    word (setWord data k v) k = v := by
  unfold word setWord
  rw [Mem.load_store_self]
  exact Nat.mod_eq_of_lt hv

theorem word_setWord_of_ne (data : Mem) {j k : ℕ} (v : ℕ) (h : j ≠ k) :
    word (setWord data k v) j = word data j := by
  apply Mem.load_store_of_disjoint
  omega

theorem word_replydata {call : JniCall} (behind : Mem) {k : ℕ} (hk : 4 * k + 4 ≤ call.length) :
    word (replydata call behind) k = word call.paramData k := by
  apply Mem.load_congr
  intro i hi
  exact if_pos (by omega)

/-! ## Array regions -/

/-- The primitive types with a `Set<Type>ArrayRegion`. -/
inductive ElemType where
  | boolean
  | byte
  | char
  | short
  | int
  | long
  | float
  | double
  deriving DecidableEq, Repr

/-- `sizeof(buf[0])`. -/
def ElemType.size : ElemType → ℕ
  | .boolean => 1
  | .byte => 1
  | .char => 2
  | .short => 2
  | .int => 4
  | .long => 8
  | .float => 4
  | .double => 8

/-- `ARRAYREGION_COPYOUT`, with the function code that the stub stores.  `heap` is
what `malloc` found in the memory it returns. -/
def arrayRegionCopyout (t : ElemType) (function : ℕ) (heap : Mem) (jarr start len : ℕ)
    (buf : Mem) : JniCall :=
  let bytes := u32 (len * t.size)
  let size := u32 (4 + 2 * 4 + bytes)
  let data := setWord heap 0 len
  let data := data.blit 4 bytes buf 0
  let data := setWord data (bytes / 4 + 1) jarr
  let data := setWord data (bytes / 4 + 2) start
  ⟨function, size, u32 (bytes + 4), data⟩

def setBooleanArrayRegion := arrayRegionCopyout .boolean 161
def setByteArrayRegion := arrayRegionCopyout .byte 94
def setCharArrayRegion := arrayRegionCopyout .char 95
def setShortArrayRegion := arrayRegionCopyout .short 53
def setIntArrayRegion := arrayRegionCopyout .int 96
def setLongArrayRegion := arrayRegionCopyout .long 162
def setFloatArrayRegion := arrayRegionCopyout .float 93
def setDoubleArrayRegion := arrayRegionCopyout .double 163

/-- The stub of a type. -/
def setArrayRegion : ElemType → Mem → ℕ → ℕ → ℕ → Mem → JniCall
  | .boolean => setBooleanArrayRegion
  | .byte => setByteArrayRegion
  | .char => setCharArrayRegion
  | .short => setShortArrayRegion
  | .int => setIntArrayRegion
  | .long => setLongArrayRegion
  | .float => setFloatArrayRegion
  | .double => setDoubleArrayRegion

/-- The arguments of `Set<Type>ArrayRegion`, the elements as bytes. -/
structure Region where
  jarr : ℕ
  start : ℕ
  len : ℕ
  buf : List UInt8
  deriving DecidableEq, Repr

/-- What a `callSet<Type>ArrayRegion` handler passes on. -/
def unpackArrayRegion (t : ElemType) (idata : Mem) : Region :=
  let len := word idata 0
  let bytes := u32 (len * t.size)
  { jarr := word idata (bytes / 4 + 1)
    start := word idata (bytes / 4 + 2)
    len := len
    buf := idata.bytes 4 bytes }

def callSetBooleanArrayRegion := unpackArrayRegion .boolean
def callSetByteArrayRegion := unpackArrayRegion .byte
def callSetCharArrayRegion := unpackArrayRegion .char
def callSetShortArrayRegion := unpackArrayRegion .short
def callSetIntArrayRegion := unpackArrayRegion .int
def callSetLongArrayRegion := unpackArrayRegion .long
def callSetFloatArrayRegion := unpackArrayRegion .float
def callSetDoubleArrayRegion := unpackArrayRegion .double

/-- The cases of `handleJNIRequest` that set array regions. -/
def regionHandler (function : ℕ) : Option (Mem → Region) :=
  match function with
  | 53 => some callSetShortArrayRegion
  | 93 => some callSetFloatArrayRegion
  | 94 => some callSetByteArrayRegion
  | 95 => some callSetCharArrayRegion
  | 96 => some callSetIntArrayRegion
  | 161 => some callSetBooleanArrayRegion
  | 162 => some callSetLongArrayRegion
  | 163 => some callSetDoubleArrayRegion
  | _ => none

theorem setArrayRegion_eq (t : ElemType) (heap : Mem) (jarr start len : ℕ) (buf : Mem) :
    ∃ function, setArrayRegion t heap jarr start len buf =
        arrayRegionCopyout t function heap jarr start len buf ∧
      regionHandler function = some (unpackArrayRegion t) := by
  cases t
  · exact ⟨161, rfl, rfl⟩
  · exact ⟨94, rfl, rfl⟩
  · exact ⟨95, rfl, rfl⟩
  · exact ⟨53, rfl, rfl⟩
  · exact ⟨96, rfl, rfl⟩
  · exact ⟨162, rfl, rfl⟩
  · exact ⟨93, rfl, rfl⟩
  · exact ⟨163, rfl, rfl⟩

/-- The handler that the stub's function code selects gets the stub's arguments,
whatever memory the buffers lie in. -/
def RegionRoundTrips (t : ElemType) (jarr start len : ℕ) (buf : Mem) : Prop :=
  ∀ heap behind, (regionHandler (setArrayRegion t heap jarr start len buf).function).map
      (fun handler => handler (replydata (setArrayRegion t heap jarr start len buf) behind)) =
    some ⟨jarr, start, len, buf.bytes 0 (len * t.size)⟩

/-- The handle does not change the elements it is written over: these are the bytes
behind the last full word. -/
def TailIsHandle (bytes jarr : ℕ) (buf : Mem) : Prop :=
  ∀ i < bytes % 4, buf (4 * (bytes / 4) + i) = UInt8.ofNat (jarr / 256 ^ i)

section Region

variable {t : ElemType} {function : ℕ} {heap behind buf : Mem} {jarr start len : ℕ}

theorem ElemType.size_pos (t : ElemType) : 0 < t.size := by cases t <;> decide

variable (function heap behind buf) in
/-- The words of the message are decoded without loss. -/
theorem arrayRegion_words (hbytes : len * t.size < 2 ^ 31) (hjarr : jarr < 2 ^ 32)
    (hstart : start < 2 ^ 32) :
    let call := arrayRegionCopyout t function heap jarr start len buf
    word (replydata call behind) 0 = len ∧
      word (replydata call behind) (len * t.size / 4 + 1) = jarr ∧
      word (replydata call behind) (len * t.size / 4 + 2) = start := by
  have hlen : len ≤ len * t.size := Nat.le_mul_of_pos_right _ t.size_pos
  have hcut : u32 (len * t.size) = len * t.size := u32_of_lt (by omega)
  have hsize : u32 (4 + 2 * 4 + len * t.size) = 12 + len * t.size := by
    rw [u32_of_lt (by omega)]
  simp only [arrayRegionCopyout, hcut, hsize]
  refine ⟨?_, ?_, ?_⟩
  · rw [word_replydata behind (by simp only; omega)]
    simp only
    rw [word_setWord_of_ne _ _ (by omega), word_setWord_of_ne _ _ (by omega)]
    have hblit : word ((setWord heap 0 len).blit 4 (len * t.size) buf 0) 0 =
        word (setWord heap 0 len) 0 := Mem.load_blit_of_disjoint _ (Or.inl (by omega))
    rw [hblit, word_setWord _ _ (by omega)]
  · rw [word_replydata behind (by simp only; omega)]
    simp only
    rw [word_setWord_of_ne _ _ (by omega), word_setWord _ _ hjarr]
  · rw [word_replydata behind (by simp only; omega)]
    simp only
    rw [word_setWord _ _ hstart]

/-- An element byte of the message: the handle covers those behind the last full word. -/
theorem arrayRegion_byte (hbytes : len * t.size < 2 ^ 31) {i : ℕ} (hi : i < len * t.size) :
    replydata (arrayRegionCopyout t function heap jarr start len buf) behind (4 + i) =
      if i < 4 * (len * t.size / 4) then buf i
      else UInt8.ofNat (jarr / 256 ^ (i - 4 * (len * t.size / 4))) := by
  have hcut : u32 (len * t.size) = len * t.size := u32_of_lt (by omega)
  have hsize : u32 (4 + 2 * 4 + len * t.size) = 12 + len * t.size := by
    rw [u32_of_lt (by omega)]
  simp only [arrayRegionCopyout, hcut, hsize, replydata]
  rw [if_pos (by omega)]
  unfold setWord
  rw [Mem.store_apply_of_not_mem (by omega)]
  by_cases hfull : i < 4 * (len * t.size / 4)
  · rw [if_pos hfull, Mem.store_apply_of_not_mem (by omega),
      Mem.blit_apply_of_mem (by omega) (by omega)]
    congr 1
    omega
  · rw [if_neg hfull, Mem.store_apply_of_mem (by omega) (by omega)]
    congr 3
    omega

/-- **When a region arrives as it was sent.**  The handle, the start and the length
always do; the elements do exactly when the handle is not written over them, or is
written over bytes that it equals. -/
theorem regionRoundTrips_iff (hbytes : len * t.size < 2 ^ 31) (hjarr : jarr < 2 ^ 32)
    (hstart : start < 2 ^ 32) :
    RegionRoundTrips t jarr start len buf ↔
      len * t.size % 4 = 0 ∨ TailIsHandle (len * t.size) jarr buf := by
  have hcut : u32 (len * t.size) = len * t.size := u32_of_lt (by omega)
  have hdecode : ∀ heap behind,
      ((regionHandler (setArrayRegion t heap jarr start len buf).function).map
        (fun handler => handler (replydata (setArrayRegion t heap jarr start len buf) behind)) =
          some ⟨jarr, start, len, buf.bytes 0 (len * t.size)⟩) ↔
      ∀ i < len * t.size,
        replydata (setArrayRegion t heap jarr start len buf) behind (4 + i) = buf i := by
    intro heap behind
    obtain ⟨function, hstub, hhandler⟩ := setArrayRegion_eq t heap jarr start len buf
    obtain ⟨h₀, h₁, h₂⟩ := arrayRegion_words function heap behind buf hbytes hjarr hstart
    have hfunction : (arrayRegionCopyout t function heap jarr start len buf).function = function :=
      rfl
    rw [hstub, hfunction, hhandler]
    simp only [Option.map_some, unpackArrayRegion, h₀, hcut, h₁, h₂, Option.some.injEq,
      Region.mk.injEq, true_and, Mem.bytes, Nat.zero_add]
    constructor
    · intro h i hi
      have := congrArg (fun l => l[i]?) h
      simpa [hi] using this
    · intro h
      apply List.map_congr_left
      intro i hi
      exact h i (List.mem_range.mp hi)
  have hbyte : ∀ heap behind, ∀ i < len * t.size,
      replydata (setArrayRegion t heap jarr start len buf) behind (4 + i) =
        if i < 4 * (len * t.size / 4) then buf i
        else UInt8.ofNat (jarr / 256 ^ (i - 4 * (len * t.size / 4))) := by
    intro heap behind i hi
    obtain ⟨function, hstub, -⟩ := setArrayRegion_eq t heap jarr start len buf
    rw [hstub]
    exact arrayRegion_byte hbytes hi
  constructor
  · intro h
    right
    intro i hi
    have hin : 4 * (len * t.size / 4) + i < len * t.size := by omega
    have hsame := (hdecode Mem.zero Mem.zero).mp (h Mem.zero Mem.zero) _ hin
    rw [hbyte _ _ _ hin, if_neg (by omega), Nat.add_sub_cancel_left] at hsame
    exact hsame.symm
  · intro h heap behind
    rw [hdecode]
    intro i hi
    rw [hbyte heap behind i hi]
    by_cases hfull : i < 4 * (len * t.size / 4)
    · rw [if_pos hfull]
    · rw [if_neg hfull]
      rcases h with h | h
      · omega
      · have := h (i - 4 * (len * t.size / 4)) (by omega)
        rw [show 4 * (len * t.size / 4) + (i - 4 * (len * t.size / 4)) = i by omega] at this
        exact this.symm

/-- Eight booleans travel well. -/
theorem regionRoundTrips_iff_eight :
    RegionRoundTrips .boolean 0x40000011 3 8 Mem.zero :=
  (regionRoundTrips_iff (by decide) (by decide) (by decide)).mpr (Or.inl (by decide))

/-- One boolean does not: its byte is the low byte of the handle when it arrives. -/
theorem not_regionRoundTrips_one : ¬ RegionRoundTrips .boolean 0x40000011 0 1 Mem.zero := by
  intro h
  have := h Mem.zero Mem.zero
  revert this
  decide

end Region

/-! ## Calls of instance methods -/

/-- The return types with a `Call<Type>Method`. -/
inductive RetType where
  | object
  | boolean
  | byte
  | char
  | short
  | int
  | long
  | float
  | double
  | void
  deriving DecidableEq, Repr

/-- `Call<Type>Method`, `Call<Type>MethodV` and `Call<Type>MethodA`. -/
inductive Form where
  | variadic
  | vaList
  | array
  deriving DecidableEq, Repr

/-- `sigList`: the signatures of methods, the one registered last in front. -/
abbrev SigList := List (ℕ × List Char)

/-- `addSignatureForMethod`. -/
def addSignatureForMethod (sigList : SigList) (methodID : ℕ) (sig : List Char) : SigList :=
  (methodID, sig) :: sigList

/-- `getSignatureForMethod`; it returns a null pointer for a method that is not registered. -/
def getSignatureForMethod (sigList : SigList) (methodID : ℕ) : Option (List Char) :=
  (sigList.find? fun s => s.1 = methodID).map Prod.snd

/-- The loop of `getNumParams`, which runs on past the end of a signature without
a closing bracket. -/
def countParams : List Char → Option ℕ
  | [] => none
  | c :: rest =>
      if c = ')' then some 0
      else if c ∈ ['L', 'Z', 'B', 'C', 'S', 'I', 'D', 'J'] then (countParams rest).map (· + 1)
      else countParams rest

/-- `getNumParams`; it returns `-1` for a method that is not registered. -/
def getNumParams (sigList : SigList) (methodID : ℕ) : Option ℕ :=
  (getSignatureForMethod sigList methodID).bind countParams

/-- `PARAMS_FROM_ARGS`: takes the arguments off a `va_list` as the signature says
and writes a `jvalue` for each, `d2` being where the next one goes. -/
def paramsFromArgs : List Char → List ℕ → Mem → ℕ → Option Mem
  | [], _, _, _ => none
  | c :: rest, args, data, d2 =>
      if c = ')' then some data
      else if c ∈ ['L', 'Z', 'B', 'C', 'S', 'I'] then
        match args with
        | [] => none
        | a :: args => paramsFromArgs rest args ((data.store d2 4 a).store (d2 + 4) 4 0) (d2 + 8)
      else if c ∈ ['D', 'J'] then
        match args with
        | [] => none
        | a :: args => paramsFromArgs rest args (data.store d2 8 a) (d2 + 8)
      else paramsFromArgs rest args data d2

/-- A `jvalue` array in memory. -/
def jvalueArray (args : List ℕ) : Mem := fun x => UInt8.ofNat (args.getD (x / 8) 0 / 256 ^ (x % 8))

/-- What the stubs have in common: `CALL_COPY` makes room for the message and its
taints and writes the head of the message, `copyParams` writes the parameters. -/
def callMethod (function : ℕ) (copyParams : List Char → ℕ → Mem → Option Mem) (sigList : SigList)
    (heap : Mem) (jobj methodID : ℕ) : Option JniCall := do
  let n ← getNumParams sigList methodID
  let sig ← getSignatureForMethod sigList methodID
  let size := 12 + 8 * n
  -- `size + taintsize` overflows an `int`
  if 2 ^ 31 ≤ size + size then none
  else do
    let data := setWord heap 0 jobj
    let data := setWord data 1 methodID
    let data := setWord data 2 (8 * n)
    let data ← copyParams sig n data
    some ⟨function, size, size, data⟩

/-- The stubs that take the arguments one by one. -/
def callMethodV (function : ℕ) (args : List ℕ) :=
  callMethod function fun sig _ data => paramsFromArgs sig args data 12

/-- The stubs that take an array of arguments. -/
def callMethodA (function : ℕ) (args : List ℕ) :=
  callMethod function fun _ n data =>
    if args.length < n then none else some (data.blit 12 (8 * n) (jvalueArray args) 0)

def callObjectMethod := callMethodV 33
def callObjectMethodV := callMethodV 33
def callObjectMethodA := callMethodA 33
def callBooleanMethod := callMethodV 24
def callBooleanMethodV := callMethodV 25
def callBooleanMethodA := callMethodA 26
def callByteMethod := callMethodV 71
def callByteMethodV := callMethodV 71
def callByteMethodA := callMethodA 71
def callCharMethod := callMethodV 72
def callCharMethodV := callMethodV 72
def callCharMethodA := callMethodA 72
def callShortMethod := callMethodV 84
def callShortMethodV := callMethodV 84
def callShortMethodA := callMethodA 84
def callIntMethod := callMethodV 27
def callIntMethodV := callMethodV 28
def callIntMethodA := callMethodA 29
def callLongMethod := callMethodV 73
def callLongMethodV := callMethodV 73
def callLongMethodA := callMethodA 73
def callFloatMethod := callMethodV 62
def callFloatMethodV := callMethodV 62
def callFloatMethodA := callMethodA 62
def callDoubleMethod := callMethodV 74
def callDoubleMethodV := callMethodV 74
def callDoubleMethodA := callMethodA 74
def callVoidMethod := callMethodV 34
def callVoidMethodV := callMethodV 34
def callVoidMethodA := callMethodA 34

/-- The stub of a return type and a form. -/
def callStub : RetType → Form → List ℕ → SigList → Mem → ℕ → ℕ → Option JniCall
  | .object, .variadic => callObjectMethod
  | .object, .vaList => callObjectMethodV
  | .object, .array => callObjectMethodA
  | .boolean, .variadic => callBooleanMethod
  | .boolean, .vaList => callBooleanMethodV
  | .boolean, .array => callBooleanMethodA
  | .byte, .variadic => callByteMethod
  | .byte, .vaList => callByteMethodV
  | .byte, .array => callByteMethodA
  | .char, .variadic => callCharMethod
  | .char, .vaList => callCharMethodV
  | .char, .array => callCharMethodA
  | .short, .variadic => callShortMethod
  | .short, .vaList => callShortMethodV
  | .short, .array => callShortMethodA
  | .int, .variadic => callIntMethod
  | .int, .vaList => callIntMethodV
  | .int, .array => callIntMethodA
  | .long, .variadic => callLongMethod
  | .long, .vaList => callLongMethodV
  | .long, .array => callLongMethodA
  | .float, .variadic => callFloatMethod
  | .float, .vaList => callFloatMethodV
  | .float, .array => callFloatMethodA
  | .double, .variadic => callDoubleMethod
  | .double, .vaList => callDoubleMethodV
  | .double, .array => callDoubleMethodA
  | .void, .variadic => callVoidMethod
  | .void, .vaList => callVoidMethodV
  | .void, .array => callVoidMethodA

/-- The arguments of an instance method call, `args` being the values of the
`jvalue` array. -/
structure MethodCall where
  jobj : ℕ
  methodID : ℕ
  args : List ℕ
  deriving DecidableEq, Repr

/-- A handler that reads the `n` parameters of the method from offset `off` on. -/
def unpackCallAt (off n : ℕ) (data : Mem) : MethodCall :=
  ⟨word data 0, word data 1, (List.range n).map fun i => data.load (off + 8 * i) 8⟩

/-- `UNPACK_CALLMETHOD`. -/
def unpackCallMethod := unpackCallAt 12

def callCallBooleanMethodA := unpackCallMethod
def callCallByteMethodA := unpackCallMethod
def callCallCharMethodA := unpackCallMethod
def callCallShortMethodA := unpackCallMethod
def callCallIntMethodA := unpackCallMethod
def callCallLongMethodA := unpackCallMethod
def callCallFloatMethodA := unpackCallMethod
def callCallDoubleMethodA := unpackCallMethod
def callCallObjectMethod := unpackCallMethod
def callCallVoidMethod := unpackCallMethod

-- these were written for messages without the word that holds `paramSize`
def callCallBooleanMethod := unpackCallAt 8
def callCallIntMethod := unpackCallAt 8
def callCallIntMethodV := unpackCallAt 8

/-- The cases of `handleJNIRequest` that call instance methods. -/
def callHandler (function : ℕ) : Option (ℕ → Mem → MethodCall) :=
  match function with
  | 24 => some callCallBooleanMethod
  | 25 => some callCallBooleanMethodA
  | 26 => some callCallBooleanMethodA
  | 27 => some callCallIntMethod
  | 28 => some callCallIntMethodV
  | 29 => some callCallIntMethodA
  | 33 => some callCallObjectMethod
  | 34 => some callCallVoidMethod
  | 62 => some callCallFloatMethodA
  | 71 => some callCallByteMethodA
  | 72 => some callCallCharMethodA
  | 73 => some callCallLongMethodA
  | 74 => some callCallDoubleMethodA
  | 84 => some callCallShortMethodA
  | _ => none

/-! ## What a message holds -/

/-- A parameter type that travels in a `jvalue` of its own. -/
inductive Param where
  | z
  | b
  | c
  | s
  | i
  | j
  | d
  deriving DecidableEq, Repr

/-- Its letter in a signature. -/
def Param.letter : Param → Char
  | .z => 'Z'
  | .b => 'B'
  | .c => 'C'
  | .s => 'S'
  | .i => 'I'
  | .j => 'J'
  | .d => 'D'

/-- The bits an argument has on a `va_list`, where the short types are `int`s. -/
def Param.bits : Param → ℕ
  | .j => 64
  | .d => 64
  | _ => 32

/-- The signature of a method with these parameters. -/
def signature (params : List Param) (rest : List Char) : List Char :=
  '(' :: (params.map Param.letter ++ ')' :: rest)

/-- Arguments for these parameters: the `jvalue`s of an array are any 64 bits. -/
structure ArgsFor (form : Form) (params : List Param) (args : List ℕ) : Prop where
  length : args.length = params.length
  bits : ∀ i < params.length,
    args.getD i 0 < 2 ^ (if form = .array then 64 else (params.getD i .z).bits)

/-- The message for a call with the given `jvalue`s. -/
structure HoldsCall (data : Mem) (jobj methodID : ℕ) (args : List ℕ) : Prop where
  jobj : word data 0 = jobj
  methodID : word data 1 = methodID
  paramSize : word data 2 = 8 * args.length
  args : ∀ i < args.length, data.load (12 + 8 * i) 8 = args.getD i 0

theorem countParams_signature (params : List Param) (rest : List Char) :
    countParams (signature params rest) = some params.length := by
  have hparams : countParams (params.map Param.letter ++ ')' :: rest) = some params.length := by
    induction params with
    | nil => rfl
    | cons p params ih =>
        rw [List.map_cons, List.cons_append, countParams, ih]
        cases p <;> simp [Param.letter]
  exact hparams

/-- Two halves make a `jvalue`. -/
theorem load_halves (data : Mem) (a : ℕ) :
    data.load a 8 = data.load a 4 + 2 ^ 32 * data.load (a + 4) 4 := data.load_add a 4 4

/-- One parameter, written at `d2`: its `jvalue`, and nothing in front of it. -/
theorem paramsFromArgs_cons {q : Param} (sig : List Char) {a : ℕ} (args : List ℕ) (data : Mem)
    (d2 : ℕ) (ha : a < 2 ^ q.bits) :
    ∃ data', paramsFromArgs (q.letter :: sig) (a :: args) data d2 =
        paramsFromArgs sig args data' (d2 + 8) ∧
      data'.load d2 8 = a ∧ data'.SameOn data 0 d2 := by
  have hint : ∀ a < 2 ^ 32, ((data.store d2 4 a).store (d2 + 4) 4 0).load d2 8 = a := by
    intro a ha
    rw [load_halves, Mem.load_store_self, Mem.load_store_of_disjoint _ (Or.inl le_rfl),
      Mem.load_store_self, Nat.mod_eq_of_lt (show a < 256 ^ 4 from ha)]
    rfl
  have hsame : ((data.store d2 4 a).store (d2 + 4) 4 0).SameOn data 0 d2 := by
    intro x _ hx
    rw [Mem.store_apply_of_not_mem (by omega), Mem.store_apply_of_not_mem (by omega)]
  have hlong : ∀ a < 2 ^ 64, (data.store d2 8 a).load d2 8 = a := by
    intro a ha
    rw [Mem.load_store_self, Nat.mod_eq_of_lt (show a < 256 ^ 8 from ha)]
  have hsame' : (data.store d2 8 a).SameOn data 0 d2 := by
    intro x _ hx
    exact Mem.store_apply_of_not_mem (by omega)
  cases q with
  | j => exact ⟨_, rfl, hlong a ha, hsame'⟩
  | d => exact ⟨_, rfl, hlong a ha, hsame'⟩
  | z => exact ⟨_, rfl, hint a ha, hsame⟩
  | b => exact ⟨_, rfl, hint a ha, hsame⟩
  | c => exact ⟨_, rfl, hint a ha, hsame⟩
  | s => exact ⟨_, rfl, hint a ha, hsame⟩
  | i => exact ⟨_, rfl, hint a ha, hsame⟩

/-- `PARAMS_FROM_ARGS` writes one `jvalue` behind the other. -/
theorem paramsFromArgs_params {rest : List Char} {params : List Param} :
    ∀ {args : List ℕ} (data : Mem) (d2 : ℕ), args.length = params.length →
      (∀ i < params.length, args.getD i 0 < 2 ^ (params.getD i .z).bits) →
      ∃ data', paramsFromArgs (params.map Param.letter ++ ')' :: rest) args data d2 = some data' ∧
        (∀ i < args.length, data'.load (d2 + 8 * i) 8 = args.getD i 0) ∧
        data'.SameOn data 0 d2 := by
  induction params with
  | nil =>
      intro args data d2 hlen _
      rw [List.length_eq_zero_iff.mp hlen]
      exact ⟨data, rfl, by simp, fun _ _ _ => rfl⟩
  | cons q params ih =>
      intro args data d2 hlen hbits
      obtain ⟨a, args, rfl⟩ := List.exists_cons_of_length_eq_add_one hlen
      have hlen : args.length = params.length := by simpa using hlen
      have ha : a < 2 ^ q.bits := by simpa using hbits 0 (by simp)
      obtain ⟨data₁, hstep, hval, hsame₁⟩ :=
        paramsFromArgs_cons (params.map Param.letter ++ ')' :: rest) args data d2 ha
      obtain ⟨data₂, hrest, hvals, hsame₂⟩ := ih data₁ (d2 + 8) hlen (by
        intro i hi
        simpa using hbits (i + 1) (by simpa using hi))
      refine ⟨data₂, ?_, ?_, ?_⟩
      · rw [List.map_cons, List.cons_append, hstep, hrest]
      · intro i hi
        cases i with
        | zero =>
            rw [Nat.mul_zero, Nat.add_zero, List.getD_cons_zero, ← hval]
            exact Mem.load_congr fun i hi => hsame₂ _ (Nat.zero_le _) (by omega)
        | succ i =>
            rw [show d2 + 8 * (i + 1) = d2 + 8 + 8 * i by omega, List.getD_cons_succ]
            exact hvals i (by simpa using hi)
      · intro x hx₁ hx₂
        rw [hsame₂ x hx₁ (by omega), hsame₁ x hx₁ hx₂]

theorem load_jvalueArray {args : List ℕ} {i : ℕ} (h : args.getD i 0 < 2 ^ 64) :
    (jvalueArray args).load (8 * i) 8 = args.getD i 0 := by
  have : (jvalueArray args).load (8 * i) 8 = args.getD i 0 % 256 ^ 8 := by
    apply Mem.load_eq_of_bytes
    intro k hk
    unfold jvalueArray
    rw [show (8 * i + k) / 8 = i by omega, show (8 * i + k) % 8 = k by omega]
  rw [this, Nat.mod_eq_of_lt (show _ < 256 ^ 8 from h)]

section Calls

variable {ret : RetType} {form : Form} {sigList : SigList} {jobj methodID : ℕ}
  {params : List Param} {args : List ℕ} {rest : List Char}

/-- The length of the message, doubled for its taints, fits an `int`. -/
def MessageFits (n : ℕ) : Prop := 2 * (12 + 8 * n) < 2 ^ 31

/-- The head of a message, with the `jvalue`s behind it. -/
theorem holdsCall_of_copy {heap data : Mem} (hjobj : jobj < 2 ^ 32) (hmethod : methodID < 2 ^ 32)
    (hsize : 8 * args.length < 2 ^ 32)
    (hargs : ∀ i < args.length, data.load (12 + 8 * i) 8 = args.getD i 0)
    (hsame : data.SameOn
      (setWord (setWord (setWord heap 0 jobj) 1 methodID) 2 (8 * args.length)) 0 12) :
    HoldsCall data jobj methodID args := by
  have hhead : ∀ k < 3, word data k =
      word (setWord (setWord (setWord heap 0 jobj) 1 methodID) 2 (8 * args.length)) k :=
    fun k hk => Mem.load_congr fun i hi => hsame _ (Nat.zero_le _) (by omega)
  refine ⟨?_, ?_, ?_, hargs⟩
  · rw [hhead 0 (by decide), word_setWord_of_ne _ _ (by decide),
      word_setWord_of_ne _ _ (by decide), word_setWord _ _ hjobj]
  · rw [hhead 1 (by decide), word_setWord_of_ne _ _ (by decide), word_setWord _ _ hmethod]
  · rw [hhead 2 (by decide), word_setWord _ _ hsize]

theorem getNumParams_signature
    (hsig : getSignatureForMethod sigList methodID = some (signature params rest)) :
    getNumParams sigList methodID = some params.length := by
  rw [getNumParams, hsig, Option.bind_some, countParams_signature]

/-- A stub whose `copyParams` writes the `jvalue`s makes a message that holds the call. -/
theorem callMethod_holds {function : ℕ} {copyParams : List Char → ℕ → Mem → Option Mem}
    (hsig : getSignatureForMethod sigList methodID = some (signature params rest))
    (hlen : args.length = params.length)
    (hcopy : ∀ data, ∃ data', copyParams (signature params rest) params.length data = some data' ∧
      (∀ i < args.length, data'.load (12 + 8 * i) 8 = args.getD i 0) ∧ data'.SameOn data 0 12)
    (hjobj : jobj < 2 ^ 32) (hmethod : methodID < 2 ^ 32) (heap : Mem) :
    (MessageFits params.length → ∃ data,
      callMethod function copyParams sigList heap jobj methodID =
          some ⟨function, 12 + 8 * params.length, 12 + 8 * params.length, data⟩ ∧
        HoldsCall data jobj methodID args) ∧
    (¬ MessageFits params.length →
      callMethod function copyParams sigList heap jobj methodID = none) := by
  have hnum := getNumParams_signature hsig
  unfold MessageFits
  constructor
  · intro hfits
    obtain ⟨data, hdata, hargs, hsame⟩ :=
      hcopy (setWord (setWord (setWord heap 0 jobj) 1 methodID) 2 (8 * params.length))
    refine ⟨data, ?_, holdsCall_of_copy hjobj hmethod (by omega) hargs (hlen ▸ hsame)⟩
    unfold callMethod
    simp only [hnum, hsig, Option.bind_eq_bind, Option.bind_some]
    rw [if_neg (by omega), hdata]
    rfl
  · intro hfits
    unfold callMethod
    simp only [hnum, hsig, Option.bind_eq_bind, Option.bind_some]
    rw [if_pos (by omega)]

/-- The `memcpy` of an array of arguments behind the head of a message. -/
theorem blit_jvalueArray (hargs : ArgsFor .array params args) (data : Mem) :
    (∀ i < args.length,
      (data.blit 12 (8 * params.length) (jvalueArray args) 0).load (12 + 8 * i) 8 =
      args.getD i 0) ∧
    (data.blit 12 (8 * params.length) (jvalueArray args) 0).SameOn data 0 12 := by
  have hlen := hargs.length
  refine ⟨fun i hi => ?_, fun x _ hx => Mem.blit_apply_of_not_mem (Or.inl hx)⟩
  have hbits := hargs.bits i (hlen ▸ hi)
  rw [if_pos rfl] at hbits
  rw [Mem.load_blit_of_mem _ (by omega) (by omega), Nat.zero_add, Nat.add_sub_cancel_left,
    load_jvalueArray hbits]

/-- The arguments on a `va_list`, taken off it behind the head of a message. -/
theorem paramsFromArgs_holds (hargs : ArgsFor form params args) (hform : form ≠ .array)
    (data : Mem) : ∃ data', paramsFromArgs (signature params rest) args data 12 = some data' ∧
      (∀ i < args.length, data'.load (12 + 8 * i) 8 = args.getD i 0) ∧ data'.SameOn data 0 12 := by
  refine paramsFromArgs_params data 12 hargs.length fun i hi => ?_
  have := hargs.bits i hi
  rwa [if_neg hform] at this

/-- The stubs that do not tell the client how long the parameters are. -/
def ReadsEarly (ret : RetType) (form : Form) : Prop :=
  ret = .boolean ∧ form = .variadic ∨ ret = .int ∧ form ≠ .array

instance (ret : RetType) (form : Form) : Decidable (ReadsEarly ret form) :=
  inferInstanceAs (Decidable (_ ∨ _))

/-- Every stub is one of the two kinds, and its function code selects a handler that
reads the parameters from where they are, or from four bytes before that. -/
theorem callStub_eq (ret : RetType) (form : Form) : ∃ function,
    callStub ret form = (if form = .array then callMethodA function else callMethodV function) ∧
      callHandler function = some (unpackCallAt (if ReadsEarly ret form then 8 else 12)) := by
  cases ret with
  | object => cases form <;> exact ⟨33, rfl, rfl⟩
  | boolean =>
      cases form with
      | variadic => exact ⟨24, rfl, rfl⟩
      | vaList => exact ⟨25, rfl, rfl⟩
      | array => exact ⟨26, rfl, rfl⟩
  | byte => cases form <;> exact ⟨71, rfl, rfl⟩
  | char => cases form <;> exact ⟨72, rfl, rfl⟩
  | short => cases form <;> exact ⟨84, rfl, rfl⟩
  | int =>
      cases form with
      | variadic => exact ⟨27, rfl, rfl⟩
      | vaList => exact ⟨28, rfl, rfl⟩
      | array => exact ⟨29, rfl, rfl⟩
  | long => cases form <;> exact ⟨73, rfl, rfl⟩
  | float => cases form <;> exact ⟨62, rfl, rfl⟩
  | double => cases form <;> exact ⟨74, rfl, rfl⟩
  | void => cases form <;> exact ⟨34, rfl, rfl⟩

/-- A stub writes the call into its message. -/
theorem callStub_holds {function : ℕ}
    (hstub : callStub ret form =
      (if form = .array then callMethodA function else callMethodV function))
    (hsig : getSignatureForMethod sigList methodID = some (signature params rest))
    (hargs : ArgsFor form params args) (hjobj : jobj < 2 ^ 32) (hmethod : methodID < 2 ^ 32)
    (heap : Mem) :
    (MessageFits params.length → ∃ data,
      callStub ret form args sigList heap jobj methodID =
          some ⟨function, 12 + 8 * params.length, 12 + 8 * params.length, data⟩ ∧
        HoldsCall data jobj methodID args) ∧
    (¬ MessageFits params.length →
      callStub ret form args sigList heap jobj methodID = none) := by
  rw [hstub]
  by_cases hform : form = .array
  · subst hform
    rw [if_pos rfl]
    refine callMethod_holds hsig hargs.length (fun data => ?_) hjobj hmethod heap
    obtain ⟨hvals, hsame⟩ := blit_jvalueArray hargs data
    exact ⟨_, if_neg (by rw [hargs.length]; exact lt_irrefl _), hvals, hsame⟩
  · rw [if_neg hform]
    exact callMethod_holds hsig hargs.length (paramsFromArgs_holds hargs hform) hjobj hmethod heap

/-- The handler that the stub's function code selects gets the object, the method and
the `jvalue`s of the call, whatever memory the buffers lie in. -/
def CallRoundTrips (ret : RetType) (form : Form) (sigList : SigList) (jobj methodID : ℕ)
    (args : List ℕ) : Prop :=
  ∀ heap behind,
    ((callStub ret form args sigList heap jobj methodID).bind fun call =>
      (callHandler call.function).map fun handler =>
        handler args.length (replydata call behind)) = some ⟨jobj, methodID, args⟩

/-- A handler's array of `jvalue`s. -/
theorem map_load_eq_iff {data : Mem} {off : ℕ} {args : List ℕ} :
    ((List.range args.length).map fun i => data.load (off + 8 * i) 8) = args ↔
      ∀ i < args.length, data.load (off + 8 * i) 8 = args.getD i 0 := by
  constructor
  · intro h i hi
    have := congrArg (fun l => l.getD i 0) h
    simpa [hi] using this
  · intro h
    apply List.ext_getElem (by simp)
    intro i _ hi
    rw [List.getElem_map, List.getElem_range, h i hi, List.getD_eq_getElem _ _ hi]

/-- A handler that reads from offset `off` on returns the call exactly if the
`jvalue`s it reads are those of the call. -/
theorem unpackCallAt_eq_iff {call : JniCall} (behind : Mem) {off : ℕ}
    (hholds : HoldsCall call.paramData jobj methodID args)
    (hlength : call.length = 12 + 8 * args.length) (hoff : off ≤ 12) :
    unpackCallAt off args.length (replydata call behind) = ⟨jobj, methodID, args⟩ ↔
      ∀ i < args.length, call.paramData.load (off + 8 * i) 8 = args.getD i 0 := by
  have hload : ∀ i < args.length, (replydata call behind).load (off + 8 * i) 8 =
      call.paramData.load (off + 8 * i) 8 := by
    intro i hi
    apply Mem.load_congr
    intro k hk
    exact if_pos (by omega)
  unfold unpackCallAt
  rw [word_replydata behind (by omega), word_replydata behind (by omega), hholds.jobj,
    hholds.methodID]
  simp only [MethodCall.mk.injEq, true_and]
  rw [map_load_eq_iff]
  exact forall₂_congr fun i hi => by rw [hload i hi]

/-- Read four bytes early, the `jvalue`s are right only if all their words are the
size of the parameters. -/
theorem reads_early_iff {data : Mem} (hholds : HoldsCall data jobj methodID args)
    (hbits : ∀ i < args.length, args.getD i 0 < 2 ^ 64) :
    (∀ i < args.length, data.load (8 + 8 * i) 8 = args.getD i 0) ↔
      ∀ a ∈ args, a = 8 * args.length * (2 ^ 32 + 1) := by
  have hwords : ∀ i < args.length,
      args.getD i 0 = data.load (12 + 8 * i) 4 + 2 ^ 32 * data.load (16 + 8 * i) 4 := by
    intro i hi
    rw [← hholds.args i hi, load_halves, show 12 + 8 * i + 4 = 16 + 8 * i by omega]
  have hearly : ∀ i, data.load (8 + 8 * i) 8 =
      data.load (8 + 8 * i) 4 + 2 ^ 32 * data.load (12 + 8 * i) 4 := by
    intro i
    rw [load_halves, show 8 + 8 * i + 4 = 12 + 8 * i by omega]
  have hsize : data.load 8 4 = 8 * args.length := hholds.paramSize
  have hlt : ∀ a, data.load a 4 < 2 ^ 32 := fun a => data.load_lt a 4
  constructor
  · intro h
    -- every word repeats the one four bytes before it
    have hall : ∀ i < args.length,
        data.load (12 + 8 * i) 4 = 8 * args.length ∧
          data.load (16 + 8 * i) 4 = 8 * args.length := by
      intro i
      induction i with
      | zero =>
          intro hi
          have := h 0 hi
          rw [hearly, hwords 0 hi] at this
          have h₁ := hlt (12 + 8 * 0)
          have h₂ := hlt (16 + 8 * 0)
          have h₃ := hlt 8
          simp only [Nat.mul_zero, Nat.add_zero] at this h₁ h₂ ⊢
          omega
      | succ i ih =>
          intro hi
          have hprev := (ih (by omega)).2
          have := h (i + 1) hi
          rw [hearly, hwords (i + 1) hi, show 8 + 8 * (i + 1) = 16 + 8 * i by omega, hprev] at this
          have h₁ := hlt (12 + 8 * (i + 1))
          have h₂ := hlt (16 + 8 * (i + 1))
          have h₃ := hlt (16 + 8 * i)
          omega
    intro a ha
    obtain ⟨i, hi, rfl⟩ := List.getElem_of_mem ha
    have := hwords i hi
    rw [(hall i hi).1, (hall i hi).2, List.getD_eq_getElem _ _ hi] at this
    rw [this]
    ring
  · intro h
    have hval : ∀ i < args.length, args.getD i 0 = 8 * args.length * (2 ^ 32 + 1) := by
      intro i hi
      rw [List.getD_eq_getElem _ _ hi]
      exact h _ (List.getElem_mem hi)
    have hhalf : ∀ i < args.length,
        data.load (12 + 8 * i) 4 = 8 * args.length ∧
          data.load (16 + 8 * i) 4 = 8 * args.length := by
      intro i hi
      have h₁ := hwords i hi
      have h₂ := hlt (12 + 8 * i)
      have h₃ := hlt (16 + 8 * i)
      have h₄ := hbits i hi
      rw [hval i hi] at h₁ h₄
      omega
    intro i hi
    rw [hearly, hval i hi, (hhalf i hi).1]
    cases i with
    | zero =>
        simp only [Nat.mul_zero, Nat.add_zero, hsize]
        ring
    | succ i =>
        rw [show 8 + 8 * (i + 1) = 16 + 8 * i by omega, (hhalf i (by omega)).2]
        ring

theorem ArgsFor.lt (h : ArgsFor form params args) : ∀ i < args.length, args.getD i 0 < 2 ^ 64 := by
  intro i hi
  refine (h.bits i (h.length ▸ hi)).trans_le (Nat.pow_le_pow_right (by decide) ?_)
  split
  · exact le_rfl
  · cases params.getD i .z <;> decide

/-- **When a call arrives as it was made.**  The message must fit, and the stub must
not be one of the three whose handler reads early, unless every `jvalue` happens to
look the same four bytes early. -/
theorem callRoundTrips_iff
    (hsig : getSignatureForMethod sigList methodID = some (signature params rest))
    (hargs : ArgsFor form params args) (hjobj : jobj < 2 ^ 32) (hmethod : methodID < 2 ^ 32) :
    CallRoundTrips ret form sigList jobj methodID args ↔
      MessageFits params.length ∧
        (ReadsEarly ret form → ∀ a ∈ args, a = 8 * params.length * (2 ^ 32 + 1)) := by
  obtain ⟨function, hstub, hhandler⟩ := callStub_eq ret form
  have hholds := callStub_holds hstub hsig hargs hjobj hmethod
  by_cases hfits : MessageFits params.length
  · have hone : ∀ heap behind,
        ((callStub ret form args sigList heap jobj methodID).bind fun call =>
          (callHandler call.function).map fun handler =>
            handler args.length (replydata call behind)) = some ⟨jobj, methodID, args⟩ ↔
        (ReadsEarly ret form → ∀ a ∈ args, a = 8 * params.length * (2 ^ 32 + 1)) := by
      intro heap behind
      obtain ⟨data, hcall, hdata⟩ := (hholds heap).1 hfits
      rw [hcall, Option.bind_some]
      simp only [hhandler, Option.map_some, Option.some.injEq]
      rw [unpackCallAt_eq_iff behind hdata (by rw [hargs.length]) (by split <;> omega)]
      by_cases hearly : ReadsEarly ret form
      · simp only [hearly, forall_const, ← hargs.length]
        exact reads_early_iff hdata hargs.lt
      · simp only [hearly, false_imp_iff, iff_true]
        exact hdata.args
    constructor
    · intro h
      exact ⟨hfits, (hone Mem.zero Mem.zero).mp (h Mem.zero Mem.zero)⟩
    · rintro ⟨-, h⟩ heap behind
      exact (hone heap behind).mpr h
  · constructor
    · intro h
      have := h Mem.zero Mem.zero
      rw [(hholds Mem.zero).2 hfits] at this
      cases this
    · rintro ⟨h, -⟩
      exact absurd h hfits

/-- `CallIntMethodA` of a method with the signature `(I)I`. -/
theorem callRoundTrips_iff_intA :
    CallRoundTrips .int .array [(0x7000, signature [.i] ['I'])] 0x5000 0x7000 [42] := by
  have hsig : getSignatureForMethod [(0x7000, signature [.i] ['I'])] 0x7000 =
      some (signature [.i] ['I']) := by decide
  have hargs : ArgsFor .array [.i] [42] := ⟨rfl, by decide⟩
  exact (callRoundTrips_iff hsig hargs (by decide) (by decide)).mpr
    ⟨by unfold MessageFits; decide, fun hearly => absurd hearly (by decide)⟩

/-- `CallIntMethod` of the same method: the `jvalue` that arrives has the size of the
parameters in its low word. -/
theorem not_callRoundTrips_int :
    ¬ CallRoundTrips .int .variadic [(0x7000, signature [.i] ['I'])] 0x5000 0x7000 [42] := by
  intro h
  have := h Mem.zero Mem.zero
  revert this
  decide

end Calls

end SystemExtras.Wrapper
