import SystemExtras.Wrapper.StaticCalls

/-!
# Results of JNI calls

A handler of the client that has called a Java method packs the result for the way back:
`WRITE_CALLRESULT` stores it as an `int`, with the taint of the result in the word behind
it, and announces `sizeof(result)` bytes of that.  The service copies as many bytes into a
buffer of its own, and the stub that waits for them reads a value of its return type at the
start of that buffer.

The two widths agree where the announced bytes are all bytes of the `int`.  A `jlong` has
eight: `resultSurvives_iff` says that its upper word comes back as the taint.

Values are the bit patterns of their types.
-/

namespace SystemExtras.Wrapper

/-! ## Calls of instance methods of a given class -/

/-- What the stubs have in common: `CALL_COPY_NONVIRTUAL` makes room for the message and
writes its head, `copyParams` writes the parameters. -/
def callNonvirtualMethod (function : ℕ) (copyParams : List Char → ℕ → Mem → Option Mem)
    (sigList : SigList) (heap : Mem) (jobj jc methodID : ℕ) : Option JniCall := do
  let n ← getNumParams sigList methodID
  let sig ← getSignatureForMethod sigList methodID
  let size := 16 + 8 * n
  if 2 ^ 31 ≤ size then none
  else do
    let data := setWord heap 0 jobj
    let data := setWord data 1 jc
    let data := setWord data 2 methodID
    let data := setWord data 3 (8 * n)
    let data ← copyParams sig n data
    some ⟨function, size, size, data⟩

/-- The stubs that take the arguments one by one. -/
def callNonvirtualMethodV (function : ℕ) (args : List ℕ) :=
  callNonvirtualMethod function fun sig _ data => paramsFromArgs sig args data 16

/-- The stubs that take an array of arguments. -/
def callNonvirtualMethodA (function : ℕ) (args : List ℕ) :=
  callNonvirtualMethod function fun _ n data =>
    if args.length < n then none else some (data.blit 16 (8 * n) (jvalueArray args) 0)

def callNonvirtualObjectMethod := callNonvirtualMethodV 31
def callNonvirtualObjectMethodV := callNonvirtualMethodV 31
def callNonvirtualObjectMethodA := callNonvirtualMethodA 31
def callNonvirtualBooleanMethod := callNonvirtualMethodV 75
def callNonvirtualBooleanMethodV := callNonvirtualMethodV 75
def callNonvirtualBooleanMethodA := callNonvirtualMethodA 75
def callNonvirtualByteMethod := callNonvirtualMethodV 76
def callNonvirtualByteMethodV := callNonvirtualMethodV 76
def callNonvirtualByteMethodA := callNonvirtualMethodA 76
def callNonvirtualCharMethod := callNonvirtualMethodV 77
def callNonvirtualCharMethodV := callNonvirtualMethodV 77
def callNonvirtualCharMethodA := callNonvirtualMethodA 77
def callNonvirtualShortMethod := callNonvirtualMethodV 78
def callNonvirtualShortMethodV := callNonvirtualMethodV 78
def callNonvirtualShortMethodA := callNonvirtualMethodA 78
def callNonvirtualIntMethod := callNonvirtualMethodV 79
def callNonvirtualIntMethodV := callNonvirtualMethodV 79
def callNonvirtualIntMethodA := callNonvirtualMethodA 79
def callNonvirtualLongMethod := callNonvirtualMethodV 80
def callNonvirtualLongMethodV := callNonvirtualMethodV 80
def callNonvirtualLongMethodA := callNonvirtualMethodA 80
def callNonvirtualFloatMethod := callNonvirtualMethodV 81
def callNonvirtualFloatMethodV := callNonvirtualMethodV 81
def callNonvirtualFloatMethodA := callNonvirtualMethodA 81
def callNonvirtualDoubleMethod := callNonvirtualMethodV 82
def callNonvirtualDoubleMethodV := callNonvirtualMethodV 82
def callNonvirtualDoubleMethodA := callNonvirtualMethodA 82
def callNonvirtualVoidMethod := callNonvirtualMethodV 83
def callNonvirtualVoidMethodV := callNonvirtualMethodV 83
def callNonvirtualVoidMethodA := callNonvirtualMethodA 83

/-- The stub of a return type and a form. -/
def nonvirtualStub : RetType → Form → List ℕ → SigList → Mem → ℕ → ℕ → ℕ → Option JniCall
  | .object, .variadic => callNonvirtualObjectMethod
  | .object, .vaList => callNonvirtualObjectMethodV
  | .object, .array => callNonvirtualObjectMethodA
  | .boolean, .variadic => callNonvirtualBooleanMethod
  | .boolean, .vaList => callNonvirtualBooleanMethodV
  | .boolean, .array => callNonvirtualBooleanMethodA
  | .byte, .variadic => callNonvirtualByteMethod
  | .byte, .vaList => callNonvirtualByteMethodV
  | .byte, .array => callNonvirtualByteMethodA
  | .char, .variadic => callNonvirtualCharMethod
  | .char, .vaList => callNonvirtualCharMethodV
  | .char, .array => callNonvirtualCharMethodA
  | .short, .variadic => callNonvirtualShortMethod
  | .short, .vaList => callNonvirtualShortMethodV
  | .short, .array => callNonvirtualShortMethodA
  | .int, .variadic => callNonvirtualIntMethod
  | .int, .vaList => callNonvirtualIntMethodV
  | .int, .array => callNonvirtualIntMethodA
  | .long, .variadic => callNonvirtualLongMethod
  | .long, .vaList => callNonvirtualLongMethodV
  | .long, .array => callNonvirtualLongMethodA
  | .float, .variadic => callNonvirtualFloatMethod
  | .float, .vaList => callNonvirtualFloatMethodV
  | .float, .array => callNonvirtualFloatMethodA
  | .double, .variadic => callNonvirtualDoubleMethod
  | .double, .vaList => callNonvirtualDoubleMethodV
  | .double, .array => callNonvirtualDoubleMethodA
  | .void, .variadic => callNonvirtualVoidMethod
  | .void, .vaList => callNonvirtualVoidMethodV
  | .void, .array => callNonvirtualVoidMethodA

/-! ## Types and families -/

/-- The return types whose values are integers or handles. -/
inductive Integral where
  | boolean
  | byte
  | char
  | short
  | int
  | long
  | object
  deriving DecidableEq, Repr

namespace Integral

/-- `sizeof(result)`. -/
def size : Integral → ℕ
  | .boolean => 1
  | .byte => 1
  | .char => 2
  | .short => 2
  | .int => 4
  | .long => 8
  | .object => 4

/-- The type among all return types. -/
def ret : Integral → RetType
  | .boolean => .boolean
  | .byte => .byte
  | .char => .char
  | .short => .short
  | .int => .int
  | .long => .long
  | .object => .object

/-- The 32 bits of a signed value of that many bits. -/
def signExtend (bits v : ℕ) : ℕ := if v < 2 ^ (bits - 1) then v else v + (2 ^ 32 - 2 ^ bits)

/-- `(int)result`. -/
def toInt : Integral → ℕ → ℕ
  | .boolean, v => v
  | .byte, v => signExtend 8 v
  | .char, v => v
  | .short, v => signExtend 16 v
  | .int, v => v
  | .long, v => u32 v
  | .object, v => v

end Integral

/-- `Call<Type>Method`, `CallNonvirtual<Type>Method` and `CallStatic<Type>Method`. -/
inductive Family where
  | virtual
  | nonvirtual
  | static
  deriving DecidableEq, Repr

/-- The function code that a stub stores in `jniCall`. -/
def callCode : Family → Integral → Form → ℕ
  | .virtual, .object, _ => 33
  | .virtual, .boolean, .variadic => 24
  | .virtual, .boolean, .vaList => 25
  | .virtual, .boolean, .array => 26
  | .virtual, .byte, _ => 71
  | .virtual, .char, _ => 72
  | .virtual, .short, _ => 84
  | .virtual, .int, .variadic => 27
  | .virtual, .int, .vaList => 28
  | .virtual, .int, .array => 29
  | .virtual, .long, _ => 73
  | .nonvirtual, .object, _ => 31
  | .nonvirtual, .boolean, _ => 75
  | .nonvirtual, .byte, _ => 76
  | .nonvirtual, .char, _ => 77
  | .nonvirtual, .short, _ => 78
  | .nonvirtual, .int, _ => 79
  | .nonvirtual, .long, _ => 80
  | .static, .object, _ => 88
  | .static, .boolean, _ => 87
  | .static, .byte, _ => 86
  | .static, .char, _ => 85
  | .static, .short, _ => 51
  | .static, .int, _ => 89
  | .static, .long, _ => 90

/-- The stubs of instance methods store the codes of the table. -/
theorem callStub_callCode (t : Integral) (form : Form) : callStub t.ret form =
    if form = .array then callMethodA (callCode .virtual t form)
    else callMethodV (callCode .virtual t form) := by
  cases t <;> cases form <;> rfl

/-- So do those that name the class of the method. -/
theorem nonvirtualStub_callCode (t : Integral) (form : Form) : nonvirtualStub t.ret form =
    if form = .array then callNonvirtualMethodA (callCode .nonvirtual t form)
    else callNonvirtualMethodV (callCode .nonvirtual t form) := by
  cases t <;> cases form <;> rfl

/-- And so do those of static methods. -/
theorem staticStub_callCode (t : Integral) (form : Form) : staticStub t.ret form =
    if form = .array then callStaticMethodA (callCode .static t form)
    else callStaticMethodV (callCode .static t form) := by
  cases t <;> cases form <;> rfl

/-! ## The way back -/

/-- `callback_t`, without the function code, which is that of the request. -/
structure Callback where
  length : ℕ
  taintlength : ℕ
  rawdata : Mem

/-- `WRITE_CALLRESULT`.  `heap` is what `malloc` found in the memory it returns. -/
def writeCallresult (t : Integral) (heap : Mem) (result resultTaint : ℕ) : Callback :=
  let aresult := setWord heap 0 (t.toInt result)
  let aresult := setWord aresult 1 resultTaint
  ⟨t.size, 4, aresult⟩

/-- The end of a handler without taint support, which copies the result. -/
def copyResult (t : Integral) (heap : Mem) (result _resultTaint : ℕ) : Callback :=
  ⟨t.size, 0, heap.store 0 t.size result⟩

/-- How the handler that `handleJNIRequest` selects for a function code packs its result. -/
def resultWriter (function : ℕ) : Option (Mem → ℕ → ℕ → Callback) :=
  match function with
  | 24 => some (copyResult .boolean)
  | 25 => some (writeCallresult .boolean)
  | 26 => some (writeCallresult .boolean)
  | 27 => some (copyResult .int)
  | 28 => some (copyResult .int)
  | 29 => some (writeCallresult .int)
  | 31 => some (writeCallresult .object)
  | 33 => some (writeCallresult .object)
  | 51 => some (writeCallresult .short)
  | 71 => some (writeCallresult .byte)
  | 72 => some (writeCallresult .char)
  | 73 => some (writeCallresult .long)
  | 75 => some (writeCallresult .boolean)
  | 76 => some (writeCallresult .byte)
  | 77 => some (writeCallresult .char)
  | 78 => some (writeCallresult .short)
  | 79 => some (writeCallresult .int)
  | 80 => some (writeCallresult .long)
  | 84 => some (writeCallresult .short)
  | 85 => some (writeCallresult .char)
  | 86 => some (writeCallresult .byte)
  | 87 => some (writeCallresult .boolean)
  | 88 => some (writeCallresult .object)
  | 89 => some (writeCallresult .int)
  | 90 => some (writeCallresult .long)
  | _ => none

/-- `param_data` of the stub when it wakes: `doCallbackTransaction` sends the first `length`
bytes in front of the taints, and the service reads that many into a new buffer. -/
def Callback.received (cb : Callback) (behind : Mem) : Mem := fun x =>
  if x < cb.length then cb.rawdata x else behind x

/-- What a stub returns when the virtual machine has given its handler that result. -/
def returned (family : Family) (t : Integral) (form : Form) (result resultTaint : ℕ)
    (heap behind : Mem) : Option ℕ :=
  (resultWriter (callCode family t form)).map fun write =>
    ((write heap result resultTaint).received behind).load 0 t.size

/-- The stub returns the result, whatever memory the buffers lie in. -/
def ResultSurvives (family : Family) (t : Integral) (form : Form) (result resultTaint : ℕ) : Prop :=
  ∀ heap behind, returned family t form result resultTaint heap behind = some result

section Results

variable {family : Family} {t : Integral} {form : Form} {result resultTaint : ℕ}

/-- The announced bytes are those that the stub reads. -/
theorem Callback.load_received (cb : Callback) (behind : Mem) :
    (cb.received behind).load 0 cb.length = cb.rawdata.load 0 cb.length :=
  Mem.load_congr fun _ hi => if_pos (by omega)

/-- Every stub meets a handler that packs its type, by copying or with `WRITE_CALLRESULT`,
and no handler copies a `jlong`. -/
theorem resultWriter_callCode (family : Family) (t : Integral) (form : Form) :
    resultWriter (callCode family t form) = some (writeCallresult t) ∨
      t ≠ .long ∧ resultWriter (callCode family t form) = some (copyResult t) := by
  cases family with
  | virtual =>
      cases t with
      | boolean =>
          cases form with
          | variadic => exact Or.inr ⟨by decide, rfl⟩
          | vaList => exact Or.inl rfl
          | array => exact Or.inl rfl
      | int =>
          cases form with
          | variadic => exact Or.inr ⟨by decide, rfl⟩
          | vaList => exact Or.inr ⟨by decide, rfl⟩
          | array => exact Or.inl rfl
      | _ => exact Or.inl rfl
  | nonvirtual => cases t <;> exact Or.inl rfl
  | static => cases t <;> exact Or.inl rfl

/-- The low bytes of `(int)result` are those of the result. -/
theorem Integral.toInt_mod (hlong : t ≠ .long) (hresult : result < 256 ^ t.size) :
    t.toInt result % 256 ^ t.size = result := by
  have hext : ∀ bits, 2 ^ bits ∣ 2 ^ 32 - 2 ^ bits → result < 2 ^ bits →
      signExtend bits result % 2 ^ bits = result := by
    intro bits hdvd hlt
    unfold signExtend
    split
    · exact Nat.mod_eq_of_lt hlt
    · rw [Nat.add_mod, Nat.mod_eq_zero_of_dvd hdvd, Nat.add_zero, Nat.mod_mod,
        Nat.mod_eq_of_lt hlt]
  cases t with
  | byte => exact hext 8 (by decide) hresult
  | short => exact hext 16 (by decide) hresult
  | long => exact absurd rfl hlong
  | _ => exact Nat.mod_eq_of_lt hresult

/-- Of `WRITE_CALLRESULT`, a stub for a narrow type reads bytes of the first word only. -/
theorem load_writeCallresult (heap : Mem) (hlong : t ≠ .long) (hresult : result < 256 ^ t.size) :
    (writeCallresult t heap result resultTaint).rawdata.load 0 t.size = result := by
  have hnarrow : t.size ≤ 4 := by
    cases t with
    | long => exact absurd rfl hlong
    | _ => decide
  have hbytes : ∀ i < t.size, (writeCallresult t heap result resultTaint).rawdata (0 + i) =
      UInt8.ofNat (t.toInt result / 256 ^ i) := by
    intro i hi
    simp only [writeCallresult, setWord]
    rw [Mem.store_apply_of_not_mem (by omega), Mem.store_apply_of_mem (by omega) (by omega)]
    congr 3
    omega
  rw [Mem.load_eq_of_bytes hbytes, Integral.toInt_mod hlong hresult]

/-- A stub for a `jlong` reads both words. -/
theorem load_writeCallresult_long (heap : Mem) (htaint : resultTaint < 2 ^ 32) :
    (writeCallresult .long heap result resultTaint).rawdata.load 0 8 =
      result % 2 ^ 32 + 2 ^ 32 * resultTaint := by
  have hlow : word (setWord (setWord heap 0 (u32 result)) 1 resultTaint) 0 = u32 result := by
    rw [word_setWord_of_ne _ _ (by decide), word_setWord _ _ (u32_lt _)]
  have hhigh : word (setWord (setWord heap 0 (u32 result)) 1 resultTaint) 1 = resultTaint :=
    word_setWord _ _ htaint
  rw [load_halves]
  exact congrArg₂ (fun a b => a + 2 ^ 32 * b) hlow hhigh

/-- **When a result survives.**  Results of all types but `jlong` always do; of a `jlong`
the stub gets the lower word, and the taint as the upper one. -/
theorem resultSurvives_iff (hresult : result < 256 ^ t.size) (htaint : resultTaint < 2 ^ 32) :
    ResultSurvives family t form result resultTaint ↔
      (t = .long → result / 2 ^ 32 = resultTaint) := by
  have hreturned : ∀ write : Mem → ℕ → ℕ → Callback,
      resultWriter (callCode family t form) = some write →
      (∀ heap, (write heap result resultTaint).length = t.size) → ∀ heap behind,
      returned family t form result resultTaint heap behind =
        some ((write heap result resultTaint).rawdata.load 0 t.size) := by
    intro write hwrite hlength heap behind
    have hload := (write heap result resultTaint).load_received behind
    rw [hlength] at hload
    rw [returned, hwrite, Option.map_some, hload]
  rcases resultWriter_callCode family t form with hwrite | ⟨hlong, hwrite⟩
  · have hreturned := hreturned _ hwrite fun _ => rfl
    by_cases hlong : t = .long
    · subst hlong
      have hvalue : ∀ heap behind, returned family .long form result resultTaint heap behind =
          some (result % 2 ^ 32 + 2 ^ 32 * resultTaint) := fun heap behind =>
        (hreturned heap behind).trans (congrArg some (load_writeCallresult_long heap htaint))
      constructor
      · intro h _
        have := Option.some.inj ((hvalue Mem.zero Mem.zero).symm.trans (h Mem.zero Mem.zero))
        omega
      · intro h heap behind
        rw [hvalue, ← h rfl]
        congr 1
        omega
    · refine ⟨fun _ h => absurd h hlong, fun _ heap behind => ?_⟩
      rw [hreturned, load_writeCallresult heap hlong hresult]
  · have hreturned := hreturned _ hwrite fun _ => rfl
    refine ⟨fun _ h => absurd h hlong, fun _ heap behind => ?_⟩
    rw [hreturned]
    simp only [copyResult]
    rw [Mem.load_store_self, Nat.mod_eq_of_lt hresult]

/-- `CallShortMethodA` of a method that returned `-2` with a taint. -/
theorem resultSurvives_iff_short : ResultSurvives .virtual .short .array 0xFFFE 0x400 :=
  (resultSurvives_iff (by decide) (by decide)).mpr fun hlong => absurd hlong (by decide)

/-- `CallLongMethod` of a method that returned `2 ^ 32` without a taint: the stub returns zero. -/
theorem not_resultSurvives_long : ¬ ResultSurvives .virtual .long .variadic (2 ^ 32) 0 := by
  intro h
  have hrun : returned .virtual .long .variadic (2 ^ 32) 0 Mem.zero Mem.zero = some 0 := by decide
  have := hrun.symm.trans (h Mem.zero Mem.zero)
  exact absurd this (by decide)

end Results

end SystemExtras.Wrapper
