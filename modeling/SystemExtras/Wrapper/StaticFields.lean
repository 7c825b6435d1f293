import SystemExtras.Wrapper.Marshal

/-!
# Marshalling of assignments to static fields

`SetStatic<Type>Field` sends the value, the class and the field, one behind the other and
without padding.  The handlers skip the value to find the field, but take the class from the
start of the message, where the value lies, and the stub for objects selects the handler for
booleans.

`fieldRoundTrips_iff` says what that leaves: the class arrives only if it happens to look
like the value.  Values are the bit patterns of their types.
-/

namespace SystemExtras.Wrapper

/-- The types of fields. -/
inductive FieldType where
  | object
  | prim (t : ElemType)
  deriving DecidableEq, Repr

/-- `sizeof(val)`. -/
def FieldType.size : FieldType → ℕ
  | .object => 4
  | .prim t => t.size

/-! ## The stubs -/

/-- `SETSTATIC_COPYDATA`, with the function code and the taint size that the stub stores.
`heap` is what `malloc` found in the memory it returns. -/
def setstaticCopydata (t : FieldType) (function taintsize : ℕ) (heap : Mem) (jc fieldID val : ℕ) :
    JniCall :=
  let size := 4 + 4 + t.size
  let data := heap.store 0 t.size val
  let data := data.store t.size 4 jc
  let data := data.store (t.size + 4) 4 fieldID
  ⟨function, size, taintsize, data⟩

-- the handler for objects has the code 146
def setStaticObjectField := setstaticCopydata .object 133 8
def setStaticBooleanField := setstaticCopydata (.prim .boolean) 133 8
def setStaticByteField := setstaticCopydata (.prim .byte) 132 8
def setStaticCharField := setstaticCopydata (.prim .char) 131 8
def setStaticShortField := setstaticCopydata (.prim .short) 130 8
def setStaticIntField := setstaticCopydata (.prim .int) 129 8
def setStaticLongField := setstaticCopydata (.prim .long) 60 8
def setStaticFloatField := setstaticCopydata (.prim .float) 128 0
def setStaticDoubleField := setstaticCopydata (.prim .double) 127 0

/-- The stub of a type. -/
def setStaticField : FieldType → Mem → ℕ → ℕ → ℕ → JniCall
  | .object => setStaticObjectField
  | .prim .boolean => setStaticBooleanField
  | .prim .byte => setStaticByteField
  | .prim .char => setStaticCharField
  | .prim .short => setStaticShortField
  | .prim .int => setStaticIntField
  | .prim .long => setStaticLongField
  | .prim .float => setStaticFloatField
  | .prim .double => setStaticDoubleField

/-! ## The handlers -/

/-- The call that a handler makes: the `SetStatic<Type>TaintedField` of a type. -/
structure FieldSet where
  type : FieldType
  jc : ℕ
  fieldID : ℕ
  val : ℕ
  taint : ℕ
  deriving DecidableEq, Repr

/-- A handler: `val`, and then `SETSTATIC_GETDATA`. -/
def setstaticGetdata (t : FieldType) (replydata : Mem) : FieldSet where
  type := t
  val := replydata.load 0 t.size
  -- not from `r2`, which is behind the value
  jc := replydata.load 0 4
  fieldID := replydata.load (t.size + 4) 4
  taint := replydata.load (t.size + 8) 4

def callSetStaticObjectField := setstaticGetdata .object
def callSetStaticBooleanField := setstaticGetdata (.prim .boolean)
def callSetStaticByteField := setstaticGetdata (.prim .byte)
def callSetStaticCharField := setstaticGetdata (.prim .char)
def callSetStaticShortField := setstaticGetdata (.prim .short)
def callSetStaticIntField := setstaticGetdata (.prim .int)
def callSetStaticLongField := setstaticGetdata (.prim .long)
def callSetStaticFloatField := setstaticGetdata (.prim .float)
def callSetStaticDoubleField := setstaticGetdata (.prim .double)

/-- The cases of `handleJNIRequest` that set static fields. -/
def fieldHandler (function : ℕ) : Option (Mem → FieldSet) :=
  match function with
  | 60 => some callSetStaticLongField
  | 127 => some callSetStaticDoubleField
  | 128 => some callSetStaticFloatField
  | 129 => some callSetStaticIntField
  | 130 => some callSetStaticShortField
  | 131 => some callSetStaticCharField
  | 132 => some callSetStaticByteField
  | 133 => some callSetStaticBooleanField
  | 146 => some callSetStaticObjectField
  | _ => none

/-- The type whose handler a stub selects. -/
def FieldType.served : FieldType → FieldType
  | .object => .prim .boolean
  | .prim t => .prim t

theorem setStaticField_eq (t : FieldType) : ∃ function taintsize,
    setStaticField t = setstaticCopydata t function taintsize ∧
      fieldHandler function = some (setstaticGetdata t.served) := by
  cases t with
  | object => exact ⟨133, 8, rfl, rfl⟩
  | prim t =>
      cases t with
      | boolean => exact ⟨133, 8, rfl, rfl⟩
      | byte => exact ⟨132, 8, rfl, rfl⟩
      | char => exact ⟨131, 8, rfl, rfl⟩
      | short => exact ⟨130, 8, rfl, rfl⟩
      | int => exact ⟨129, 8, rfl, rfl⟩
      | long => exact ⟨60, 8, rfl, rfl⟩
      | float => exact ⟨128, 0, rfl, rfl⟩
      | double => exact ⟨127, 0, rfl, rfl⟩

/-! ## Fields that keep their value on the way -/

/-- The handler that the stub's function code selects sets a field of the stub's type, and
gets the class, the field and the value of the stub, whatever memory the buffers lie in. -/
def FieldRoundTrips (t : FieldType) (jc fieldID val : ℕ) : Prop :=
  ∀ heap behind, ∃ taint, (fieldHandler (setStaticField t heap jc fieldID val).function).map
      (fun handler => handler (replydata (setStaticField t heap jc fieldID val) behind)) =
    some ⟨t, jc, fieldID, val, taint⟩

/-- A word full of a value: the low word of a wide one, and a narrow one over and over. -/
def FieldType.fill (t : FieldType) (val : ℕ) : ℕ :=
  match t.size with
  | 1 => 0x01010101 * val
  | 2 => 0x00010001 * val
  | _ => val % 2 ^ 32

section Fields

variable {t : FieldType} {jc fieldID val function taintsize : ℕ}

theorem FieldType.size_cases (t : FieldType) :
    t.size = 1 ∨ t.size = 2 ∨ t.size = 4 ∨ t.size = 8 := by
  cases t with
  | object => decide
  | prim t => cases t <;> decide

variable (function taintsize) in
/-- The message holds the value, the class and the field where they were put. -/
theorem setstaticCopydata_holds (heap : Mem) (hjc : jc < 2 ^ 32) (hfield : fieldID < 2 ^ 32)
    (hval : val < 256 ^ t.size) :
    let data := (setstaticCopydata t function taintsize heap jc fieldID val).paramData
    data.load 0 t.size = val ∧ data.load t.size 4 = jc ∧ data.load (t.size + 4) 4 = fieldID := by
  simp only [setstaticCopydata]
  refine ⟨?_, ?_, ?_⟩
  · rw [Mem.load_store_of_disjoint _ (by omega), Mem.load_store_of_disjoint _ (by omega),
      Mem.load_store_self, Nat.mod_eq_of_lt hval]
  · rw [Mem.load_store_of_disjoint _ (by omega), Mem.load_store_self,
      Nat.mod_eq_of_lt (show jc < 256 ^ 4 from hjc)]
  · rw [Mem.load_store_self, Nat.mod_eq_of_lt (show fieldID < 256 ^ 4 from hfield)]

/-- The first word of such a message is the class only if it is full of the value. -/
theorem load_first_word_eq_iff {data : Mem} (hval : data.load 0 t.size = val)
    (hjc : data.load t.size 4 = jc) : data.load 0 4 = jc ↔ jc = t.fill val := by
  have hlow : ∀ n k, n + k = 4 → data.load 0 4 = data.load 0 n + 256 ^ n * data.load n k := by
    intro n k hsum
    rw [← hsum, data.load_add, Nat.zero_add]
  have hcut : ∀ n k, k ≤ 4 →
      data.load n 4 = data.load n k + 256 ^ k * data.load (n + k) (4 - k) := by
    intro n k hle
    rw [← data.load_add, Nat.add_sub_cancel' hle]
  have hjclt := data.load_lt t.size 4
  have hvallt := data.load_lt 0 t.size
  unfold FieldType.fill
  rcases t.size_cases with hsize | hsize | hsize | hsize <;> rw [hsize] at hval hjc hjclt hvallt ⊢
  · have h₁ := hlow 1 3 rfl
    have h₂ := hcut 1 3 (by decide)
    have h₃ := data.load_lt 1 3
    simp only at h₁ h₂ h₃ hjclt hvallt ⊢
    omega
  · have h₁ := hlow 2 2 rfl
    have h₂ := hcut 2 2 (by decide)
    have h₃ := data.load_lt 2 2
    simp only at h₁ h₂ h₃ hjclt hvallt ⊢
    omega
  · simp only at hvallt ⊢
    omega
  · have h₁ := load_halves data 0
    have h₂ := data.load_lt 0 4
    simp only at h₁ h₂ ⊢
    omega

/-- **When an assignment arrives as it was made.**  The field is not one for objects, and the
class handle is a word full of the value. -/
theorem fieldRoundTrips_iff (hjc : jc < 2 ^ 32) (hfield : fieldID < 2 ^ 32)
    (hval : val < 256 ^ t.size) :
    FieldRoundTrips t jc fieldID val ↔ t ≠ .object ∧ jc = t.fill val := by
  obtain ⟨function, taintsize, hstub, hhandler⟩ := setStaticField_eq t
  have hdecode : ∀ heap behind, (fieldHandler (setStaticField t heap jc fieldID val).function).map
      (fun handler => handler (replydata (setStaticField t heap jc fieldID val) behind)) =
      some (setstaticGetdata t.served
        (replydata (setstaticCopydata t function taintsize heap jc fieldID val) behind)) := by
    intro heap behind
    rw [hstub]
    simp only [setstaticCopydata, hhandler, Option.map_some]
  have hin : ∀ heap behind a n, a + n ≤ 8 + t.size →
      (replydata (setstaticCopydata t function taintsize heap jc fieldID val) behind).load a n =
        (setstaticCopydata t function taintsize heap jc fieldID val).paramData.load a n := by
    intro heap behind a n hle
    refine Mem.load_congr fun i hi => if_pos ?_
    show a + i < 4 + 4 + t.size
    omega
  constructor
  · intro h
    obtain ⟨taint, hset⟩ := h Mem.zero Mem.zero
    rw [hdecode, Option.some.injEq, setstaticGetdata, FieldSet.mk.injEq] at hset
    obtain ⟨htype, hclass, -, -, -⟩ := hset
    obtain ⟨h₁, h₂, -⟩ := setstaticCopydata_holds function taintsize Mem.zero hjc hfield hval
    rw [hin _ _ _ _ (by omega)] at hclass
    refine ⟨?_, (load_first_word_eq_iff h₁ h₂).mp hclass⟩
    rintro rfl
    cases htype
  · rintro ⟨hobject, hfill⟩ heap behind
    obtain ⟨h₁, h₂, h₃⟩ := setstaticCopydata_holds function taintsize heap hjc hfield hval
    have hserved : t.served = t := by
      cases t with
      | object => exact absurd rfl hobject
      | prim t => rfl
    refine ⟨(setstaticGetdata t
      (replydata (setstaticCopydata t function taintsize heap jc fieldID val) behind)).taint, ?_⟩
    rw [hdecode, hserved]
    unfold setstaticGetdata
    rw [hin _ _ _ _ (by omega), hin _ _ _ _ (by omega), hin _ _ _ _ (by omega), h₁, h₃,
      (load_first_word_eq_iff h₁ h₂).mpr hfill]

/-- A `short` that fills the class handle. -/
theorem fieldRoundTrips_iff_short : FieldRoundTrips (.prim .short) 0x40004000 0x5000 0x4000 :=
  (fieldRoundTrips_iff (by decide) (by decide) (by decide)).mpr ⟨by decide, by decide⟩

/-- `SetStaticIntField(jc = 0x40000011, fieldID = 0x5000, 7)` sets a field of the class `7`. -/
theorem not_fieldRoundTrips_int : ¬ FieldRoundTrips (.prim .int) 0x40000011 0x5000 7 := by
  intro h
  obtain ⟨taint, hset⟩ := h Mem.zero Mem.zero
  have hclass : some 7 = some 0x40000011 := congrArg (Option.map FieldSet.jc) hset
  exact absurd hclass (by decide)

end Fields

end SystemExtras.Wrapper
