import SystemExtras.Wrapper.CharsRegistry
import SystemExtras.Wrapper.Results

/-!
# Critical sections on strings and arrays

`GetStringCritical` and `GetPrimitiveArrayCritical` give native code a copy of the characters
of a string or of the bytes of an array, and the matching functions write the copy back to the
place in the virtual machine that was noted when it was made.  Two handlers and two stubs are
involved in either case, each with a layout and a length of its own.

* A string is read whole.  When it is released, a quarter of its bytes is sent, and its length is
  read from an entry of the registry that has been given back, unless it was the first one.
* The length of an array is computed with four bytes for all element types but three, and the
  message of a released array is four bytes shorter than what is written into it.

`critical_iff` says what is left: empty strings, if no string that was asked for later is still
held, empty arrays, and arrays of at least two elements of one or two bytes, where the four bytes
that are missing lie behind the array.  The copies of those reach behind the array in both
directions.
-/

namespace SystemExtras.Wrapper

/-- The first entry with a key, behind entries with others. -/
theorem find?_behind {α : Type*} {p : α → Prop} [DecidablePred p] {later rest : List α} {x : α}
    (hlater : ∀ s ∈ later, ¬ p s) (hx : p x) :
    (later ++ x :: rest).find? (fun s => p s) = some x := by
  have hnone : later.find? (fun s => p s) = none :=
    List.find?_eq_none.mpr fun s hs => by simpa using hlater s hs
  rw [List.find?_append, hnone, Option.none_or, List.find?_cons_of_pos (by simpa using hx)]

/-! ## Strings -/

/-- `callGetStringCritical`, with the pointer, the length and the taint that the virtual machine
gives.  `vm` is its memory. -/
def callGetStringCritical (heap vm : Mem) (result strlen taint : ℕ) : Option Callback :=
  let size := 2 * 4 + strlen * 2
  let taintsize := size
  -- `size + taintsize` overflows an `int`
  if 2 ^ 31 ≤ size + taintsize then none
  else
    let idata := setWord heap 0 result
    let idata := setWord idata 1 strlen
    let idata := idata.blit 8 (strlen * 2) vm result
    let idata := (List.range (strlen / 2)).foldl
      (fun idata j => setWord idata (4 + strlen / 2 + j) taint) idata
    some ⟨size, taintsize, idata⟩

/-- `GetStringCritical` from the answer on: the memory of the process and the registry.
`result` is the address that `malloc` returns. -/
def getStringCritical (charsList : List StringMap) (native : Mem) (result : ℕ) (idata : Mem) :
    Mem × List StringMap :=
  let strlen := word idata 1
  (native.blit result (strlen * 2) idata 8, addStringChars charsList (word idata 0) strlen result)

/-- Whether `deleteCharsEntry` gives the memory of the entry back that it removes. -/
def freesEntry (wrapperP : ℕ) : List StringMap → Prop
  | s :: _ :: _ => s.wrapperP ≠ wrapperP
  | _ => False

instance (wrapperP : ℕ) : (charsList : List StringMap) → Decidable (freesEntry wrapperP charsList)
  | [] => inferInstanceAs (Decidable False)
  | [_] => inferInstanceAs (Decidable False)
  | s :: _ :: _ => inferInstanceAs (Decidable (s.wrapperP ≠ wrapperP))

/-- `ReleaseStringCritical` up to the request, if it makes one; none also where it reads memory
that was given back. -/
def releaseStringCritical (charsList : List StringMap) (heap native : Mem) (jstr chars : ℕ) :
    Option (JniCall × List StringMap) := do
  let s ← getDalvikChars charsList chars
  -- a negative length
  if 2 ^ 31 ≤ s.length then none
  else do
    let strlen := if s.length % 2 = 1 then s.length + 1 else s.length
    let size := 4 + 4 + 4 + 2 * strlen
    if 2 ^ 31 ≤ size then none
    else do
      let data := setWord heap 0 s.length
      -- the number of words, not of bytes
      let data := data.blit 4 (strlen / 2) native chars
      let data := setWord data (1 + strlen / 2) jstr
      let data := setWord data (2 + strlen / 2) s.dalvikP
      let rest ← deleteCharsEntry chars charsList
      -- the size of the taint is read from the entry that was removed
      if freesEntry chars charsList then none
      else some (⟨57, size, 4 + 2 * s.length, data⟩, rest)

/-- `callReleaseStringCritical`: the memory of the virtual machine. -/
def callReleaseStringCritical (idata vm : Mem) : Mem :=
  let strlen := word idata 0
  let dalvikP := word idata (2 + (strlen + 1) / 2)
  vm.blit dalvikP (strlen * 2) idata 4

/-- The native code finds the `n` characters at `dalvikP` in its copy, and what it has there when
it releases the string is what is at `dalvikP` then, whatever strings were held before.  `later`
are the entries of those that it asked for in between and still holds. -/
def StringFaithful (n jstr dalvikP : ℕ) (later : List StringMap) (vm : Mem) : Prop :=
  ∀ heap behind native charsList result taint, (∀ s ∈ later, s.wrapperP ≠ result) → ∃ cb,
    callGetStringCritical heap vm dalvikP n taint = some cb ∧
    let held := getStringCritical charsList native result (cb.received behind)
    (∀ i < 2 * n, held.1 (result + i) = vm (dalvikP + i)) ∧
    ∀ heap behind native vm,
      ∃ call charsList, releaseStringCritical (later ++ held.2) heap native jstr result =
          some (call, charsList) ∧
        ∀ i < 2 * n, callReleaseStringCritical (replydata call behind) vm (dalvikP + i) =
          native (result + i)

section Strings

variable {heap behind native vm : Mem} {charsList later : List StringMap}
  {n jstr dalvikP result taint : ℕ}

/-- The taints lie behind the characters. -/
theorem taint_loop_apply {idata : Mem} {first k x : ℕ} (hx : x < 4 * first) :
    (List.range k).foldl (fun idata j => setWord idata (first + j) taint) idata x = idata x := by
  induction k with
  | zero => rfl
  | succ k ih =>
      rw [List.range_succ, List.foldl_append, List.foldl_cons, List.foldl_nil, setWord,
        Mem.store_apply_of_not_mem (by omega), ih]

/-- The answer for a string. -/
theorem callGetStringCritical_eq (heap vm : Mem) (taint : ℕ) (hp : dalvikP < 2 ^ 32)
    (hfits : 2 * (8 + 2 * n) < 2 ^ 31) : ∃ cb,
    callGetStringCritical heap vm dalvikP n taint = some cb ∧ cb.length = 8 + 2 * n ∧
      word cb.rawdata 0 = dalvikP ∧ word cb.rawdata 1 = n ∧
      ∀ i < 2 * n, cb.rawdata (8 + i) = vm (dalvikP + i) := by
  have hsame : ∀ x < 8 + 2 * n, (List.range (n / 2)).foldl
      (fun idata j => setWord idata (4 + n / 2 + j) taint)
      ((setWord (setWord heap 0 dalvikP) 1 n).blit 8 (n * 2) vm dalvikP) x =
        (setWord (setWord heap 0 dalvikP) 1 n).blit 8 (n * 2) vm dalvikP x :=
    fun x hx => taint_loop_apply (by omega)
  have hword : ∀ k < 2, word ((List.range (n / 2)).foldl
      (fun idata j => setWord idata (4 + n / 2 + j) taint)
      ((setWord (setWord heap 0 dalvikP) 1 n).blit 8 (n * 2) vm dalvikP)) k =
        word (setWord (setWord heap 0 dalvikP) 1 n) k := by
    intro k hk
    refine Mem.load_congr fun i hi => ?_
    rw [hsame _ (by omega), Mem.blit_apply_of_not_mem (Or.inl (by omega))]
  rw [callGetStringCritical, if_neg (by omega)]
  refine ⟨_, rfl, by simp only; omega, ?_, ?_, ?_⟩
  · rw [hword 0 (by decide), word_setWord_of_ne _ _ (by decide), word_setWord _ _ hp]
  · rw [hword 1 (by decide), word_setWord _ _ (by omega)]
  · intro i hi
    simp only
    rw [hsame _ (by omega), Mem.blit_apply_of_mem (by omega) (by omega), Nat.add_sub_cancel_left]

variable (behind native charsList result) in
/-- The copy of a string, and its entry in the registry. -/
theorem getStringCritical_eq {cb : Callback} (hlength : cb.length = 8 + 2 * n)
    (h₀ : word cb.rawdata 0 = dalvikP) (h₁ : word cb.rawdata 1 = n) :
    (getStringCritical charsList native result (cb.received behind)).2 =
        ⟨dalvikP, n, result⟩ :: charsList ∧
      ∀ i < 2 * n, (getStringCritical charsList native result (cb.received behind)).1 (result + i) =
        cb.rawdata (8 + i) := by
  have hword : ∀ k < 2, word (cb.received behind) k = word cb.rawdata k :=
    fun k hk => Mem.load_congr fun i hi => if_pos (by omega)
  unfold getStringCritical
  simp only [hword 0 (by decide), hword 1 (by decide), h₀, h₁]
  refine ⟨rfl, fun i hi => ?_⟩
  rw [Mem.blit_apply_of_mem (by omega) (by omega), Nat.add_sub_cancel_left]
  exact if_pos (by omega)

variable (heap native charsList jstr result) in
/-- The message for a released string: of its `2 * n` bytes the first `(n + 1) / 2` are set. -/
theorem releaseStringCritical_eq (hp : dalvikP < 2 ^ 32) (hfits : 2 * (8 + 2 * n) < 2 ^ 31) :
    ∃ call rest,
    releaseStringCritical (⟨dalvikP, n, result⟩ :: charsList) heap native jstr result =
        some (call, rest) ∧
      call.length = 12 + 4 * ((n + 1) / 2) ∧ word call.paramData 0 = n ∧
      word call.paramData (2 + (n + 1) / 2) = dalvikP ∧
      ∀ i < 2 * n, call.paramData (4 + i) =
        if i < (n + 1) / 2 then native (result + i) else heap (4 + i) := by
  have hfound : getDalvikChars (⟨dalvikP, n, result⟩ :: charsList) result =
      some ⟨dalvikP, n, result⟩ := by
    rw [getDalvikChars_eq]
    exact List.find?_cons_of_pos (by simp)
  have hdelete := deleteCharsEntry_eq_iff.mpr (Or.inr ⟨⟨dalvikP, n, result⟩,
    List.mem_cons_self (l := charsList), rfl⟩)
  have hkept : ¬ freesEntry result (⟨dalvikP, n, result⟩ :: charsList) := by
    cases charsList <;> simp [freesEntry]
  have heven : (if n % 2 = 1 then n + 1 else n) = 2 * ((n + 1) / 2) := by split <;> omega
  have hhalf : 2 * ((n + 1) / 2) / 2 = (n + 1) / 2 := by omega
  rw [releaseStringCritical, hfound]
  simp only [Option.bind_eq_bind, Option.bind_some]
  rw [if_neg (by omega)]
  simp only [heven, hhalf]
  rw [if_neg (by omega), hdelete, Option.bind_some, if_neg hkept]
  refine ⟨_, _, rfl, by simp only; omega, ?_, ?_, ?_⟩ <;> simp only
  · rw [word_setWord_of_ne _ _ (by omega), word_setWord_of_ne _ _ (by omega)]
    have hblit : word ((setWord heap 0 n).blit 4 ((n + 1) / 2) native result) 0 =
        word (setWord heap 0 n) 0 := Mem.load_blit_of_disjoint _ (Or.inl (by omega))
    rw [hblit, word_setWord _ _ (by omega)]
  · rw [word_setWord _ _ hp]
  · intro i hi
    unfold setWord
    rw [Mem.store_apply_of_not_mem (by omega), Mem.store_apply_of_not_mem (by omega)]
    split
    · rw [Mem.blit_apply_of_mem (by omega) (by omega), Nat.add_sub_cancel_left]
    · rw [Mem.blit_apply_of_not_mem (Or.inr (by omega)), Mem.store_apply_of_not_mem (by omega)]

variable (heap native charsList jstr result) in
/-- The length of a string is lost when one that was asked for later is still held. -/
theorem releaseStringCritical_later (hne : later ≠ [])
    (hlater : ∀ s ∈ later, s.wrapperP ≠ result) :
    releaseStringCritical (later ++ ⟨dalvikP, n, result⟩ :: charsList) heap native jstr result =
      none := by
  obtain ⟨s, later, rfl⟩ := List.exists_cons_of_ne_nil hne
  have hfound : getDalvikChars (s :: later ++ ⟨dalvikP, n, result⟩ :: charsList) result =
      some ⟨dalvikP, n, result⟩ := by
    rw [getDalvikChars_eq]
    exact find?_behind hlater rfl
  have hfreed : freesEntry result (s :: later ++ ⟨dalvikP, n, result⟩ :: charsList) := by
    have hs := hlater s List.mem_cons_self
    cases later <;> exact hs
  rw [releaseStringCritical, hfound]
  simpa using fun _ _ _ _ => hfreed

/-- What is at `dalvikP` after a release: the message, taken for characters. -/
theorem callReleaseStringCritical_apply {call : JniCall} (behind vm : Mem)
    (hlength : call.length = 12 + 4 * ((n + 1) / 2)) (h₀ : word call.paramData 0 = n)
    (h₁ : word call.paramData (2 + (n + 1) / 2) = dalvikP) {i : ℕ} (hi : i < 2 * n) :
    callReleaseStringCritical (replydata call behind) vm (dalvikP + i) =
      call.paramData (4 + i) := by
  have hn : word (replydata call behind) 0 = n := by rw [word_replydata behind (by omega), h₀]
  have hdalvik : word (replydata call behind) (2 + (n + 1) / 2) = dalvikP := by
    rw [word_replydata behind (by omega), h₁]
  rw [callReleaseStringCritical, hn, hdalvik, Mem.blit_apply_of_mem (by omega) (by omega),
    Nat.add_sub_cancel_left]
  exact if_pos (by omega)

/-- **Only empty strings are released as they are**, and only before those that were asked for
earlier. -/
theorem stringFaithful_iff (hp : dalvikP < 2 ^ 32) :
    StringFaithful n jstr dalvikP later vm ↔ n = 0 ∧ later = [] := by
  constructor
  · intro h
    -- a place where no other string is
    obtain ⟨result, hresult⟩ :=
      Infinite.exists_notMem_finset (later.map StringMap.wrapperP).toFinset
    have hkeys : ∀ s ∈ later, s.wrapperP ≠ result := by
      intro s hs heq
      exact hresult (List.mem_toFinset.mpr (List.mem_map.mpr ⟨s, hs, heq⟩))
    obtain ⟨cb, hcb, -, hrelease⟩ := h Mem.zero Mem.zero Mem.zero [] result 0 hkeys
    have hfits : 2 * (8 + 2 * n) < 2 ^ 31 := by
      by_contra hover
      rw [callGetStringCritical, if_pos (by omega)] at hcb
      cases hcb
    obtain ⟨cb', hcb', hlength, h₀, h₁, -⟩ := callGetStringCritical_eq Mem.zero vm 0 hp hfits
    obtain rfl : cb' = cb := Option.some.inj (hcb'.symm.trans hcb)
    obtain ⟨hentry, -⟩ := getStringCritical_eq Mem.zero Mem.zero [] result hlength h₀ h₁
    -- the last byte of zeros is taken from a heap of ones
    obtain ⟨call, rest, hcall, hbytes⟩ := hrelease (fun _ => 1) Mem.zero Mem.zero vm
    rw [hentry] at hcall
    have hlast : later = [] := by
      by_contra hne
      rw [releaseStringCritical_later _ _ _ _ _ hne hkeys] at hcall
      cases hcall
    refine ⟨?_, hlast⟩
    by_contra hn
    rw [hlast, List.nil_append] at hcall
    obtain ⟨call', rest', hcall', hlen, hw₀, hw₁, hdata⟩ := releaseStringCritical_eq
      (fun _ => 1) Mem.zero [] jstr result hp hfits
    rw [hcall', Option.some.injEq, Prod.mk.injEq] at hcall
    obtain ⟨rfl, -⟩ := hcall
    have hbyte := hbytes (2 * n - 1) (by omega)
    rw [callReleaseStringCritical_apply _ _ hlen hw₀ hw₁ (by omega), hdata _ (by omega),
      if_neg (by omega)] at hbyte
    exact absurd hbyte (by simp [Mem.zero])
  · rintro ⟨rfl, rfl⟩ heap behind native charsList result taint -
    obtain ⟨cb, hcb, hlength, h₀, h₁, -⟩ :=
      callGetStringCritical_eq (n := 0) heap vm taint hp (by decide)
    obtain ⟨hentry, -⟩ := getStringCritical_eq behind native charsList result hlength h₀ h₁
    refine ⟨cb, hcb, fun i hi => absurd hi (by omega), ?_⟩
    intro heap behind native vm
    obtain ⟨call, rest, hcall, -⟩ := releaseStringCritical_eq (n := 0) heap native
      charsList jstr result hp (by decide)
    rw [hentry, List.nil_append]
    exact ⟨call, rest, hcall, fun i hi => absurd hi (by omega)⟩

end Strings

/-! ## Arrays -/

/-- `sig[1]` of the type that `GetArrayType` gives. -/
def ElemType.letter : ElemType → Char
  | .boolean => 'Z'
  | .byte => 'B'
  | .char => 'C'
  | .short => 'S'
  | .int => 'I'
  | .long => 'J'
  | .float => 'F'
  | .double => 'D'

/-- `elementSize`. -/
def elementSize : Char → ℕ
  | 'B' => 4
  | 'C' => 4
  | 'S' => 4
  | 'I' => 4
  | 'J' => 4
  | 'F' => 4
  | 'L' => 8
  | 'D' => 8
  | _ => 0

/-- `callGetPrimitiveArrayCritical`, with the pointer and the length that the virtual machine
gives; none where the size overflows an `int`. -/
def callGetPrimitiveArrayCritical (heap vm : Mem) (sig₁ : Char) (result len : ℕ) :
    Option Callback :=
  let arraysize := len * elementSize sig₁
  let size := arraysize + 4 + 4
  if 2 ^ 31 ≤ size then none
  else
    let idata := setWord heap 0 arraysize
    let idata := setWord idata 1 result
    some ⟨size, 0, idata.blit 8 arraysize vm result⟩

/-- `arrayList_t`, without the link. -/
structure ArrayEntry where
  jarr : ℕ
  length : ℕ
  dalvikP : ℕ
  deriving DecidableEq, Repr

/-- `addArray`. -/
def addArray (arrayList : List ArrayEntry) (jarr length dalvikP : ℕ) : List ArrayEntry :=
  ⟨jarr, length, dalvikP⟩ :: arrayList

/-- `getArrayLength`; the walk stops at the last entry at the latest. -/
def getArrayLength : List ArrayEntry → ℕ → Option ArrayEntry
  | [], _ => none
  | [s], jarr => if s.jarr = jarr then some s else none
  | s :: next :: rest, jarr =>
      if s.jarr = jarr then some s else getArrayLength (next :: rest) jarr

/-- `GetPrimitiveArrayCritical` from the answer on: the memory of the process and the list of
arrays.  `result` is the address that `malloc` returns. -/
def getPrimitiveArrayCritical (arrayList : List ArrayEntry) (native : Mem) (jarr result : ℕ)
    (idata : Mem) : Mem × List ArrayEntry :=
  let size := word idata 0
  (native.blit result size idata 8, addArray arrayList jarr size (word idata 1))

/-- `ReleasePrimitiveArrayCritical` up to the request, if it makes one; none also where the
program reads through a null pointer. -/
def releasePrimitiveArrayCritical (arrayList : List ArrayEntry) (heap native : Mem)
    (jarr array mode : ℕ) : Option JniCall :=
  if mode = 1 then none
  else do
    let entry ← getArrayLength arrayList jarr
    let size := 4 + 4 + entry.length
    -- a negative size
    if 2 ^ 31 ≤ size then none
    else
      let data := setWord heap 0 jarr
      let data := setWord data 1 entry.length
      let data := setWord data 2 entry.dalvikP
      -- up to four bytes behind the `size` that were allocated
      let data := data.blit 12 entry.length native array
      some ⟨66, size, 0, data⟩

/-- `callReleasePrimitiveArrayCritical`: the memory of the virtual machine. -/
def callReleasePrimitiveArrayCritical (idata vm : Mem) : Mem :=
  let arraysize := word idata 1
  let dalvikP := word idata 2
  vm.blit dalvikP arraysize idata 12

/-- The native code finds the bytes of the array at `dalvikP` in its copy, and what it has there
when it releases the array with mode 0 is what is at `dalvikP` then, whatever other arrays are
held. -/
def ArrayFaithful (t : ElemType) (n jarr dalvikP : ℕ) (vm : Mem) : Prop :=
  ∀ heap behind native arrayList result, ∃ cb,
    callGetPrimitiveArrayCritical heap vm t.letter dalvikP n = some cb ∧
    let held := getPrimitiveArrayCritical arrayList native jarr result (cb.received behind)
    (∀ i < n * t.size, held.1 (result + i) = vm (dalvikP + i)) ∧
    ∀ (later : List ArrayEntry) heap behind native vm, (∀ entry ∈ later, entry.jarr ≠ jarr) →
      ∃ call, releasePrimitiveArrayCritical (later ++ held.2) heap native jarr result 0 =
          some call ∧
        ∀ i < n * t.size, callReleasePrimitiveArrayCritical (replydata call behind) vm
          (dalvikP + i) = native (result + i)

section Arrays

variable {heap behind native vm : Mem} {arrayList later : List ArrayEntry} {sig₁ : Char}
  {t : ElemType} {n size jarr dalvikP result : ℕ}

theorem elementSize_letter (t : ElemType) : elementSize t.letter =
    if t = .boolean then 0 else if t = .double then 8 else 4 := by cases t <;> rfl

theorem getArrayLength_eq (arrayList : List ArrayEntry) (jarr : ℕ) :
    getArrayLength arrayList jarr = arrayList.find? (fun s => s.jarr = jarr) := by
  induction arrayList with
  | nil => rfl
  | cons s rest ih =>
      rw [List.find?_cons, ← ih]
      cases rest <;> by_cases hs : s.jarr = jarr <;> simp [getArrayLength, hs]

variable (heap vm sig₁) in
/-- The answer for an array. -/
theorem callGetPrimitiveArrayCritical_eq (hp : dalvikP < 2 ^ 32)
    (hfits : 8 + n * elementSize sig₁ < 2 ^ 31) : ∃ cb,
    callGetPrimitiveArrayCritical heap vm sig₁ dalvikP n = some cb ∧
      cb.length = 8 + n * elementSize sig₁ ∧ word cb.rawdata 0 = n * elementSize sig₁ ∧
      word cb.rawdata 1 = dalvikP ∧
      ∀ i < n * elementSize sig₁, cb.rawdata (8 + i) = vm (dalvikP + i) := by
  generalize harraysize : n * elementSize sig₁ = arraysize at *
  have hword : ∀ k < 2, word ((setWord (setWord heap 0 arraysize) 1 dalvikP).blit 8 arraysize vm
      dalvikP) k = word (setWord (setWord heap 0 arraysize) 1 dalvikP) k :=
    fun k hk => Mem.load_blit_of_disjoint _ (Or.inl (by omega))
  rw [callGetPrimitiveArrayCritical]
  simp only [harraysize]
  rw [if_neg (by omega)]
  refine ⟨_, rfl, by simp only; omega, ?_, ?_, ?_⟩ <;> simp only
  · rw [hword 0 (by decide), word_setWord_of_ne _ _ (by decide), word_setWord _ _ (by omega)]
  · rw [hword 1 (by decide), word_setWord _ _ hp]
  · intro i hi
    rw [Mem.blit_apply_of_mem (by omega) (by omega), Nat.add_sub_cancel_left]

variable (behind native arrayList jarr result) in
/-- The copy of an array, and its entry in the list. -/
theorem getPrimitiveArrayCritical_eq {cb : Callback} (hlength : cb.length = 8 + size)
    (h₀ : word cb.rawdata 0 = size) (h₁ : word cb.rawdata 1 = dalvikP) :
    getPrimitiveArrayCritical arrayList native jarr result (cb.received behind) =
      (native.blit result size (cb.received behind) 8, ⟨jarr, size, dalvikP⟩ :: arrayList) := by
  have hword : ∀ k < 2, word (cb.received behind) k = word cb.rawdata k :=
    fun k hk => Mem.load_congr fun i hi => if_pos (by omega)
  unfold getPrimitiveArrayCritical
  simp only [hword 0 (by decide), hword 1 (by decide), h₀, h₁]
  rfl

variable (heap native arrayList result) in
/-- The message for a released array: the bytes start behind three words, and the length counts
two. -/
theorem releasePrimitiveArrayCritical_eq (hp : dalvikP < 2 ^ 32)
    (hfits : 8 + size < 2 ^ 31) (hlater : ∀ entry ∈ later, entry.jarr ≠ jarr) : ∃ call,
    releasePrimitiveArrayCritical (later ++ ⟨jarr, size, dalvikP⟩ :: arrayList) heap native jarr
        result 0 = some call ∧
      call.length = 8 + size ∧ word call.paramData 1 = size ∧ word call.paramData 2 = dalvikP ∧
      ∀ i < size, call.paramData (12 + i) = native (result + i) := by
  have hfound : getArrayLength (later ++ ⟨jarr, size, dalvikP⟩ :: arrayList) jarr =
      some ⟨jarr, size, dalvikP⟩ := by
    rw [getArrayLength_eq]
    exact find?_behind hlater rfl
  rw [releasePrimitiveArrayCritical, if_neg (by decide), hfound]
  simp only [Option.bind_eq_bind, Option.bind_some]
  rw [if_neg (by omega)]
  refine ⟨_, rfl, by simp only, ?_, ?_, ?_⟩ <;> simp only
  · have hblit : ∀ data : Mem, word (data.blit 12 size native result) 1 = word data 1 :=
      fun data => Mem.load_blit_of_disjoint _ (Or.inl (by omega))
    rw [hblit, word_setWord_of_ne _ _ (by decide), word_setWord _ _ (by omega)]
  · have hblit : ∀ data : Mem, word (data.blit 12 size native result) 2 = word data 2 :=
      fun data => Mem.load_blit_of_disjoint _ (Or.inl (by omega))
    rw [hblit, word_setWord _ _ hp]
  · intro i hi
    rw [Mem.blit_apply_of_mem (by omega) (by omega), Nat.add_sub_cancel_left]

/-- What a release stores at `dalvikP`: the last four bytes of the array come from behind the
message. -/
theorem callReleasePrimitiveArrayCritical_apply {call : JniCall} (behind vm : Mem)
    (hsize : 4 ≤ size) (hlength : call.length = 8 + size) (h₁ : word call.paramData 1 = size)
    (h₂ : word call.paramData 2 = dalvikP) (i : ℕ) :
    callReleasePrimitiveArrayCritical (replydata call behind) vm (dalvikP + i) =
      if i + 4 < size then call.paramData (12 + i)
      else if i < size then behind (12 + i) else vm (dalvikP + i) := by
  have hcount : word (replydata call behind) 1 = size := by
    rw [word_replydata behind (by omega), h₁]
  have hdalvik : word (replydata call behind) 2 = dalvikP := by
    rw [word_replydata behind (by omega), h₂]
  rw [callReleasePrimitiveArrayCritical, hcount, hdalvik]
  by_cases hi : i < size
  · rw [Mem.blit_apply_of_mem (by omega) (by omega), Nat.add_sub_cancel_left, if_pos hi]
    exact if_congr (by omega) rfl rfl
  · rw [Mem.blit_apply_of_not_mem (Or.inr (by omega)), if_neg (by omega), if_neg hi]

/-- An array survives when it is empty, or when what is moved for it reaches four bytes behind
its end. -/
theorem arrayFaithful_iff_sizes (hp : dalvikP < 2 ^ 32) :
    ArrayFaithful t n jarr dalvikP vm ↔ 8 + n * elementSize t.letter < 2 ^ 31 ∧
      (n = 0 ∨ n * t.size + 4 ≤ n * elementSize t.letter) := by
  have hbytes : n = 0 ↔ n * t.size = 0 := by
    rw [Nat.mul_eq_zero, or_iff_left (Nat.ne_of_gt t.size_pos)]
  rw [hbytes]
  constructor
  · intro h
    have hfits : 8 + n * elementSize t.letter < 2 ^ 31 := by
      by_contra hover
      obtain ⟨cb, hcb, -⟩ := h Mem.zero Mem.zero Mem.zero [] 0
      rw [callGetPrimitiveArrayCritical, if_pos (by omega)] at hcb
      cases hcb
    refine ⟨hfits, ?_⟩
    -- native memory that differs from the virtual machine's behind what is copied
    obtain ⟨cb, hcb, hcopy, hrelease⟩ := h Mem.zero Mem.zero
      (fun _ => vm (dalvikP + n * elementSize t.letter) + 1) [] 0
    obtain ⟨cb', hcb', hlength, h₀, h₁, -⟩ :=
      callGetPrimitiveArrayCritical_eq Mem.zero vm t.letter hp hfits
    obtain rfl : cb' = cb := Option.some.inj (hcb'.symm.trans hcb)
    rw [getPrimitiveArrayCritical_eq _ _ _ _ _ hlength h₀ h₁] at hcopy hrelease
    have hwords : 4 ∣ n * elementSize t.letter := by
      rw [elementSize_letter]
      exact Dvd.dvd.mul_left (by split_ifs <;> decide) n
    generalize n * elementSize t.letter = size at *
    by_contra hshort
    by_cases hless : size < n * t.size
    · have hbyte := hcopy size hless
      simp only at hbyte
      rw [Mem.blit_apply_of_not_mem (Or.inr (by omega))] at hbyte
      exact absurd hbyte (by simp)
    · -- zeros are released, and ones lie behind the message
      obtain ⟨call, hcall, hstored⟩ := hrelease [] Mem.zero (fun _ => 1) Mem.zero vm
        (List.forall_mem_nil _)
      obtain ⟨call', hcall', hlen, hw₁, hw₂, -⟩ := releasePrimitiveArrayCritical_eq Mem.zero
        Mem.zero [] 0 hp hfits (List.forall_mem_nil _)
      obtain rfl : call' = call := Option.some.inj (hcall'.symm.trans hcall)
      have hlast := hstored (n * t.size - 1) (by omega)
      rw [callReleasePrimitiveArrayCritical_apply _ _ (by omega) hlen hw₁ hw₂,
        if_neg (by omega), if_pos (by omega)] at hlast
      exact absurd hlast (by simp [Mem.zero])
  · rintro ⟨hfits, hroom⟩ heap behind native arrayList result
    obtain ⟨cb, hcb, hlength, h₀, h₁, hdata⟩ :=
      callGetPrimitiveArrayCritical_eq heap vm t.letter hp hfits
    refine ⟨cb, hcb, ?_⟩
    rw [getPrimitiveArrayCritical_eq _ _ _ _ _ hlength h₀ h₁]
    generalize n * elementSize t.letter = size at *
    refine ⟨fun i hi => ?_, fun later heap behind native vm hlater => ?_⟩
    · simp only
      rw [Mem.blit_apply_of_mem (by omega) (by omega), Nat.add_sub_cancel_left,
        ← hdata i (by omega)]
      exact if_pos (by omega)
    · obtain ⟨call, hcall, hlen, hw₁, hw₂, hsent⟩ :=
        releasePrimitiveArrayCritical_eq heap native arrayList result hp hfits hlater
      refine ⟨call, hcall, fun i hi => ?_⟩
      rw [callReleasePrimitiveArrayCritical_apply _ _ (by omega) hlen hw₁ hw₂,
        if_pos (by omega), hsent i (by omega)]

/-- **The arrays that survive** besides the empty ones are those of at least two bytes, characters
or shorts: `long`s are cut in half, `boolean`s are not moved at all, and of all others the last
four bytes are lost. -/
theorem arrayFaithful_iff (hp : dalvikP < 2 ^ 32) :
    ArrayFaithful t n jarr dalvikP vm ↔
      n = 0 ∨ (t = .byte ∨ t = .char ∨ t = .short) ∧ 2 ≤ n ∧ 8 + 4 * n < 2 ^ 31 := by
  rw [arrayFaithful_iff_sizes hp, elementSize_letter]
  cases t <;> simp only [ElemType.size, reduceCtorEq, if_true, if_false, or_false, or_true,
    true_and, false_and] <;> omega

end Arrays

end SystemExtras.Wrapper
