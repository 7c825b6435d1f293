import SystemExtras.Wrapper.Marshal

/-!
# Signatures of methods

The service remembers the signature of every method that native code looks up, and reads
the parameters off it when the method is called: `getNumParams` counts them,
`getMethodParamSize` adds up their sizes, and `PARAMS_FROM_ARGS` takes one argument after
the other from the stack.

All three look at one character at a time and know nothing of class names and arrays, so
what they see of the parameters are the type letters in their text, in whatever place:
`typeLetters`.  A float has no letter at all.  `parsesParams_iff` says that the three are
right exactly if these letters happen to be those of the parameters, and
`aligned_iff_plain` what that means for signatures without arrays of floats.
-/

namespace SystemExtras.Wrapper

/-! ## The code -/

/-- The loop of `getMethodParamSize`, which runs on past the end of a signature without a
closing bracket. -/
def paramSizes : List Char → Option ℕ
  | [] => none
  | c :: rest =>
      if c = ')' then some 0
      else if c ∈ ['L', 'Z', 'B', 'C', 'S', 'I'] then (paramSizes rest).map (· + 4)
      else if c ∈ ['D', 'J'] then (paramSizes rest).map (· + 8)
      else paramSizes rest

/-- `getMethodParamSize`; it returns `-1` for a method that is not registered. -/
def getMethodParamSize (sigList : SigList) (methodID : ℕ) : Option ℕ :=
  (getSignatureForMethod sigList methodID).bind paramSizes

/-- An argument on a `va_list`, with the bytes it takes there. -/
structure VaArg where
  width : ℕ
  value : ℕ
  deriving DecidableEq, Repr

/-- `va_arg`: the next argument and those behind it; none where there is no argument, or one of
another width. -/
def vaArg (width : ℕ) : List VaArg → Option (VaArg × List VaArg)
  | [] => none
  | a :: args => if a.width = width then some (a, args) else none

/-- The `va_arg`s of `PARAMS_FROM_ARGS`: the arguments that are taken, and those that are left. -/
def takeArgs : List Char → List VaArg → Option (List VaArg × List VaArg)
  | [], _ => none
  | c :: rest, args =>
      if c = ')' then some ([], args)
      else if c ∈ ['L', 'Z', 'B', 'C', 'S', 'I'] then do
        let (a, args) ← vaArg 4 args
        let (taken, left) ← takeArgs rest args
        some (a :: taken, left)
      else if c ∈ ['D', 'J'] then do
        let (a, args) ← vaArg 8 args
        let (taken, left) ← takeArgs rest args
        some (a :: taken, left)
      else takeArgs rest args

/-- The `jvalue` that is made of an argument. -/
def storeJvalue (data : Mem) (d2 : ℕ) (a : VaArg) : Mem :=
  if a.width = 4 then (data.store d2 4 a.value).store (d2 + 4) 4 0 else data.store d2 8 a.value

/-- The `jvalue`s of arguments, one behind the other. -/
def storeJvalues : List VaArg → Mem → ℕ → Mem
  | [], data, _ => data
  | a :: args, data, d2 => storeJvalues args (storeJvalue data d2 a) (d2 + 8)

theorem vaArg_eq_some {width : ℕ} {args : List VaArg} {r : VaArg × List VaArg} :
    vaArg width args = some r ↔ args = r.1 :: r.2 ∧ r.1.width = width := by
  cases args with
  | nil => exact iff_of_false nofun fun h => by cases h.1
  | cons a args =>
      rw [vaArg]
      split
      · rw [Option.some.injEq]
        constructor
        · rintro rfl
          exact ⟨rfl, ‹_›⟩
        · rintro ⟨h, -⟩
          cases h
          rfl
      · refine iff_of_false nofun ?_
        rintro ⟨h, hwidth⟩
        cases h
        exact absurd hwidth ‹_›

/-- One more argument is taken. -/
theorem takeOne_eq_some {width : ℕ} {args : List VaArg} {rest : List Char}
    {r : List VaArg × List VaArg} : (do
      let (a, args) ← vaArg width args
      let (taken, left) ← takeArgs rest args
      some (a :: taken, left)) = some r ↔
    ∃ a args' taken, args = a :: args' ∧ a.width = width ∧ r.1 = a :: taken ∧
      takeArgs rest args' = some (taken, r.2) := by
  simp only [Option.bind_eq_bind, Option.bind_eq_some_iff, vaArg_eq_some]
  constructor
  · rintro ⟨⟨a, args'⟩, ⟨hargs, hwidth⟩, ⟨taken, left⟩, htake, hr⟩
    cases hr
    exact ⟨a, args', taken, hargs, hwidth, rfl, htake⟩
  · rintro ⟨a, args', taken, hargs, hwidth, hr, htake⟩
    exact ⟨⟨a, args'⟩, ⟨hargs, hwidth⟩, ⟨taken, r.2⟩, htake, by rw [← hr]⟩

/-- `PARAMS_FROM_ARGS` copies the arguments that it takes. -/
theorem paramsFromArgs_of_takeArgs {sig : List Char} {args taken left : List VaArg}
    (h : takeArgs sig args = some (taken, left)) (data : Mem) (d2 : ℕ) :
    paramsFromArgs sig (args.map VaArg.value) data d2 = some (storeJvalues taken data d2) := by
  induction sig generalizing args taken data d2 with
  | nil => cases h
  | cons c rest ih =>
      rw [takeArgs] at h
      unfold paramsFromArgs
      split at h
      · cases h
        rw [if_pos ‹_›]
        rfl
      · rw [if_neg ‹_›]
        split at h
        · obtain ⟨a, args', taken', rfl, hwidth, htaken, htake⟩ := takeOne_eq_some.mp h
          obtain rfl : taken = a :: taken' := htaken
          rw [if_pos ‹_›, storeJvalues, storeJvalue, if_pos hwidth]
          exact ih htake _ _
        · rw [if_neg ‹_›]
          split at h
          · obtain ⟨a, args', taken', rfl, hwidth, htaken, htake⟩ := takeOne_eq_some.mp h
            obtain rfl : taken = a :: taken' := htaken
            rw [if_pos ‹_›, storeJvalues, storeJvalue, if_neg (by omega)]
            exact ih htake _ _
          · rw [if_neg ‹_›]
            exact ih h data d2

/-! ## Method descriptors -/

/-- A type of the grammar of descriptors. -/
inductive JType where
  | z
  | b
  | c
  | s
  | i
  | j
  | f
  | d
  | cls (name : List Char) (ends : ';' ∉ name)
  | array (elem : JType)
  deriving DecidableEq

namespace JType

/-- How a type is written. -/
def text : JType → List Char
  | .z => ['Z']
  | .b => ['B']
  | .c => ['C']
  | .s => ['S']
  | .i => ['I']
  | .j => ['J']
  | .f => ['F']
  | .d => ['D']
  | .cls name _ => 'L' :: (name ++ [';'])
  | .array elem => '[' :: elem.text

/-- The size of a parameter. -/
def size : JType → ℕ
  | .j => 8
  | .d => 8
  | _ => 4

/-- The bytes of an argument on a `va_list`, where a float is a double. -/
def vaWidth : JType → ℕ
  | .f => 8
  | t => t.size

end JType

/-- What an array is made of in the end; other types are made of themselves. -/
def JType.base : JType → JType
  | .array elem => elem.base
  | t => t

/-- No float, no array of floats or of types of eight bytes, and no class name with a type
letter. -/
structure JType.Plain (letter : Char → Prop) (t : JType) : Prop where
  float : t.base ≠ .f
  wide : t.base = .j ∨ t.base = .d → t.base = t
  name : ∀ name ends, t.base = .cls name ends → ∀ c ∈ name, ¬ letter c

/-- A method descriptor; a method without result has no return type. -/
structure Descriptor where
  params : List JType
  ret : Option JType
  deriving DecidableEq

/-- How the parameters are written. -/
def paramText (params : List JType) : List Char := params.flatMap JType.text

/-- How a descriptor is written. -/
def Descriptor.text (m : Descriptor) : List Char :=
  '(' :: (paramText m.params ++ ')' :: (m.ret.elim ['V'] JType.text))

/-- The arguments of a call, one for each parameter. -/
def Descriptor.Fits (m : Descriptor) (args : List VaArg) : Prop :=
  args.map VaArg.width = m.params.map JType.vaWidth

/-- With the descriptor recorded for a method, and any others before it and for other methods
after it, the parameters are counted and measured as the descriptor has them, and the arguments
of a call are taken one for each parameter. -/
def ParsesParams (m : Descriptor) : Prop :=
  ∀ (earlier later : SigList) (methodID : ℕ), (∀ s ∈ later, s.1 ≠ methodID) →
    let sigList := later ++ addSignatureForMethod earlier methodID m.text
    getSignatureForMethod sigList methodID = some m.text ∧
    getNumParams sigList methodID = some m.params.length ∧
    getMethodParamSize sigList methodID = some (m.params.map JType.size).sum ∧
    ∀ args, m.Fits args → takeArgs m.text args = some (args, [])

/-! ## What the scans see -/

/-- The bytes that a type letter stands for. -/
def letterWidth (c : Char) : Option ℕ :=
  if c ∈ ['L', 'Z', 'B', 'C', 'S', 'I'] then some 4
  else if c ∈ ['D', 'J'] then some 8
  else none

/-- What the type letters in front of the first closing bracket stand for. -/
def typeLetters (text : List Char) : List ℕ := (text.takeWhile (· ≠ ')')).filterMap letterWidth

/-- The type letters in the text of the parameters stand for the arguments, and no parameter
is a float. -/
def Descriptor.Aligned (m : Descriptor) : Prop :=
  typeLetters (paramText m.params) = m.params.map JType.vaWidth ∧ .f ∉ m.params

/-- Arguments of the given widths are taken. -/
def takeWidths : List ℕ → List VaArg → Option (List VaArg × List VaArg)
  | [], args => some ([], args)
  | width :: widths, args => do
      let (a, args) ← vaArg width args
      let (taken, left) ← takeWidths widths args
      some (a :: taken, left)

section Scans

variable {text rest : List Char} {c : Char}

theorem typeLetters_cons (hc : c ≠ ')') :
    typeLetters (c :: text) = (letterWidth c).toList ++ typeLetters text := by
  unfold typeLetters
  rw [List.takeWhile_cons_of_pos (by simpa using hc), List.filterMap_cons]
  cases letterWidth c <;> rfl

theorem typeLetters_close : typeLetters (')' :: text) = [] := rfl

/-- The letters of an integer or reference, of a wide type, and all other characters. -/
theorem letterWidth_cases (c : Char) :
    (c ∈ ['L', 'Z', 'B', 'C', 'S', 'I'] ∧ letterWidth c = some 4) ∨
      (c ∉ ['L', 'Z', 'B', 'C', 'S', 'I'] ∧ c ∈ ['D', 'J'] ∧ letterWidth c = some 8) ∨
      (c ∉ ['L', 'Z', 'B', 'C', 'S', 'I'] ∧ c ∉ ['D', 'J'] ∧ letterWidth c = none) := by
  unfold letterWidth
  by_cases hint : c ∈ ['L', 'Z', 'B', 'C', 'S', 'I']
  · exact Or.inl ⟨hint, if_pos hint⟩
  · by_cases hwide : c ∈ ['D', 'J']
    · exact Or.inr (Or.inl ⟨hint, hwide, by rw [if_neg hint, if_pos hwide]⟩)
    · exact Or.inr (Or.inr ⟨hint, hwide, by rw [if_neg hint, if_neg hwide]⟩)

/-- `getNumParams` counts the letters. -/
theorem countParams_eq (text rest : List Char) :
    countParams (text ++ ')' :: rest) = some (typeLetters text).length := by
  induction text with
  | nil => rfl
  | cons c text ih =>
      rw [List.cons_append, countParams, ih]
      by_cases hc : c = ')'
      · rw [if_pos hc, hc, typeLetters_close]
        rfl
      · have hall : c ∈ ['L', 'Z', 'B', 'C', 'S', 'I', 'D', 'J'] ↔
            c ∈ ['L', 'Z', 'B', 'C', 'S', 'I'] ∨ c ∈ ['D', 'J'] := by
          rw [← List.mem_append]
          rfl
        rw [if_neg hc, typeLetters_cons hc]
        rcases letterWidth_cases c with ⟨hmem, hw⟩ | ⟨-, hmem, hw⟩ | ⟨hint, hwide, hw⟩
        · rw [if_pos (hall.mpr (Or.inl hmem)), hw, Option.map_some]
          rfl
        · rw [if_pos (hall.mpr (Or.inr hmem)), hw, Option.map_some]
          rfl
        · rw [if_neg fun h => (hall.mp h).elim hint hwide, hw]
          rfl

/-- `getMethodParamSize` adds up what they stand for. -/
theorem paramSizes_eq (text rest : List Char) :
    paramSizes (text ++ ')' :: rest) = some (typeLetters text).sum := by
  induction text with
  | nil => rfl
  | cons c text ih =>
      rw [List.cons_append, paramSizes, ih]
      by_cases hc : c = ')'
      · rw [if_pos hc, hc, typeLetters_close]
        rfl
      · rw [if_neg hc, typeLetters_cons hc]
        rcases letterWidth_cases c with ⟨hmem, hw⟩ | ⟨hint, hmem, hw⟩ | ⟨hint, hwide, hw⟩
        · rw [if_pos hmem, hw, Option.map_some, Nat.add_comm]
          rfl
        · rw [if_neg hint, if_pos hmem, hw, Option.map_some, Nat.add_comm]
          rfl
        · rw [if_neg hint, if_neg hwide, hw]
          rfl

/-- `PARAMS_FROM_ARGS` takes an argument for each of them. -/
theorem takeArgs_eq (text rest : List Char) (args : List VaArg) :
    takeArgs (text ++ ')' :: rest) args = takeWidths (typeLetters text) args := by
  induction text generalizing args with
  | nil => rfl
  | cons c text ih =>
      rw [List.cons_append, takeArgs]
      by_cases hc : c = ')'
      · rw [if_pos hc, hc, typeLetters_close]
        rfl
      · rw [if_neg hc, typeLetters_cons hc]
        rcases letterWidth_cases c with ⟨hmem, hw⟩ | ⟨hint, hmem, hw⟩ | ⟨hint, hwide, hw⟩
        · rw [if_pos hmem, hw]
          simp only [ih]
          rfl
        · rw [if_neg hint, if_pos hmem, hw]
          simp only [ih]
          rfl
        · rw [if_neg hint, if_neg hwide, hw, ih]
          rfl

theorem takeWidths_eq_iff {widths : List ℕ} {args : List VaArg} :
    takeWidths widths args = some (args, []) ↔ widths = args.map VaArg.width := by
  induction widths generalizing args with
  | nil =>
      cases args with
      | nil => exact iff_of_true rfl rfl
      | cons a args => exact iff_of_false (by simp [takeWidths]) (by simp)
  | cons width widths ih =>
      simp only [takeWidths, Option.bind_eq_bind, Option.bind_eq_some_iff, vaArg_eq_some]
      constructor
      · rintro ⟨⟨a, args'⟩, ⟨rfl, rfl⟩, ⟨taken, left⟩, htake, heq⟩
        cases heq
        rw [List.map_cons, ih.mp htake]
      · intro h
        cases args with
        | nil => cases h
        | cons a args' =>
            rw [List.map_cons, List.cons.injEq] at h
            exact ⟨⟨a, args'⟩, ⟨rfl, h.1.symm⟩, ⟨args', []⟩, ih.mpr h.2, rfl⟩

/-- The most recent signature of a method is found behind those of other methods. -/
theorem getSignatureForMethod_recent (earlier : SigList) {later : SigList} {methodID : ℕ}
    (h : ∀ s ∈ later, s.1 ≠ methodID) (sig : List Char) :
    getSignatureForMethod (later ++ addSignatureForMethod earlier methodID sig) methodID =
      some sig := by
  have hlater : later.find? (fun s => s.1 = methodID) = none :=
    List.find?_eq_none.mpr fun s hs => by simpa using h s hs
  rw [getSignatureForMethod, List.find?_append, hlater, addSignatureForMethod, Option.none_or,
    List.find?_cons_of_pos (by simp), Option.map_some]

theorem JType.sum_vaWidth (params : List JType) :
    (params.map JType.vaWidth).sum = (params.map JType.size).sum + 4 * params.count .f := by
  induction params with
  | nil => rfl
  | cons t params ih =>
      rw [List.map_cons, List.sum_cons, List.map_cons, List.sum_cons, ih, List.count_cons]
      cases t <;> simp [JType.vaWidth, JType.size] <;> omega

end Scans

/-! ## When the scans are right -/

section Aligned

variable {m : Descriptor} {t : JType}

/-- The three scans are right when the letters are those of the arguments; that the sizes are
right as well excludes floats. -/
theorem parsesParams_iff_aligned : ParsesParams m ↔ m.Aligned := by
  have hopen : ∀ text, typeLetters ('(' :: text) = typeLetters text := fun text => by
    rw [typeLetters_cons (by decide)]
    rfl
  have hcount : countParams m.text = some (typeLetters (paramText m.params)).length := by
    rw [← hopen]
    exact countParams_eq ('(' :: paramText m.params) _
  have hsizes : paramSizes m.text = some (typeLetters (paramText m.params)).sum := by
    rw [← hopen]
    exact paramSizes_eq ('(' :: paramText m.params) _
  have htake : ∀ args, takeArgs m.text args =
      takeWidths (typeLetters (paramText m.params)) args := by
    intro args
    rw [← hopen]
    exact takeArgs_eq ('(' :: paramText m.params) _ args
  have hsum := JType.sum_vaWidth m.params
  constructor
  · intro h
    obtain ⟨hsig, -, hsize, hargs⟩ := h [] [] 0 (by simp)
    have hwidths : typeLetters (paramText m.params) = m.params.map JType.vaWidth := by
      have hfits : m.Fits (m.params.map fun t => ⟨t.vaWidth, 0⟩) := by
        rw [Descriptor.Fits, List.map_map]
        rfl
      have hall := hargs _ hfits
      rw [htake, takeWidths_eq_iff] at hall
      exact hall.trans hfits
    refine ⟨hwidths, ?_⟩
    -- a float is counted with four bytes and takes eight
    rw [getMethodParamSize, hsig, Option.bind_some, hsizes, hwidths, Option.some.injEq] at hsize
    exact List.count_eq_zero.mp (by omega)
  · rintro ⟨hwidths, hfloat⟩ earlier later methodID hlater
    have hsig := getSignatureForMethod_recent earlier hlater m.text
    refine ⟨hsig, ?_, ?_, ?_⟩
    · rw [getNumParams, hsig, Option.bind_some, hcount, hwidths, List.length_map]
    · rw [getMethodParamSize, hsig, Option.bind_some, hsizes, hwidths, hsum,
        List.count_eq_zero.mpr hfloat, Nat.mul_zero, Nat.add_zero]
    · intro args hfits
      rw [htake, takeWidths_eq_iff, hwidths]
      exact hfits.symm

/-- What the type letters in the text of a type stand for. -/
def JType.letters : JType → List ℕ
  | .z => [4]
  | .b => [4]
  | .c => [4]
  | .s => [4]
  | .i => [4]
  | .j => [8]
  | .f => []
  | .d => [8]
  | .cls name _ => 4 :: name.filterMap letterWidth
  | .array elem => elem.letters

/-- A class name has no closing bracket. -/
def JType.Bracketless (t : JType) : Prop := ∀ name ends, t.base = .cls name ends → ')' ∉ name

theorem typeLetters_append {name : List Char} (h : ')' ∉ name) (rest : List Char) :
    typeLetters (name ++ rest) = name.filterMap letterWidth ++ typeLetters rest := by
  induction name with
  | nil => rfl
  | cons c name ih =>
      have hc : c ≠ ')' := (List.ne_of_not_mem_cons h).symm
      rw [List.cons_append, typeLetters_cons hc, ih (List.not_mem_of_not_mem_cons h),
        List.filterMap_cons]
      cases letterWidth c <;> rfl

theorem typeLetters_text (h : t.Bracketless) (rest : List Char) :
    typeLetters (t.text ++ rest) = t.letters ++ typeLetters rest := by
  induction t with
  | cls name ends =>
      have hname := h name ends rfl
      rw [JType.text, JType.letters, List.cons_append, typeLetters_cons (by decide),
        List.append_assoc, typeLetters_append hname, List.singleton_append,
        typeLetters_cons (by decide)]
      rfl
  | array elem ih =>
      rw [JType.text, JType.letters, List.cons_append, typeLetters_cons (by decide), ih h]
      rfl
  | _ => rfl

theorem typeLetters_paramText {params : List JType} (h : ∀ t ∈ params, t.Bracketless) :
    typeLetters (paramText params) = params.flatMap JType.letters := by
  induction params with
  | nil => rfl
  | cons t params ih =>
      rw [paramText, List.flatMap_cons, typeLetters_text (h t List.mem_cons_self),
        List.flatMap_cons]
      exact congrArg _ (ih fun u hu => h u (List.mem_cons_of_mem _ hu))

theorem JType.base_ne_array (t elem : JType) : t.base ≠ .array elem := by
  induction t with
  | array _ ih => exact ih
  | _ => exact nofun

theorem JType.letters_base (t : JType) : t.base.letters = t.letters := by
  induction t with
  | array _ ih => exact ih
  | _ => rfl

theorem JType.letters_ne_nil (h : t.base ≠ .f) : t.letters ≠ [] := by
  induction t with
  | f => exact absurd rfl h
  | array _ ih => exact ih h
  | _ => exact nofun

/-- The letters of a type are those of its argument if it is plain. -/
theorem JType.letters_eq_iff (h : t.base ≠ .f) :
    t.letters = [t.vaWidth] ↔ t.Plain fun c => letterWidth c ≠ none := by
  have hname : ∀ (name : List Char), 4 :: name.filterMap letterWidth = [4] ↔
      ∀ c ∈ name, letterWidth c = none := by
    intro name
    rw [List.cons.injEq, List.filterMap_eq_nil_iff]
    exact and_iff_right rfl
  have hplain : (t.Plain fun c => letterWidth c ≠ none) ↔
      (t.base = .j ∨ t.base = .d → t.base = t) ∧
        ∀ name ends, t.base = .cls name ends → ∀ c ∈ name, letterWidth c = none := by
    constructor
    · rintro ⟨-, hwide, hcls⟩
      exact ⟨hwide, fun name ends hbase c hc => not_not.mp (hcls name ends hbase c hc)⟩
    · rintro ⟨hwide, hcls⟩
      exact ⟨h, hwide, fun name ends hbase c hc => not_not.mpr (hcls name ends hbase c hc)⟩
  rw [hplain]
  cases t with
  | f => exact absurd rfl h
  | cls name ends =>
      refine (hname name).trans ⟨fun hall => ⟨nofun, ?_⟩, fun hall => hall.2 name ends rfl⟩
      intro name' _ hbase
      obtain rfl := (JType.cls.inj hbase)
      exact hall
  | array elem =>
      show elem.letters = [4] ↔ (elem.base = .j ∨ elem.base = .d → elem.base = .array elem) ∧
        ∀ name ends, elem.base = .cls name ends → ∀ c ∈ name, letterWidth c = none
      have hbase : elem.base ≠ .f := h
      rw [← elem.letters_base]
      cases hb : elem.base with
      | f => exact absurd hb hbase
      | j => exact iff_of_false (by decide) fun hall => nomatch hall.1 (Or.inl rfl)
      | d => exact iff_of_false (by decide) fun hall => nomatch hall.1 (Or.inr rfl)
      | array inner => exact absurd hb (elem.base_ne_array inner)
      | cls name ends =>
          refine (hname name).trans ⟨fun hall => ⟨nofun, ?_⟩, fun hall => hall.2 name ends rfl⟩
          intro name' _ hcls
          obtain rfl := (JType.cls.inj hcls)
          exact hall
      | _ => exact iff_of_true rfl ⟨nofun, nofun⟩
  | _ => exact iff_of_true rfl ⟨fun _ => rfl, nofun⟩

/-- Where every element gives something, nothing can make up for one that gives too much. -/
theorem flatMap_eq_map_iff {α : Type*} {f : α → List ℕ} {g : α → ℕ} {l : List α}
    (hne : ∀ a ∈ l, f a ≠ []) : l.flatMap f = l.map g ↔ ∀ a ∈ l, f a = [g a] := by
  have hlong : ∀ l : List α, (∀ a ∈ l, f a ≠ []) → l.length ≤ (l.flatMap f).length := by
    intro l
    induction l with
    | nil => exact fun _ => le_rfl
    | cons a l ih =>
        intro hne
        have hhead := List.length_pos_of_ne_nil (hne a List.mem_cons_self)
        have htail := ih fun b hb => hne b (List.mem_cons_of_mem _ hb)
        rw [List.flatMap_cons, List.length_append, List.length_cons]
        omega
  induction l with
  | nil => exact iff_of_true rfl (by simp)
  | cons a l ih =>
      have hne' : ∀ b ∈ l, f b ≠ [] := fun b hb => hne b (List.mem_cons_of_mem _ hb)
      rw [List.flatMap_cons, List.map_cons, List.forall_mem_cons]
      refine Iff.trans ?_ (and_congr_right' (ih hne'))
      constructor
      · intro h
        obtain ⟨w, extra, hw⟩ := List.exists_cons_of_ne_nil (hne a List.mem_cons_self)
        rw [hw, List.cons_append, List.cons.injEq] at h
        obtain ⟨rfl, htail⟩ := h
        have hlen := congrArg List.length htail
        have hrest := hlong l hne'
        rw [List.length_append, List.length_map] at hlen
        have hextra : extra = [] := List.length_eq_zero_iff.mp (by omega)
        rw [hextra, List.nil_append] at htail
        exact ⟨by rw [hw, hextra], htail⟩
      · rintro ⟨ha, hrest⟩
        rw [ha, hrest]
        rfl

/-- A descriptor without arrays of floats, whose class names have no closing bracket, is
aligned when all its parameters are plain. -/
theorem aligned_iff_plain (hfloats : ∀ t ∈ m.params, t.base = .f → t = .f)
    (hnames : ∀ t ∈ m.params, t.Bracketless) :
    m.Aligned ↔ ∀ t ∈ m.params, t.Plain fun c => letterWidth c ≠ none := by
  unfold Descriptor.Aligned
  rw [typeLetters_paramText hnames]
  constructor
  · rintro ⟨hletters, hfloat⟩ t ht
    have hbase : ∀ t ∈ m.params, t.base ≠ .f := by
      intro t ht hf
      rw [hfloats t ht hf] at ht
      exact hfloat ht
    have hone := (flatMap_eq_map_iff fun t ht => JType.letters_ne_nil (hbase t ht)).mp hletters
    exact (JType.letters_eq_iff (hbase t ht)).mp (hone t ht)
  · intro hplain
    have hbase : ∀ t ∈ m.params, t.base ≠ .f := fun t ht => (hplain t ht).float
    refine ⟨?_, fun hf => hbase .f hf rfl⟩
    rw [flatMap_eq_map_iff fun t ht => JType.letters_ne_nil (hbase t ht)]
    exact fun t ht => (JType.letters_eq_iff (hbase t ht)).mpr (hplain t ht)

/-- **When parameters are parsed.**  The type letters in the text of the parameters, up to the
first closing bracket, stand for the arguments one by one, and no parameter is a float.  Where
no parameter is an array of floats and no class name has a closing bracket, that is: no
parameter is a float or an array of types of eight bytes, or has a class name with a type
letter. -/
theorem parsesParams_iff (m : Descriptor) :
    (ParsesParams m ↔ m.Aligned) ∧
      ((∀ t ∈ m.params, t.base = .f → t = .f) → (∀ t ∈ m.params, t.Bracketless) →
        (ParsesParams m ↔ ∀ t ∈ m.params, t.Plain fun c => letterWidth c ≠ none)) :=
  ⟨parsesParams_iff_aligned, fun hfloats hnames =>
    parsesParams_iff_aligned.trans (aligned_iff_plain hfloats hnames)⟩

/-- `(IJ[I)V`. -/
def intArray : Descriptor := ⟨[.i, .j, .array .i], none⟩

theorem parsesParams_iff_intArray : ParsesParams intArray := by
  refine ((parsesParams_iff intArray).2 ?_ ?_).mpr fun t ht => ?_
  · simp [intArray, JType.base]
  · simp [intArray, JType.Bracketless, JType.base]
  · obtain rfl | rfl | rfl : t = .i ∨ t = .j ∨ t = .array .i := by simpa [intArray] using ht
    all_goals exact ⟨by simp [JType.base], by simp [JType.base], by simp [JType.base]⟩

/-- `(Ljava/lang/String;)V` has two parameters for the scans. -/
theorem not_parsesParams_string : ¬ ParsesParams
    ⟨[.cls ['j', 'a', 'v', 'a', '/', 'l', 'a', 'n', 'g', '/', 'S', 't', 'r', 'i', 'n', 'g']
      (by decide)], none⟩ := by
  intro h
  obtain ⟨-, hcount, -, -⟩ := h [] [] 0 (by simp)
  exact absurd hcount (by decide)

/-- The letter in the class name makes up for the one that the array does not have. -/
example : Descriptor.Aligned ⟨[.array .f, .cls ['S'] (by decide)], none⟩ := by
  unfold Descriptor.Aligned
  decide

end Aligned

end SystemExtras.Wrapper
