import Mathlib.Data.List.TakeWhile
import SystemExtras.Fat.Import

/-!
# Converted names

`convert_name` writes the 8.3 form of a name into an item.  It does not always write
the 8.3 name: a name without a dot is not cut after eight bytes, and behind the
extension it copies the null byte that ends the name, which takes the place of a
space unless the extension is as long as it can be.  `convertedName_eq_iff` says for
which names it gets it right, and `convertsRight_iff` for which it also accepts the
names of the language alone and stays within the eleven bytes.
-/

namespace SystemExtras.Fat

/-! ## Converted names -/

/-- Where `convert_name` takes the extension of a name it accepts to begin. -/
def nameDot (longName : List UInt8) : Option ℕ := do
  let dot ← findDot longName 0 none
  if dot.any (8 < ·) then none
  else if dot.any fun d => 3 < longName.length - (d + 1) then none
  else some (dot.getD longName.length)

/-- What `convert_name` leaves at `short_name`. -/
def writeName (shortName : Mem) (longName : List UInt8) (dot : ℕ) : Mem :=
  ((shortName.fill 0 11 32).storeBytes 0 ((longName.take dot).map toupper)).storeBytes 8
    ((((longName ++ [0]).drop (dot + 1)).take (longName.length - dot)).map toupper)

theorem convertName_eq (shortName : Mem) (longName : List UInt8) :
    convertName shortName longName = (nameDot longName).map (writeName shortName longName) := by
  unfold convertName nameDot
  cases findDot longName 0 none with
  | none => rfl
  | some dot =>
      simp only [Option.bind_eq_bind, Option.bind_some]
      split
      · rfl
      · split
        · rfl
        · rfl

/-- `convert_name` accepts the name. -/
def convertible (name : List UInt8) : Bool := (nameDot name).isSome

/-- The name that `convert_name` makes of a name it accepts. -/
def convertedName (name : List UInt8) : List UInt8 :=
  (writeName Mem.zero name ((nameDot name).getD 0)).bytes 0 11

theorem writeName_bytes (shortName : Mem) (longName : List UInt8) (dot : ℕ) :
    (writeName shortName longName dot).bytes 0 11 = (writeName Mem.zero longName dot).bytes 0 11 := by
  apply List.map_congr_left
  intro i hi
  rw [List.mem_range] at hi
  unfold writeName Mem.storeBytes Mem.fill
  simp only [Nat.zero_le, Nat.zero_add, hi, and_self, if_true]

theorem convertName_of_not_convertible {name : List UInt8} (h : ¬ convertible name)
    (shortName : Mem) : convertName shortName name = none := by
  rw [convertName_eq, Option.map_eq_none_iff]
  simpa [convertible] using h

theorem convertName_of_convertible {name : List UInt8} (h : convertible name) (shortName : Mem) :
    ∃ m, convertName shortName name = some m ∧ m.bytes 0 11 = convertedName name := by
  obtain ⟨dot, hdot⟩ := Option.isSome_iff_exists.mp h
  refine ⟨writeName shortName name dot, ?_, ?_⟩
  · rw [convertName_eq, hdot, Option.map_some]
  · rw [writeName_bytes, convertedName, hdot, Option.getD_some]

/-! ## 8.3 names -/

/-- The part of a name in front of its dot. -/
def baseOf (name : List UInt8) : List UInt8 := name.takeWhile (· ≠ 46)

/-- The part of a name behind its dot. -/
def extensionOf (name : List UInt8) : List UInt8 := (name.dropWhile (· ≠ 46)).drop 1

/-- The 8.3 name: the base in the first eight bytes and the extension in the last three, both in
upper case and with spaces behind them. -/
def shortName (name : List UInt8) : List UInt8 :=
  (((Mem.zero.fill 0 11 32).storeBytes 0 (((baseOf name).take 8).map toupper)).storeBytes 8
    (((extensionOf name).take 3).map toupper)).bytes 0 11

/-- A name that has room for its base, and none to spare in its extension if there is a dot. -/
def ProperName (name : List UInt8) : Prop :=
  (baseOf name).length ≤ 8 ∧ (46 ∈ name → (extensionOf name).length = 3)

instance (name : List UInt8) : Decidable (ProperName name) := inferInstanceAs (Decidable (_ ∧ _))

theorem toupper_ne_space {c : UInt8} (h : validChar c) : toupper c ≠ 32 := by
  unfold toupper
  split
  · rename_i hlower
    intro hspace
    have hplus := congrArg (· + 32) hspace
    obtain rfl : c = 64 := by simpa using hplus
    exact absurd hlower (by decide)
  · rintro rfl
    exact absurd h (by decide)

theorem ne_dot_of_validChar {c : UInt8} (h : validChar c) : c ≠ 46 := by
  rintro rfl
  exact absurd h (by decide)

theorem findDot_of_dot {d : ℕ} : ∀ {l : List UInt8} {i : ℕ} {r : Option ℕ},
    findDot l i (some d) = some r → r = some d ∧ ∀ c ∈ l, validChar c := by
  intro l
  induction l with
  | nil => exact fun {i r} h => ⟨(Option.some.inj h).symm, fun c hc => absurd hc List.not_mem_nil⟩
  | cons c l ih =>
      intro i r h
      rw [findDot] at h
      split at h
      · cases h
      · split at h
        · cases h
        · rename_i hvalid
          obtain ⟨hr, hall⟩ := ih h
          exact ⟨hr, List.forall_mem_cons.mpr ⟨by simpa using hvalid, hall⟩⟩

/-- What the loop of `convert_name` has found at its end. -/
theorem findDot_spec : ∀ {l : List UInt8} {i : ℕ} {r : Option ℕ}, findDot l i none = some r →
    (r = none ∧ ∀ c ∈ l, validChar c) ∨
      ∃ base extension, l = base ++ 46 :: extension ∧ r = some (i + base.length) ∧
        (∀ c ∈ base, validChar c) ∧ ∀ c ∈ extension, validChar c := by
  intro l
  induction l with
  | nil => exact fun {i r} h => Or.inl ⟨(Option.some.inj h).symm,
      fun c hc => absurd hc List.not_mem_nil⟩
  | cons c l ih =>
      intro i r h
      rw [findDot] at h
      split at h
      · rename_i hdot
        subst hdot
        obtain ⟨hr, hall⟩ := findDot_of_dot h
        exact Or.inr ⟨[], l, rfl, hr, fun c hc => absurd hc List.not_mem_nil, hall⟩
      · split at h
        · cases h
        · rename_i hvalid
          have hc : validChar c := by simpa using hvalid
          rcases ih h with ⟨hr, hall⟩ | ⟨base, extension, rfl, hr, hbase, hextension⟩
          · exact Or.inl ⟨hr, List.forall_mem_cons.mpr ⟨hc, hall⟩⟩
          · refine Or.inr ⟨c :: base, extension, rfl, ?_, List.forall_mem_cons.mpr ⟨hc, hbase⟩,
              hextension⟩
            rw [hr, List.length_cons]
            congr 1
            omega

/-- A name that `convert_name` accepts has no dot, or a short base and a short extension. -/
theorem nameDot_spec {name : List UInt8} {dot : ℕ} (h : nameDot name = some dot) :
    (dot = name.length ∧ ∀ c ∈ name, validChar c) ∨
      ∃ base extension, name = base ++ 46 :: extension ∧ dot = base.length ∧ base.length ≤ 8 ∧
        extension.length ≤ 3 ∧ (∀ c ∈ base, validChar c) ∧ ∀ c ∈ extension, validChar c := by
  unfold nameDot at h
  cases hdot : findDot name 0 none with
  | none =>
      rw [hdot] at h
      cases h
  | some r =>
      rw [hdot] at h
      simp only [Option.bind_eq_bind, Option.bind_some] at h
      split at h
      · cases h
      · rename_i hbase
        split at h
        · cases h
        · rename_i hextension
          rcases findDot_spec hdot with ⟨rfl, hall⟩ | ⟨base, extension, rfl, rfl, hvalid⟩
          · exact Or.inl ⟨(Option.some.inj h).symm, hall⟩
          · refine Or.inr ⟨base, extension, rfl, ?_, ?_, ?_, hvalid⟩
            · simpa using (Option.some.inj h).symm
            · simpa using hbase
            · simp only [Option.any_some, decide_eq_true_eq, List.length_append,
                List.length_cons] at hextension
              omega

theorem baseOf_append {base : List UInt8} (h : ∀ c ∈ base, validChar c) (extension : List UInt8) :
    baseOf (base ++ 46 :: extension) = base ∧
      extensionOf (base ++ 46 :: extension) = extension := by
  replace h : ∀ c ∈ base, c ≠ 46 := fun c hc => ne_dot_of_validChar (h c hc)
  unfold baseOf extensionOf
  constructor
  · rw [List.takeWhile_append_of_pos (by simpa using h)]
    simp
  · rw [List.dropWhile_append_of_pos (by simpa using h)]
    simp

theorem baseOf_of_no_dot {name : List UInt8} (h : ∀ c ∈ name, validChar c) :
    baseOf name = name ∧ extensionOf name = [] := by
  replace h : ∀ c ∈ name, c ≠ 46 := fun c hc => ne_dot_of_validChar (h c hc)
  unfold baseOf extensionOf
  constructor
  · rw [List.takeWhile_eq_self_iff]
    simpa using h
  · rw [List.dropWhile_eq_nil_iff.mpr (by simpa using h)]
    rfl

/-- A byte of a name that is made of a base and an extension. -/
theorem name_apply (base extension : List UInt8) {i : ℕ} (hi : i < 11) :
    ((Mem.zero.fill 0 11 32).storeBytes 0 base).storeBytes 8 extension i =
      if 8 ≤ i ∧ i < 8 + extension.length then extension.getD (i - 8) 0
      else if i < base.length then base.getD i 0 else 32 := by
  unfold Mem.storeBytes Mem.fill
  simp only [Nat.zero_le, Nat.zero_add, true_and, Nat.sub_zero, hi, if_true]

/-- A name without a dot, which `convert_name` does not cut. -/
theorem convertedName_eq_iff_of_no_dot {name : List UInt8} (hdot : nameDot name = some name.length)
    (hall : ∀ c ∈ name, validChar c) :
    convertedName name = shortName name ↔ name.length ≤ 8 := by
  obtain ⟨hbase, hextension⟩ := baseOf_of_no_dot hall
  have hwrite : writeName Mem.zero name name.length =
      ((Mem.zero.fill 0 11 32).storeBytes 0 (name.map toupper)).storeBytes 8 [] := by
    unfold writeName
    rw [List.take_length, Nat.sub_self, List.take_zero, List.map_nil]
  rw [convertedName, hdot, Option.getD_some, hwrite, shortName, hbase, hextension, List.take_nil,
    List.map_nil, Mem.bytes, Mem.bytes, List.map_inj_left]
  simp only [List.mem_range, Nat.zero_add]
  constructor
  · intro hsame
    by_contra hlong
    have hnine := hsame 8 (by decide)
    rw [name_apply _ _ (by decide), name_apply _ _ (by decide)] at hnine
    have hlt : 8 < name.length := by omega
    simp [hlt] at hnine
    exact toupper_ne_space (hall _ (List.getElem_mem hlt)) hnine
  · intro hshort i hi
    rw [List.take_of_length_le hshort]

/-- Behind the extension `convert_name` copies the null byte as well. -/
theorem writeName_append (m : Mem) (base extension : List UInt8) :
    writeName m (base ++ 46 :: extension) base.length =
      ((m.fill 0 11 32).storeBytes 0 (base.map toupper)).storeBytes 8
        (extension.map toupper ++ [0]) := by
  unfold writeName
  rw [List.take_left]
  congr 1
  have hdrop : (base ++ 46 :: extension ++ [0]).drop (base.length + 1) = extension ++ [0] := by
    rw [List.append_assoc, ← List.drop_drop, List.drop_left]
    rfl
  rw [hdrop, List.take_of_length_le (by simp), List.map_append]
  rfl

/-- A name with a dot, behind which `convert_name` copies the null byte as well. -/
theorem convertedName_eq_iff_of_dot {base extension : List UInt8}
    (hdot : nameDot (base ++ 46 :: extension) = some base.length) (hno : ∀ c ∈ base, validChar c)
    (hbase : base.length ≤ 8) (hextension : extension.length ≤ 3) :
    convertedName (base ++ 46 :: extension) = shortName (base ++ 46 :: extension) ↔
      extension.length = 3 := by
  obtain ⟨hb, he⟩ := baseOf_append hno extension
  rw [convertedName, hdot, Option.getD_some, writeName_append, shortName, hb, he,
    List.take_of_length_le hbase, List.take_of_length_le hextension, Mem.bytes, Mem.bytes,
    List.map_inj_left]
  simp only [List.mem_range, Nat.zero_add]
  constructor
  · intro hsame
    by_contra hne
    have hnull := hsame (8 + extension.length) (by omega)
    have hpast : ¬ (8 + extension.length < base.length) := by omega
    rw [name_apply _ _ (by omega), name_apply _ _ (by omega)] at hnull
    simp [hpast] at hnull
  · intro hthree i hi
    rw [name_apply _ _ hi, name_apply _ _ hi]
    simp only [List.length_append, List.length_map, List.length_singleton, hthree]
    by_cases hlow : 8 ≤ i
    · have hlt : i - 8 < (extension.map toupper).length := by
        rw [List.length_map]
        omega
      rw [if_pos (by omega), if_pos (by omega), List.getD_eq_getElem?_getD,
        List.getD_eq_getElem?_getD,
        List.getElem?_append_left hlt]
    · simp only [hlow, false_and, if_false]

/-- The converted name is the 8.3 name of a proper name only. -/
theorem convertedName_eq_iff {name : List UInt8} (h : convertible name) :
    convertedName name = shortName name ↔ ProperName name := by
  obtain ⟨dot, hdot⟩ := Option.isSome_iff_exists.mp h
  unfold ProperName
  rcases nameDot_spec hdot with ⟨rfl, hall⟩ | ⟨base, extension, rfl, rfl, hbase, hextension, hno, -⟩
  · have hnone : 46 ∉ name := fun hmem => ne_dot_of_validChar (hall 46 hmem) rfl
    rw [convertedName_eq_iff_of_no_dot hdot hall, (baseOf_of_no_dot hall).1]
    exact ⟨fun hle => ⟨hle, fun hmem => absurd hmem hnone⟩, fun hle => hle.1⟩
  · obtain ⟨hb, he⟩ := baseOf_append hno extension
    rw [convertedName_eq_iff_of_dot hdot hno hbase hextension, hb, he]
    exact ⟨fun hthree => ⟨hbase, fun _ => hthree⟩, fun hproper => hproper.2 (by simp)⟩

/-! ## The language of names -/

/-- A name of the 8.3 language: a base of one to eight valid bytes, behind which there may be a dot
and an extension of at most three. -/
def IsShortName (name : List UInt8) : Prop :=
  ∃ base extension, (name = base ∧ extension = [] ∨ name = base ++ 46 :: extension) ∧
    (1 ≤ base.length ∧ base.length ≤ 8 ∧ ∀ c ∈ base, validChar c) ∧
      extension.length ≤ 3 ∧ ∀ c ∈ extension, validChar c

/-- `convert_name` accepts the name if it is of the language and no other, and then it has written
the 8.3 name and not a byte behind it. -/
def ConvertsRight (name : List UInt8) : Prop :=
  ∀ m : Mem, ((convertName m name).isSome ↔ IsShortName name) ∧
    ∀ m', convertName m name = some m' →
      m'.bytes 0 11 = shortName name ∧ ∀ i, 11 ≤ i → m' i = m i

theorem findDot_of_valid {d : Option ℕ} : ∀ {l : List UInt8} {i : ℕ}, (∀ c ∈ l, validChar c) →
    findDot l i d = some d := by
  intro l
  induction l with
  | nil => exact fun _ => rfl
  | cons c l ih =>
      intro i h
      obtain ⟨hc, hl⟩ := List.forall_mem_cons.mp h
      rw [findDot, if_neg (ne_dot_of_validChar hc), if_neg (by simpa using hc), ih hl]

theorem findDot_append {extension : List UInt8} (hextension : ∀ c ∈ extension, validChar c) :
    ∀ {base : List UInt8} {i : ℕ}, (∀ c ∈ base, validChar c) →
      findDot (base ++ 46 :: extension) i none = some (some (i + base.length)) := by
  intro base
  induction base with
  | nil => exact fun _ => findDot_of_valid hextension
  | cons c base ih =>
      intro i h
      obtain ⟨hc, hbase⟩ := List.forall_mem_cons.mp h
      rw [List.cons_append, findDot, if_neg (ne_dot_of_validChar hc), if_neg (by simpa using hc),
        ih hbase, List.length_cons]
      congr 2
      omega

theorem nameDot_of_valid {name : List UInt8} (h : ∀ c ∈ name, validChar c) :
    nameDot name = some name.length := by
  unfold nameDot
  rw [findDot_of_valid h]
  rfl

theorem nameDot_append {base extension : List UInt8} (hbase : ∀ c ∈ base, validChar c)
    (hextension : ∀ c ∈ extension, validChar c) (hb : base.length ≤ 8) (he : extension.length ≤ 3) :
    nameDot (base ++ 46 :: extension) = some base.length := by
  unfold nameDot
  rw [findDot_append hextension hbase]
  have hlong : ¬ 8 < base.length := by omega
  have hrest : ¬ 3 < (base ++ 46 :: extension).length - (base.length + 1) := by
    rw [List.length_append, List.length_cons]
    omega
  simp [hlong] at hrest ⊢
  exact hrest

theorem isSome_convertName (m : Mem) (name : List UInt8) :
    (convertName m name).isSome ↔ convertible name := by
  rw [convertName_eq, Option.isSome_map, convertible]

/-- Every name of the language is accepted. -/
theorem IsShortName.convertible {name : List UInt8} (h : IsShortName name) : convertible name := by
  obtain ⟨base, extension, hname, ⟨-, hb, hbase⟩, he, hextension⟩ := h
  unfold Fat.convertible
  rcases hname with ⟨rfl, rfl⟩ | rfl
  · rw [nameDot_of_valid hbase]
    rfl
  · rw [nameDot_append hbase hextension hb he]
    rfl

/-- A name without a dot is of the language if its length is right. -/
theorem isShortName_iff_of_valid {name : List UInt8} (h : ∀ c ∈ name, validChar c) :
    IsShortName name ↔ 1 ≤ name.length ∧ name.length ≤ 8 := by
  constructor
  · rintro ⟨base, extension, ⟨rfl, rfl⟩ | rfl, ⟨hone, height, -⟩, -⟩
    · exact ⟨hone, height⟩
    · exact absurd rfl (ne_dot_of_validChar (h 46 (by simp)))
  · intro ⟨hone, height⟩
    exact ⟨name, [], Or.inl ⟨rfl, rfl⟩, ⟨hone, height, h⟩, by decide,
      fun c hc => absurd hc List.not_mem_nil⟩

theorem not_isShortName_of_invalid {name : List UInt8} (hdot : 46 ∉ name)
    (h : ¬ ∀ c ∈ name, validChar c) : ¬ IsShortName name := by
  rintro ⟨base, extension, ⟨rfl, rfl⟩ | rfl, ⟨-, -, hbase⟩, -⟩
  · exact h hbase
  · exact hdot (by simp)

/-- Behind a short extension the null byte stands in the item, and behind a full one it is written
past the item's eleven bytes. -/
theorem not_convertsRight_of_dot {name : List UInt8} (hmem : 46 ∈ name) (h : IsShortName name) :
    ¬ ConvertsRight name := by
  intro hright
  obtain ⟨base, extension, hname, ⟨-, hb, hbase⟩, he, hextension⟩ := h
  rcases hname with ⟨rfl, -⟩ | rfl
  · exact ne_dot_of_validChar (hbase 46 hmem) rfl
  · have hdot := nameDot_append hbase hextension hb he
    -- a memory without a null byte, in which the one that is copied shows
    obtain ⟨hbytes, hbehind⟩ :=
      (hright fun _ => 1).2 _ (by rw [convertName_eq, hdot, Option.map_some])
    have hthree : extension.length = 3 := by
      refine (convertedName_eq_iff_of_dot hdot hbase hb he).mp ?_
      rw [convertedName, hdot, Option.getD_some, ← writeName_bytes, hbytes]
    have hpast := hbehind 11 (Nat.le_refl 11)
    rw [writeName_append] at hpast
    simp [Mem.storeBytes, hthree, List.getD_eq_getElem?_getD] at hpast

/-- Without a dot the bytes are right if the base fits. -/
theorem convertsRight_of_short {name : List UInt8} (h : ∀ c ∈ name, validChar c)
    (hone : 1 ≤ name.length) (height : name.length ≤ 8) : ConvertsRight name := by
  have hdot := nameDot_of_valid h
  intro m
  refine ⟨?_, ?_⟩
  · rw [isSome_convertName, isShortName_iff_of_valid h, convertible, hdot]
    exact ⟨fun _ => ⟨hone, height⟩, fun _ => rfl⟩
  · intro m' hm'
    obtain rfl : writeName m name name.length = m' := by
      rw [convertName_eq, hdot, Option.map_some] at hm'
      exact Option.some.inj hm'
    refine ⟨?_, fun i hi => ?_⟩
    · rw [← (convertedName_eq_iff_of_no_dot hdot h).mpr height, convertedName, hdot,
        Option.getD_some, writeName_bytes]
    · have hlow : ¬ i < name.length := by omega
      have hnine : ¬ i < 11 := by omega
      simp [writeName, Mem.storeBytes, Mem.fill, hlow, hnine]

/-- **The language of `convert_name`.**  On a name that does not begin with a dot it does right if
and only if the name has no dot and is not too long or empty, or is to be rejected: it looks at the
length of a base only when there is a dot behind it, and no name with a dot has its 8.3 form
written. -/
theorem convertsRight_iff {name : List UInt8} (hfirst : name.head? ≠ some 46) :
    ConvertsRight name ↔
      (46 ∈ name → ¬ IsShortName name) ∧
        (46 ∉ name → (∀ c ∈ name, validChar c) → 1 ≤ name.length ∧ name.length ≤ 8) := by
  constructor
  · intro h
    refine ⟨fun hmem hshort => not_convertsRight_of_dot hmem hshort h, fun _ hall => ?_⟩
    rw [← isShortName_iff_of_valid hall, ← (h Mem.zero).1, isSome_convertName, convertible,
      nameDot_of_valid hall]
    rfl
  · intro ⟨hdots, hnone⟩
    by_cases hshort : IsShortName name
    · have hmem : 46 ∉ name := fun hmem => hdots hmem hshort
      have hall : ∀ c ∈ name, validChar c := by
        by_contra hinvalid
        exact not_isShortName_of_invalid hmem hinvalid hshort
      exact convertsRight_of_short hall (hnone hmem hall).1 (hnone hmem hall).2
    · have hreject : ¬ convertible name := by
        intro hconv
        obtain ⟨dot, hdot⟩ := Option.isSome_iff_exists.mp hconv
        rcases nameDot_spec hdot with ⟨-, hall⟩ | ⟨base, extension, rfl, -, hb, he, hbase, hextension⟩
        · refine hshort ((isShortName_iff_of_valid hall).mpr (hnone (fun hmem => ?_) hall))
          exact ne_dot_of_validChar (hall 46 hmem) rfl
        · refine hshort ⟨base, extension, Or.inr rfl, ⟨?_, hb, hbase⟩, he, hextension⟩
          rw [Nat.one_le_iff_ne_zero]
          intro hempty
          rw [List.length_eq_zero_iff.mp hempty] at hfirst
          exact hfirst rfl
      intro m
      refine ⟨?_, fun m' hm' => ?_⟩
      · rw [isSome_convertName]
        exact ⟨fun hconv => absurd hconv hreject, fun h => absurd h hshort⟩
      · rw [convertName_of_not_convertible hreject] at hm'
        cases hm'

theorem convertsRight_iff_readme : ConvertsRight [114, 101, 97, 100, 109, 101] :=
  (convertsRight_iff (by decide)).mpr
    ⟨fun h => absurd h (by decide), fun _ _ => by decide⟩

/-- `a.b` is of the language and is not converted right, and a name of nine bytes is not of the
language and is accepted. -/
theorem not_convertsRight_dot_long :
    ¬ ConvertsRight [97, 46, 98] ∧ ¬ ConvertsRight (List.replicate 9 97) := by
  constructor
  · exact not_convertsRight_of_dot (by decide)
      ⟨[97], [98], Or.inr rfl, ⟨by decide, by decide, List.all_eq_true.mp (by decide)⟩, by decide,
        List.all_eq_true.mp (by decide)⟩
  · intro h
    have hvalid : ∀ c ∈ List.replicate 9 (97 : UInt8), validChar c :=
      List.all_eq_true.mp (by decide)
    have haccepted : (convertName Mem.zero (List.replicate 9 97)).isSome := by
      rw [isSome_convertName, convertible, nameDot_of_valid hvalid]
      rfl
    have hlong := (isShortName_iff_of_valid hvalid).mp ((h Mem.zero).1.mp haccepted)
    exact absurd hlong (by decide)

end SystemExtras.Fat
