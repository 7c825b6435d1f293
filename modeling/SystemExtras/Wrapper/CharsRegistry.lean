import Mathlib.Data.List.Basic

/-!
# The registry of string buffers

The service keeps a list of the buffers in which native code holds characters of the
virtual machine: `wrapperP` is where the native code has them, `dalvikP` where the virtual
machine has them.  Buffers are added in front, and the list is searched from the front.

`deleteCharsEntry` has a case of its own for a list of one entry, which it empties without
looking at the entry, and a search that reads behind the end of the list when it finds
nothing.  `registryCorrect_iff` says that nothing else is wrong with it.
-/

namespace SystemExtras.Wrapper

/-- `stringMap_t`, without the link. -/
structure StringMap where
  dalvikP : ℕ
  length : ℕ
  wrapperP : ℕ
  deriving DecidableEq, Repr

/-! ## The code -/

/-- `addStringChars`. -/
def addStringChars (charsList : List StringMap) (dalvikP length wrapperP : ℕ) : List StringMap :=
  ⟨dalvikP, length, wrapperP⟩ :: charsList

/-- `getDalvikChars`; the walk stops at the last entry at the latest. -/
def getDalvikChars : List StringMap → ℕ → Option StringMap
  | [], _ => none
  | [s], wrapperP => if s.wrapperP = wrapperP then some s else none
  | s :: next :: rest, wrapperP =>
      if s.wrapperP = wrapperP then some s else getDalvikChars (next :: rest) wrapperP

/-- The loop of `deleteCharsEntry`, at the entry `s`; none where the program reads the key
behind a null pointer. -/
def deleteBehind (wrapperP : ℕ) : StringMap → List StringMap → Option (List StringMap)
  | _, [] => none
  | s, next :: rest =>
      if next.wrapperP = wrapperP then some (s :: rest)
      else (deleteBehind wrapperP next rest).map (s :: ·)

/-- `deleteCharsEntry`. -/
def deleteCharsEntry (wrapperP : ℕ) : List StringMap → Option (List StringMap)
  | [] => some []
  -- whatever the key of the entry is
  | [_] => some []
  | s :: next :: rest =>
      if s.wrapperP = wrapperP then some (next :: rest)
      else deleteBehind wrapperP s (next :: rest)

/-- A call, with its arguments. -/
inductive RegistryCall where
  | add (dalvikP length wrapperP : ℕ)
  | get (wrapperP : ℕ)
  | delete (wrapperP : ℕ)
  deriving DecidableEq, Repr

/-- What a call leaves: the list, and the entry that it returns. -/
structure Registry where
  charsList : List StringMap
  found : Option StringMap
  deriving DecidableEq, Repr

/-- One call. -/
def registryStep (charsList : List StringMap) : RegistryCall → Option Registry
  | .add dalvikP length wrapperP => some ⟨addStringChars charsList dalvikP length wrapperP, none⟩
  | .get wrapperP => some ⟨charsList, getDalvikChars charsList wrapperP⟩
  | .delete wrapperP => (deleteCharsEntry wrapperP charsList).map (⟨·, none⟩)

/-- Calls one after the other, with what each of them leaves. -/
def registryRun : List StringMap → List RegistryCall → Option (List Registry)
  | _, [] => some []
  | charsList, call :: calls => do
      let r ← registryStep charsList call
      let rest ← registryRun r.charsList calls
      some (r :: rest)

/-! ## What the registry is for -/

/-- Finding and removing the newest entry of a key. -/
def Registry.after (entries : List StringMap) : RegistryCall → Registry
  | .add dalvikP length wrapperP => ⟨⟨dalvikP, length, wrapperP⟩ :: entries, none⟩
  | .get wrapperP => ⟨entries, entries.find? (·.wrapperP = wrapperP)⟩
  | .delete wrapperP => ⟨entries.eraseP (·.wrapperP = wrapperP), none⟩

/-- The entries that have been added and not yet deleted, the newest in front. -/
def liveEntries (entries : List StringMap) (calls : List RegistryCall) : List StringMap :=
  calls.foldl (fun entries call => (Registry.after entries call).charsList) entries

/-- What the calls should leave. -/
def registrySpec : List StringMap → List RegistryCall → List Registry
  | _, [] => []
  | entries, call :: calls =>
      Registry.after entries call :: registrySpec (Registry.after entries call).charsList calls

/-- Every call finds and leaves what it should. -/
def RegistryCorrect (calls : List RegistryCall) : Prop :=
  registryRun [] calls = some (registrySpec [] calls)

/-- The key has an entry, or no key has one. -/
def MayDelete (entries : List StringMap) (wrapperP : ℕ) : Prop :=
  entries = [] ∨ ∃ s ∈ entries, s.wrapperP = wrapperP

/-! ## The operations -/

section Operations

variable {entries : List StringMap} {wrapperP : ℕ}

theorem getDalvikChars_eq (entries : List StringMap) (wrapperP : ℕ) :
    getDalvikChars entries wrapperP = entries.find? (·.wrapperP = wrapperP) := by
  induction entries with
  | nil => rfl
  | cons s rest ih =>
      cases rest with
      | nil => by_cases hs : s.wrapperP = wrapperP <;> simp [getDalvikChars, hs]
      | cons next rest =>
          rw [getDalvikChars, ih]
          by_cases hs : s.wrapperP = wrapperP <;> simp [hs]

/-- The search removes the newest entry of its key behind the entry where it starts. -/
theorem deleteBehind_of_mem {s : StringMap} (h : ∃ t ∈ entries, t.wrapperP = wrapperP) :
    deleteBehind wrapperP s entries = some (s :: entries.eraseP (·.wrapperP = wrapperP)) := by
  induction entries generalizing s with
  | nil => simp at h
  | cons next rest ih =>
      rw [deleteBehind]
      by_cases hnext : next.wrapperP = wrapperP
      · rw [if_pos hnext, List.eraseP_cons_of_pos (by simpa using hnext)]
      · have hrest : ∃ t ∈ rest, t.wrapperP = wrapperP := by
          obtain ⟨t, ht, hkey⟩ := h
          rcases List.mem_cons.mp ht with rfl | ht
          · exact absurd hkey hnext
          · exact ⟨t, ht, hkey⟩
        rw [if_neg hnext, ih hrest, List.eraseP_cons_of_neg (by simpa using hnext),
          Option.map_some]

/-- Without an entry of its key it reads behind the end. -/
theorem deleteBehind_of_not_mem {s : StringMap} (h : ∀ t ∈ entries, t.wrapperP ≠ wrapperP) :
    deleteBehind wrapperP s entries = none := by
  induction entries generalizing s with
  | nil => rfl
  | cons next rest ih =>
      rw [deleteBehind, if_neg (h next List.mem_cons_self),
        ih fun t ht => h t (List.mem_cons_of_mem _ ht)]
      rfl

/-- `deleteCharsEntry` is right when there is something to delete, and on the empty list. -/
theorem deleteCharsEntry_eq_iff : deleteCharsEntry wrapperP entries =
    some (entries.eraseP (·.wrapperP = wrapperP)) ↔ MayDelete entries wrapperP := by
  unfold MayDelete
  cases entries with
  | nil => simp [deleteCharsEntry]
  | cons s rest =>
      cases rest with
      | nil => by_cases hs : s.wrapperP = wrapperP <;> simp [deleteCharsEntry, hs]
      | cons next rest =>
          rw [deleteCharsEntry]
          by_cases hs : s.wrapperP = wrapperP
          · rw [if_pos hs, List.eraseP_cons_of_pos (by simpa using hs)]
            exact iff_of_true rfl (Or.inr ⟨s, List.mem_cons_self, hs⟩)
          · rw [if_neg hs, List.eraseP_cons_of_neg (by simpa using hs)]
            by_cases hrest : ∃ t ∈ next :: rest, t.wrapperP = wrapperP
            · rw [deleteBehind_of_mem hrest]
              obtain ⟨t, ht, hkey⟩ := hrest
              exact iff_of_true rfl (Or.inr ⟨t, List.mem_cons_of_mem _ ht, hkey⟩)
            · push Not at hrest
              rw [deleteBehind_of_not_mem hrest]
              refine iff_of_false (by simp) ?_
              rintro (h | ⟨t, ht, hkey⟩)
              · cases h
              · rcases List.mem_cons.mp ht with rfl | ht
                · exact hs hkey
                · exact hrest t ht hkey

end Operations

/-! ## Runs -/

/-- One call does what it should unless it deletes what is not there. -/
theorem registryStep_eq_iff {entries : List StringMap} {call : RegistryCall} :
    registryStep entries call = some (Registry.after entries call) ↔
      ∀ wrapperP, call = .delete wrapperP → MayDelete entries wrapperP := by
  cases call with
  | add dalvikP length wrapperP => exact iff_of_true rfl nofun
  | get wrapperP =>
      refine iff_of_true ?_ nofun
      rw [registryStep, getDalvikChars_eq]
      rfl
  | delete wrapperP =>
      simp only [RegistryCall.delete.injEq, forall_eq']
      rw [← deleteCharsEntry_eq_iff, registryStep, Registry.after]
      cases deleteCharsEntry wrapperP entries with
      | none => simp
      | some l => simp

/-- The run from a list goes right if every deletion does. -/
theorem registryRun_eq_iff {entries : List StringMap} {calls : List RegistryCall} :
    registryRun entries calls = some (registrySpec entries calls) ↔
      ∀ before wrapperP after, calls = before ++ .delete wrapperP :: after →
        MayDelete (liveEntries entries before) wrapperP := by
  induction calls generalizing entries with
  | nil => exact iff_of_true rfl fun before _ _ h => by simp at h
  | cons call calls ih =>
      have hfirst :
          (registryRun entries (call :: calls) = some (registrySpec entries (call :: calls))) ↔
          registryStep entries call = some (Registry.after entries call) ∧
          registryRun (Registry.after entries call).charsList calls =
            some (registrySpec (Registry.after entries call).charsList calls) := by
        simp only [registryRun, registrySpec, Option.bind_eq_bind, Option.bind_eq_some_iff,
          Option.some.injEq, List.cons.injEq]
        constructor
        · rintro ⟨r, hr, rest, hrest, rfl, rfl⟩
          exact ⟨hr, hrest⟩
        · rintro ⟨hr, hrest⟩
          exact ⟨_, hr, _, hrest, rfl, rfl⟩
      rw [hfirst, ih, registryStep_eq_iff]
      constructor
      · rintro ⟨hstep, hrun⟩ before wrapperP after hcalls
        cases before with
        | nil =>
            rw [List.nil_append, List.cons.injEq] at hcalls
            exact hstep wrapperP hcalls.1
        | cons c before =>
            rw [List.cons_append, List.cons.injEq] at hcalls
            obtain ⟨rfl, hcalls⟩ := hcalls
            exact hrun before wrapperP after hcalls
      · intro h
        refine ⟨fun wrapperP hcall => ?_, fun before wrapperP after hcalls => ?_⟩
        · exact h [] wrapperP calls (by rw [hcall, List.nil_append])
        · exact h (call :: before) wrapperP after (by rw [hcalls, List.cons_append])

/-- **When the registry is a map.**  Every call of a sequence finds and leaves what it
should if and only if no call deletes a key without an entry from a registry with entries. -/
theorem registryCorrect_iff (calls : List RegistryCall) :
    RegistryCorrect calls ↔
      ∀ before wrapperP after, calls = before ++ .delete wrapperP :: after →
        MayDelete (liveEntries [] before) wrapperP :=
  registryRun_eq_iff

/-- The only buffer is lost when another one is deleted. -/
theorem not_registryCorrect_single :
    ¬ RegistryCorrect [.add 0x9000 5 0x1000, .delete 0x2000, .get 0x1000] := by
  unfold RegistryCorrect
  decide

/-- With two buffers, the deletion of a third one ends the program. -/
example : registryRun [] [.add 0x9000 5 0x1000, .add 0x9100 5 0x1100, .delete 0x2000] = none := by
  decide

end SystemExtras.Wrapper
