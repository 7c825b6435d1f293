import Mathlib.Tactic

/-!
# Maximal runs

The places below `n` at which a predicate holds fall into maximal runs.  `scanRuns`
finds them in one pass: it remembers where the open run started, closes it at the
first place where the predicate fails, and closes a run that is still open at the
end.  A run is a pair of its first place and the place behind its last one.

`ScanInv` is what the pass knows after some of the places, and `runsOf_scanRuns`
says that it finds all runs, in order.
-/

namespace SystemExtras

variable {p : ℕ → Bool} {n : ℕ}

/-- A maximal run below `n`. -/
structure IsRun (p : ℕ → Bool) (n : ℕ) (r : ℕ × ℕ) : Prop where
  lt : r.1 < r.2
  le : r.2 ≤ n
  all : ∀ b, r.1 ≤ b → b < r.2 → p b = true
  before : ∀ b, b + 1 = r.1 → p b = false
  after : r.2 < n → p r.2 = false

/-- All maximal runs below `n`, in order. -/
structure RunsOf (p : ℕ → Bool) (n : ℕ) (runs : List (ℕ × ℕ)) : Prop where
  isRun : ∀ r ∈ runs, IsRun p n r
  sorted : runs.Pairwise fun r r' => r.2 ≤ r'.1
  cover : ∀ b < n, p b = true → ∃ r ∈ runs, r.1 ≤ b ∧ b < r.2

/-- One place of the pass. -/
def scanStep (p : ℕ → Bool) (st : Option ℕ × List (ℕ × ℕ)) (b : ℕ) : Option ℕ × List (ℕ × ℕ) :=
  match st.1, p b with
  | some s, false => (none, st.2 ++ [(s, b)])
  | none, true => (some b, st.2)
  | _, _ => st

/-- The pass over the first places. -/
def scan (p : ℕ → Bool) (n : ℕ) : Option ℕ × List (ℕ × ℕ) :=
  (List.range n).foldl (scanStep p) (none, [])

/-- The runs that the pass finds. -/
def scanRuns (p : ℕ → Bool) (n : ℕ) : List (ℕ × ℕ) :=
  match scan p n with
  | (some s, runs) => runs ++ [(s, n)]
  | (none, runs) => runs

theorem scan_succ (p : ℕ → Bool) (n : ℕ) : scan p (n + 1) = scanStep p (scan p n) n := by
  unfold scan
  rw [List.range_succ, List.foldl_append, List.foldl_cons, List.foldl_nil]

/-- What the pass knows after the places below `n`. -/
structure ScanInv (p : ℕ → Bool) (n : ℕ) (start : Option ℕ) (runs : List (ℕ × ℕ)) : Prop where
  closed : ∀ r ∈ runs, IsRun p n r ∧ r.2 < n
  sorted : runs.Pairwise fun r r' => r.2 ≤ r'.1
  behind : ∀ s, start = some s → ∀ r ∈ runs, r.2 ≤ s
  opened : ∀ s, start = some s → IsRun p n (s, n)
  idle : start = none → ∀ b, b + 1 = n → p b = false
  cover : ∀ b < n, p b = true → (∃ r ∈ runs, r.1 ≤ b ∧ b < r.2) ∨ ∃ s, start = some s ∧ s ≤ b

namespace ScanInv

variable {start : Option ℕ} {runs : List (ℕ × ℕ)}

theorem nil (p : ℕ → Bool) : ScanInv p 0 none [] where
  closed := by simp
  sorted := List.Pairwise.nil
  behind := by simp
  opened := by simp
  idle := by simp
  cover := by simp

/-- Closed runs stay closed. -/
theorem closed_succ (h : ScanInv p n start runs) : ∀ r ∈ runs, IsRun p (n + 1) r ∧ r.2 < n + 1 := by
  intro r hr
  obtain ⟨hrun, hlt⟩ := h.closed r hr
  exact ⟨⟨hrun.lt, by omega, hrun.all, hrun.before, fun _ => hrun.after hlt⟩, by omega⟩

/-- The open run goes on. -/
theorem goOn {s : ℕ} (h : ScanInv p n (some s) runs) (hb : p n = true) :
    ScanInv p (n + 1) (some s) runs where
  closed := h.closed_succ
  sorted := h.sorted
  behind := h.behind
  opened := by
    intro s' hs'
    obtain ⟨hlt, -, hall, hbefore, -⟩ := h.opened s' hs'
    refine ⟨by omega, le_rfl, ?_, hbefore, fun hn => absurd hn (lt_irrefl _)⟩
    intro b hsb hbn
    rcases Nat.lt_succ_iff_lt_or_eq.mp hbn with hlt | heq
    · exact hall b hsb hlt
    · rw [heq]
      exact hb
  idle := by simp
  cover := by
    intro b hbn hpb
    rcases Nat.lt_succ_iff_lt_or_eq.mp hbn with hlt | heq
    · exact h.cover b hlt hpb
    · exact Or.inr ⟨s, rfl, by have := (h.opened s rfl).lt; simp only at this; omega⟩

/-- The open run ends. -/
theorem close {s : ℕ} (h : ScanInv p n (some s) runs) (hb : p n = false) :
    ScanInv p (n + 1) none (runs ++ [(s, n)]) where
  closed := by
    intro r hr
    rcases List.mem_append.mp hr with hr | hr
    · exact h.closed_succ r hr
    · rw [List.mem_singleton] at hr
      subst hr
      obtain ⟨hlt, -, hall, hbefore, -⟩ := h.opened s rfl
      exact ⟨⟨hlt, by omega, hall, hbefore, fun _ => hb⟩, by omega⟩
  sorted := by
    rw [List.pairwise_append]
    refine ⟨h.sorted, List.pairwise_singleton _ _, ?_⟩
    intro r hr r' hr'
    rw [List.mem_singleton] at hr'
    subst hr'
    exact h.behind s rfl r hr
  behind := by simp
  opened := by simp
  idle := by
    intro _ b hbn
    obtain rfl : b = n := by omega
    exact hb
  cover := by
    intro b hbn hpb
    have hne : b ≠ n := by
      rintro rfl
      rw [hb] at hpb
      cases hpb
    left
    rcases h.cover b (by omega) hpb with ⟨r, hr, hin⟩ | ⟨s', hs', hle⟩
    · exact ⟨r, List.mem_append_left _ hr, hin⟩
    · cases hs'
      exact ⟨(s, n), by simp, hle, by simp only; omega⟩

/-- A run starts. -/
theorem begin_ (h : ScanInv p n none runs) (hb : p n = true) : ScanInv p (n + 1) (some n) runs where
  closed := h.closed_succ
  sorted := h.sorted
  behind := by
    intro s hs r hr
    cases hs
    exact (h.closed r hr).2.le
  opened := by
    intro s hs
    cases hs
    refine ⟨Nat.lt_succ_self n, le_rfl, ?_, h.idle rfl, fun hn => absurd hn (lt_irrefl _)⟩
    intro b hnb hbn
    obtain rfl : b = n := by simp only at hnb hbn; omega
    exact hb
  idle := by simp
  cover := by
    intro b hbn hpb
    rcases Nat.lt_succ_iff_lt_or_eq.mp hbn with hlt | heq
    · rcases h.cover b hlt hpb with hr | ⟨s, hs, -⟩
      · exact Or.inl hr
      · cases hs
    · exact Or.inr ⟨n, rfl, heq.ge⟩

/-- Nothing is open and nothing starts. -/
theorem wait (h : ScanInv p n none runs) (hb : p n = false) : ScanInv p (n + 1) none runs where
  closed := h.closed_succ
  sorted := h.sorted
  behind := by simp
  opened := by simp
  idle := by
    intro _ b hbn
    obtain rfl : b = n := by omega
    exact hb
  cover := by
    intro b hbn hpb
    have hne : b ≠ n := by
      rintro rfl
      rw [hb] at hpb
      cases hpb
    exact h.cover b (by omega) hpb

end ScanInv

theorem scanInv_scan (p : ℕ → Bool) (n : ℕ) : ScanInv p n (scan p n).1 (scan p n).2 := by
  induction n with
  | zero => exact ScanInv.nil p
  | succ n ih =>
      rw [scan_succ]
      generalize scan p n = st at ih
      obtain ⟨start, runs⟩ := st
      unfold scanStep
      cases start with
      | none =>
          cases hb : p n with
          | false => exact ih.wait hb
          | true => exact ih.begin_ hb
      | some s =>
          cases hb : p n with
          | false => exact ih.close hb
          | true => exact ih.goOn hb

/-- The pass finds the maximal runs. -/
theorem runsOf_scanRuns (p : ℕ → Bool) (n : ℕ) : RunsOf p n (scanRuns p n) := by
  have h := scanInv_scan p n
  unfold scanRuns
  generalize scan p n = st at h
  obtain ⟨start, runs⟩ := st
  cases start with
  | none =>
      refine ⟨fun r hr => (h.closed r hr).1, h.sorted, ?_⟩
      intro b hbn hpb
      rcases h.cover b hbn hpb with hr | ⟨s, hs, -⟩
      · exact hr
      · cases hs
  | some s =>
      refine ⟨?_, ?_, ?_⟩
      · intro r hr
        rcases List.mem_append.mp hr with hr | hr
        · exact (h.closed r hr).1
        · rw [List.mem_singleton.mp hr]
          exact h.opened s rfl
      · rw [List.pairwise_append]
        refine ⟨h.sorted, List.pairwise_singleton _ _, ?_⟩
        intro r hr r' hr'
        rw [List.mem_singleton.mp hr']
        exact h.behind s rfl r hr
      · intro b hbn hpb
        rcases h.cover b hbn hpb with ⟨r, hr, hin⟩ | ⟨s', hs', hle⟩
        · exact ⟨r, List.mem_append_left _ hr, hin⟩
        · cases hs'
          exact ⟨(s, n), by simp, hle, hbn⟩

end SystemExtras
