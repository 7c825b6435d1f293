import SystemExtras.Lib.LinkedRing
import SystemExtras.Lib.Run

/-!
# The pool of descriptors

`fdpool_open` keeps up to four files open.  The nodes of the open files are in a ring,
the one that was used last behind the head, and when the ring is full the node at its
end is closed and taken out.  `Pooled` says what the links, the count, the fields of
the nodes and the descriptors have to do with each other.

`fdpool_close` closes the descriptor of a node and clears the node, and leaves the ring
and the count as they are.  The node is still between its neighbours, with null
pointers in its own links, and the pool stops at an assertion when the node gets to the
end of the ring (`not_keeps_closedFile`).  Without it every call does what it should
(`keeps_iff_no_close`).
-/

namespace SystemExtras.Fat

/-! ## Data model -/

/-- `struct pooled_fd *` when it is not null: `&fdpool_head`, or a node of a caller. -/
inductive Addr where
  | head
  | node (i : ℕ)
  deriving DecidableEq, Repr

/-- `INVALID_FD`. -/
def invalidFd : ℤ := -1

/-- `FDPOOL_SIZE`. -/
def fdpoolSize : ℕ := 4

/-- The members of each `struct pooled_fd`, `fdpool_count`, and the descriptors of the process that
`open` has returned here and `close` has not closed. -/
structure Pool where
  fd : Addr → ℤ
  prev : Addr → Option Addr
  next : Addr → Option Addr
  fdpoolCount : ℤ
  opened : Finset ℤ

/-- How a call can go wrong. -/
inductive PoolFault where
  | assertion
  | nullPointer
  deriving DecidableEq, Repr

/-! ## The functions of the pool -/

/-- `fdpool_insert_head`, which reads the node behind the head before it writes. -/
def fdpoolInsertHead (p : Pool) (node : Addr) : Except PoolFault Pool :=
  match p.next .head with
  | none => .error .nullPointer
  | some next =>
      .ok { p with
        next := Function.update (Function.update p.next .head (some node)) node (some next)
        prev := Function.update (Function.update p.prev node (some .head)) next (some node)
        fdpoolCount := p.fdpoolCount + 1 }

/-- `fdpool_remove`. -/
def fdpoolRemove (p : Pool) (node : Addr) : Except PoolFault Pool :=
  match p.prev node, p.next node with
  | some prev, some next =>
      .ok { p with
        next := Function.update p.next prev (some next)
        prev := Function.update p.prev next (some prev)
        fdpoolCount := p.fdpoolCount - 1 }
  | _, _ => .error .assertion

/-- `fdpool_remove_tail`. -/
def fdpoolRemoveTail (p : Pool) : Except PoolFault (Pool × Addr) :=
  match p.prev .head with
  | none => .error .nullPointer
  | some tail =>
      if tail = .head then .error .assertion
      else do
        let p ← fdpoolRemove p tail
        .ok (p, tail)

/-- `fdpool_clear`. -/
def fdpoolClear (p : Pool) (pfd : Addr) : Pool :=
  { p with
    fd := Function.update p.fd pfd invalidFd
    prev := Function.update p.prev pfd none
    next := Function.update p.next pfd none }

/-- `open`, when it returns a descriptor. -/
def openFd (p : Pool) (fd : ℤ) : Pool := { p with opened := insert fd p.opened }

/-- `close`, which does nothing to a descriptor that is not open. -/
def closeFd (p : Pool) (fd : ℤ) : Pool := { p with opened := p.opened.erase fd }

/-- `fdpool_unpool`. -/
def fdpoolUnpool (p : Pool) (pfd : Addr) : Pool := fdpoolClear (closeFd p (p.fd pfd)) pfd

/-- `fdpool_evict`. -/
def fdpoolEvict (p : Pool) : Except PoolFault Pool := do
  let (p, tail) ← fdpoolRemoveTail p
  .ok (fdpoolUnpool p tail)

/-- `fdpool_pool`. -/
def fdpoolPool (p : Pool) (pfd : Addr) (fd : ℤ) : Except PoolFault Pool := do
  let p ← (if (fdpoolSize : ℤ) ≤ p.fdpoolCount then fdpoolEvict p else .ok p)
  let p ← fdpoolInsertHead p pfd
  .ok { p with fd := Function.update p.fd pfd fd }

/-- `fdpool_touch`. -/
def fdpoolTouch (p : Pool) (pfd : Addr) : Except PoolFault Pool := do
  let p ← fdpoolRemove p pfd
  fdpoolInsertHead p pfd

/-- `fdpool_init`. -/
def fdpoolInit (p : Pool) (pfd : Addr) : Pool := fdpoolClear p pfd

/-- `fdpool_open`, where `answer` is what `open` returns if it is called. -/
def fdpoolOpen (p : Pool) (pfd : Addr) (answer : ℤ) : Except PoolFault (Pool × ℤ) :=
  if p.fd pfd ≠ invalidFd then do
    let p ← fdpoolTouch p pfd
    .ok (p, p.fd pfd)
  else if 0 ≤ answer then do
    let p ← fdpoolPool (openFd p answer) pfd answer
    .ok (p, answer)
  else .ok (p, answer)

/-- `fdpool_close`. -/
def fdpoolClose (p : Pool) (pfd : Addr) : Pool := fdpoolUnpool p pfd

/-! ## Callers -/

/-- A call of one of the functions of `fdpool.h`. -/
inductive PoolCall where
  | fdpoolInit (i : ℕ)
  | fdpoolOpen (i : ℕ) (answer : ℤ)
  | fdpoolClose (i : ℕ)
  deriving DecidableEq, Repr

/-- The pool, the nodes that its callers have initialised, and the nodes that they have opened, the
last one first. -/
structure Session where
  pool : Pool
  known : Finset ℕ
  uses : List ℕ

/-- A call, and the descriptor that it returns if it is an `fdpool_open`. -/
def Session.step (s : Session) : PoolCall → Except PoolFault (Session × Option ℤ)
  | .fdpoolInit i =>
      .ok ({ s with pool := Fat.fdpoolInit s.pool (.node i), known := insert i s.known }, none)
  | .fdpoolOpen i answer => do
      let (p, fd) ← Fat.fdpoolOpen s.pool (.node i) answer
      .ok ({ s with pool := p, uses := if 0 ≤ fd then i :: s.uses else s.uses }, some fd)
  | .fdpoolClose i => .ok ({ s with pool := Fat.fdpoolClose s.pool (.node i) }, none)

/-- The callers initialise fresh nodes, open nodes that they have initialised and close nodes that
are open, and `open` fails or returns a descriptor that is not open yet. -/
def Session.Allowed (s : Session) : PoolCall → Prop
  | .fdpoolInit i => i ∉ s.known
  | .fdpoolOpen i answer => i ∈ s.known ∧ (0 ≤ answer → answer ∉ s.pool.opened)
  | .fdpoolClose i => i ∈ s.known ∧ s.pool.fd (.node i) ≠ invalidFd

instance (s : Session) (c : PoolCall) : Decidable (s.Allowed c) := by
  cases c <;> unfold Session.Allowed <;> infer_instance

/-- The calls, one after the other. -/
def Session.run (s : Session) (calls : List PoolCall) : Except PoolFault Session :=
  calls.foldlM (fun s c => do
    let (s, _) ← s.step c
    .ok s) s

/-- Every call is allowed when it is made. -/
def Session.Permits : Session → List PoolCall → Prop
  | _, [] => True
  | s, c :: calls => s.Allowed c ∧
      match s.step c with
      | .error _ => True
      | .ok (s', _) => s'.Permits calls

/-- What `fdpool.c` starts with; the nodes hold anything. -/
structure Session.Start (s : Session) : Prop where
  next : s.pool.next .head = some .head
  prev : s.pool.prev .head = some .head
  count : s.pool.fdpoolCount = 0
  opened : s.pool.opened = ∅
  known : s.known = ∅
  uses : s.uses = []

/-- The nodes of `l` are the ones in the ring. -/
structure Session.Pooled (s : Session) (l : List ℕ) : Prop where
  ring : LinkedRing s.pool.next s.pool.prev .head (l.map .node)
  count : s.pool.fdpoolCount = l.length
  room : l.length ≤ fdpoolSize
  known : ∀ i ∈ l, i ∈ s.known
  listed : ∀ i ∈ s.known, i ∈ l ↔ s.pool.fd (.node i) ≠ invalidFd
  valid : ∀ i ∈ l, 0 ≤ s.pool.fd (.node i)
  opened : ∀ fd, fd ∈ s.pool.opened ↔ ∃ i ∈ l, s.pool.fd (.node i) = fd
  distinct : (l.map fun i => s.pool.fd (.node i)).Nodup
  recent : l.Pairwise fun i j => s.uses.idxOf i < s.uses.idxOf j

/-- The state is as it should be. -/
def Session.Sound (s : Session) : Prop := ∃ l, s.Pooled l

/-- Each state of the run is as it should be, no assertion fails, and every descriptor that is
returned is open. -/
def Session.Keeps : Session → List PoolCall → Prop
  | s, [] => s.Sound
  | s, c :: calls => s.Sound ∧
      match s.step c with
      | .error _ => False
      | .ok (s', result) => (∀ fd ∈ result, 0 ≤ fd → fd ∈ s'.pool.opened) ∧ s'.Keeps calls

/-! ## The ring -/

section Links

variable {p : Pool} {l : List ℕ} {i : ℕ}

theorem node_injective : Function.Injective Addr.node := fun _ _ h => Addr.node.inj h

@[simp] theorem mem_map_node : Addr.node i ∈ l.map Addr.node ↔ i ∈ l :=
  List.mem_map_of_injective node_injective

theorem update_node_of_ne {β : Type*} {f : Addr → β} {v : β} {j : ℕ} (h : j ≠ i) :
    Function.update f (.node i) v (.node j) = f (.node j) :=
  Function.update_of_ne (node_injective.ne h) v f

theorem node_not_mem_ring (hi : i ∉ l) : Addr.node i ∉ .head :: l.map Addr.node := by
  rw [List.mem_cons, mem_map_node]
  exact fun h => h.elim (fun h => by cases h) hi

theorem fdpoolInsertHead_spec (h : LinkedRing p.next p.prev .head (l.map .node)) (hi : i ∉ l) :
    ∃ q, fdpoolInsertHead p (.node i) = .ok q ∧
      LinkedRing q.next q.prev .head ((i :: l).map .node) ∧
      q.fdpoolCount = p.fdpoolCount + 1 ∧ q.fd = p.fd ∧ q.opened = p.opened := by
  obtain ⟨n, hnext, hring⟩ := h.insert (node_not_mem_ring hi)
  unfold fdpoolInsertHead
  rw [hnext]
  exact ⟨_, rfl, hring, rfl, rfl, rfl⟩

theorem fdpoolRemove_spec (h : LinkedRing p.next p.prev .head (l.map .node)) (hi : i ∈ l) :
    ∃ q, fdpoolRemove p (.node i) = .ok q ∧
      LinkedRing q.next q.prev .head ((l.erase i).map .node) ∧
      q.fdpoolCount = p.fdpoolCount - 1 ∧ q.fd = p.fd ∧ q.opened = p.opened := by
  obtain ⟨prev, next, hprev, hnext, hring⟩ := h.remove (mem_map_node.mpr hi)
  unfold fdpoolRemove
  rw [hprev, hnext]
  rw [← List.map_erase node_injective] at hring
  exact ⟨_, rfl, hring, rfl, rfl, rfl⟩

theorem fdpoolTouch_spec (h : LinkedRing p.next p.prev .head (l.map .node)) (hl : l.Nodup)
    (hi : i ∈ l) : ∃ q, fdpoolTouch p (.node i) = .ok q ∧
      LinkedRing q.next q.prev .head ((i :: l.erase i).map .node) ∧
      q.fdpoolCount = p.fdpoolCount ∧ q.fd = p.fd ∧ q.opened = p.opened := by
  obtain ⟨p₁, hremove, hring₁, hcount₁, hfd₁, hopened₁⟩ := fdpoolRemove_spec h hi
  obtain ⟨p₂, hinsert, hring₂, hcount₂, hfd₂, hopened₂⟩ :=
    fdpoolInsertHead_spec hring₁ hl.not_mem_erase
  refine ⟨p₂, ?_, hring₂, ?_, ?_, ?_⟩
  · rw [fdpoolTouch, hremove, bind_ok, hinsert]
  · rw [hcount₂, hcount₁, Int.sub_add_cancel]
  · rw [hfd₂, hfd₁]
  · rw [hopened₂, hopened₁]

/-- The node at the end of the ring is closed, cleared and taken out. -/
theorem fdpoolEvict_spec (h : LinkedRing p.next p.prev .head ((l ++ [i]).map .node))
    (hi : i ∉ l) : ∃ q, fdpoolEvict p = .ok q ∧
      LinkedRing q.next q.prev .head (l.map .node) ∧ q.fdpoolCount = p.fdpoolCount - 1 ∧
      q.fd = Function.update p.fd (.node i) invalidFd ∧
      q.opened = p.opened.erase (p.fd (.node i)) := by
  obtain ⟨q, hremove, hring, hcount, hfd, hopened⟩ :=
    fdpoolRemove_spec h (List.mem_append_right l (List.mem_singleton_self i))
  have htail : p.prev .head = some (.node i) := by
    rw [h.prev_head (by simp), List.getLast_map]
    simp
  have hrest : (l ++ [i]).erase i = l := by
    rw [List.erase_append_right _ hi, List.erase_cons_head, List.append_nil]
  rw [hrest] at hring
  refine ⟨fdpoolUnpool q (.node i), ?_, ?_, hcount, ?_, ?_⟩
  · rw [fdpoolEvict, fdpoolRemoveTail, htail]
    simp [hremove]
  · refine hring.congr (fun a ha => ?_) fun a ha => ?_
    · exact Function.update_of_ne (ne_of_mem_of_not_mem ha (node_not_mem_ring hi)) _ _
    · exact Function.update_of_ne (ne_of_mem_of_not_mem ha (node_not_mem_ring hi)) _ _
  · rw [← hfd]
    rfl
  · rw [← hfd, ← hopened]
    rfl

end Links

/-! ## One call -/

section Calls

variable {s : Session} {l : List ℕ} {i : ℕ} {answer : ℤ}

theorem Session.Start.pooled (h : s.Start) : s.Pooled [] where
  ring := LinkedRing.nil h.next h.prev
  count := h.count
  room := Nat.zero_le _
  known := fun i hi => absurd hi List.not_mem_nil
  listed := fun i hi => by simp [h.known] at hi
  valid := fun i hi => absurd hi List.not_mem_nil
  opened := fun fd => by simp [h.opened]
  distinct := List.nodup_nil
  recent := List.Pairwise.nil

namespace Session.Pooled

theorem nodup (h : s.Pooled l) : l.Nodup := h.ring.nodup.of_cons.of_map

theorem fd_ne (h : s.Pooled l) (hi : i ∈ l) : s.pool.fd (.node i) ≠ invalidFd :=
  (h.listed i (h.known i hi)).mp hi

theorem fd_mem (h : s.Pooled l) (hi : i ∈ l) : s.pool.fd (.node i) ∈ s.pool.opened :=
  (h.opened _).mpr ⟨i, hi, rfl⟩

/-- A fresh node is not in the ring. -/
theorem init (h : s.Pooled l) (hi : i ∉ s.known) : Session.Pooled
    { s with pool := fdpoolInit s.pool (.node i), known := insert i s.known } l := by
  have hout : i ∉ l := fun hmem => hi (h.known i hmem)
  have hfd : ∀ j ∈ l, (fdpoolInit s.pool (.node i)).fd (.node j) = s.pool.fd (.node j) :=
    fun j hj => update_node_of_ne (ne_of_mem_of_not_mem hj hout)
  refine ⟨h.ring.congr (fun a ha => ?_) fun a ha => ?_, h.count, h.room, fun j hj => ?_,
    fun j hj => ?_, fun j hj => ?_, fun fd => ?_, ?_, h.recent⟩
  · exact Function.update_of_ne (ne_of_mem_of_not_mem ha (node_not_mem_ring hout)) _ _
  · exact Function.update_of_ne (ne_of_mem_of_not_mem ha (node_not_mem_ring hout)) _ _
  · exact Finset.mem_insert_of_mem (h.known j hj)
  · change j ∈ l ↔ Function.update s.pool.fd (.node i) invalidFd (.node j) ≠ invalidFd
    rcases Finset.mem_insert.mp hj with rfl | hj
    · rw [Function.update_self]
      exact iff_of_false hout (not_not_intro rfl)
    · rw [update_node_of_ne (ne_of_mem_of_not_mem hj hi), h.listed j hj]
  · rw [hfd j hj]
    exact h.valid j hj
  · rw [show (fdpoolInit s.pool (.node i)).opened = s.pool.opened from rfl, h.opened fd]
    exact exists_congr fun j => and_congr_right fun hj => by rw [hfd j hj]
  · rw [List.map_congr_left hfd]
    exact h.distinct

/-- The node that is used goes in front of those that are still in the ring. -/
theorem recent_cons {l' : List ℕ} (h : s.Pooled l) (hsub : l'.Sublist l) (hi : i ∉ l') :
    (i :: l').Pairwise fun j k => (i :: s.uses).idxOf j < (i :: s.uses).idxOf k := by
  have hskip : ∀ j ∈ l', (i :: s.uses).idxOf j = s.uses.idxOf j + 1 :=
    fun j hj => List.idxOf_cons_ne _ (ne_of_mem_of_not_mem hj hi).symm
  refine List.pairwise_cons.mpr ⟨fun j hj => ?_, ?_⟩
  · rw [List.idxOf_cons_self, hskip j hj]
    exact Nat.succ_pos _
  · refine (h.recent.sublist hsub).imp_of_mem fun {j k} hj hk hjk => ?_
    rw [hskip j hj, hskip k hk]
    exact Nat.succ_lt_succ hjk

/-- A node of the ring that is used again. -/
theorem touch (h : s.Pooled l) (hi : i ∈ l) : ∃ q, fdpoolTouch s.pool (.node i) = .ok q ∧
    q.fd = s.pool.fd ∧
      Session.Pooled { s with pool := q, uses := i :: s.uses } (i :: l.erase i) := by
  obtain ⟨q, htouch, hring, hcount, hfd, hopened⟩ := fdpoolTouch_spec h.ring h.nodup hi
  have hperm : l.Perm (i :: l.erase i) := List.perm_cons_erase hi
  refine ⟨q, htouch, hfd, hring, ?_, ?_, fun j hj => ?_, fun j hj => ?_, fun j hj => ?_,
    fun fd => ?_, ?_, ?_⟩
  · rw [hcount, h.count, hperm.length_eq]
  · rw [← hperm.length_eq]
    exact h.room
  · exact h.known j (hperm.mem_iff.mpr hj)
  · rw [← hperm.mem_iff, h.listed j hj, hfd]
  · rw [hfd]
    exact h.valid j (hperm.mem_iff.mpr hj)
  · rw [hopened, h.opened fd, hfd]
    exact exists_congr fun j => and_congr_left fun _ => hperm.mem_iff
  · rw [hfd]
    exact (hperm.map _).nodup_iff.mp h.distinct
  · exact h.recent_cons List.erase_sublist h.nodup.not_mem_erase

/-- The node that was used longest ago gives up its place. -/
theorem evict (h : s.Pooled (l ++ [i])) (hfresh : answer ∉ s.pool.opened) :
    ∃ q, fdpoolEvict (openFd s.pool answer) = .ok (openFd q answer) ∧
      answer ∉ q.opened ∧ Session.Pooled { s with pool := q } l := by
  have hi : i ∈ l ++ [i] := List.mem_append_right l (List.mem_singleton_self i)
  have hout : i ∉ l := fun hmem => (List.nodup_append.mp h.nodup).2.2 i hmem i (by simp) rfl
  have hanswer : answer ≠ s.pool.fd (.node i) := fun heq => hfresh (heq ▸ h.fd_mem hi)
  obtain ⟨q, hevict, hring, hcount, hfd, hopened⟩ :=
    fdpoolEvict_spec (p := openFd s.pool answer) h.ring hout
  dsimp only [openFd] at hcount hfd hopened
  have hkeep : ∀ j ∈ l, q.fd (.node j) = s.pool.fd (.node j) := fun j hj => by
    rw [hfd, update_node_of_ne (ne_of_mem_of_not_mem hj hout)]
  refine ⟨{ q with opened := s.pool.opened.erase (s.pool.fd (.node i)) }, ?_,
    fun hmem => hfresh (Finset.mem_of_mem_erase hmem), hring, ?_, ?_, fun j hj => ?_,
    fun j hj => ?_, fun j hj => ?_, fun fd => ?_, ?_, ?_⟩
  · rw [hevict, openFd, ← Finset.erase_insert_of_ne hanswer, ← hopened]
  · rw [hcount, h.count, List.length_append, List.length_singleton]
    push_cast
    ring
  · exact (Nat.le_of_lt (by simp)).trans h.room
  · exact h.known j (List.mem_append_left _ hj)
  · change j ∈ l ↔ q.fd (.node j) ≠ invalidFd
    rw [hfd]
    by_cases hji : j = i
    · rw [hji, Function.update_self]
      exact iff_of_false hout (not_not_intro rfl)
    · rw [update_node_of_ne hji, ← h.listed j hj, List.mem_append, List.mem_singleton,
        or_iff_left hji]
  · change 0 ≤ q.fd (.node j)
    rw [hkeep j hj]
    exact h.valid j (List.mem_append_left _ hj)
  · change fd ∈ s.pool.opened.erase _ ↔ ∃ j ∈ l, q.fd (.node j) = fd
    rw [Finset.mem_erase, h.opened fd]
    constructor
    · intro ⟨hne, j, hj, hjfd⟩
      have hjl : j ∈ l := (List.mem_append.mp hj).resolve_right fun hji => by
        rw [List.mem_singleton.mp hji] at hjfd
        exact hne hjfd.symm
      exact ⟨j, hjl, (hkeep j hjl).trans hjfd⟩
    · intro ⟨j, hj, hjfd⟩
      rw [hkeep j hj] at hjfd
      refine ⟨fun heq => hout ?_, j, List.mem_append_left _ hj, hjfd⟩
      have hsame := List.inj_on_of_nodup_map h.distinct (List.mem_append_left _ hj) hi
        (hjfd.trans heq)
      exact hsame ▸ hj
  · rw [List.map_congr_left hkeep]
    exact h.distinct.sublist ((List.sublist_append_left l [i]).map _)
  · exact h.recent.sublist (List.sublist_append_left l [i])

/-- There is a place for one more node in the end. -/
theorem makeRoom (h : s.Pooled l) (hfresh : answer ∉ s.pool.opened) :
    ∃ q l', (if (fdpoolSize : ℤ) ≤ (openFd s.pool answer).fdpoolCount then
        fdpoolEvict (openFd s.pool answer) else .ok (openFd s.pool answer)) =
          .ok (openFd q answer) ∧
      answer ∉ q.opened ∧ Session.Pooled { s with pool := q } l' ∧ l'.length < fdpoolSize ∧
        ∀ j ∈ l', j ∈ l := by
  change ∃ q l', (if (fdpoolSize : ℤ) ≤ s.pool.fdpoolCount then _ else _) = _ ∧ _
  split
  · rename_i hfull
    rw [h.count, Nat.cast_le] at hfull
    rcases List.eq_nil_or_concat l with rfl | ⟨l', i, rfl⟩
    · exact absurd hfull (by decide)
    · rw [List.concat_eq_append] at h
      obtain ⟨q, hevict, hout, hq⟩ := h.evict hfresh
      refine ⟨q, l', hevict, hout, hq, ?_, fun j hj => ?_⟩
      · have hroom := h.room
        rw [List.length_append, List.length_singleton] at hroom
        exact hroom
      · rw [List.concat_eq_append]
        exact List.mem_append_left _ hj
  · rename_i hroom
    rw [h.count, Nat.cast_le, not_le] at hroom
    exact ⟨s.pool, l, rfl, hfresh, h, hroom, fun j hj => hj⟩

/-- A node that is opened and put behind the head. -/
theorem insert (h : s.Pooled l) (hroom : l.length < fdpoolSize) (hknown : i ∈ s.known)
    (hi : i ∉ l) (hvalid : 0 ≤ answer) (hfresh : answer ∉ s.pool.opened) :
    ∃ q, fdpoolInsertHead (openFd s.pool answer) (.node i) = .ok q ∧ answer ∈ q.opened ∧
        Session.Pooled
          { s with pool := { q with fd := Function.update q.fd (.node i) answer },
                   uses := i :: s.uses } (i :: l) := by
  obtain ⟨q, hinsert, hring, hcount, hfd, hopened⟩ :=
    fdpoolInsertHead_spec (p := openFd s.pool answer) h.ring hi
  dsimp only [openFd] at hcount hfd hopened
  have hkeep : ∀ j ∈ l, Function.update q.fd (.node i) answer (.node j) = s.pool.fd (.node j) :=
    fun j hj => by rw [update_node_of_ne (ne_of_mem_of_not_mem hj hi), hfd]
  refine ⟨q, hinsert, ?_, hring, ?_, hroom, fun j hj => ?_, fun j hj => ?_, fun j hj => ?_,
    fun fd => ?_, ?_, h.recent_cons (List.Sublist.refl l) hi⟩
  · rw [hopened]
    exact Finset.mem_insert_self _ _
  · rw [hcount, h.count, List.length_cons]
    push_cast
    ring
  · rcases List.mem_cons.mp hj with rfl | hj
    · exact hknown
    · exact h.known j hj
  · change j ∈ i :: l ↔ Function.update q.fd (.node i) answer (.node j) ≠ invalidFd
    by_cases hji : j = i
    · rw [hji, Function.update_self]
      refine iff_of_true List.mem_cons_self fun heq => ?_
      rw [heq] at hvalid
      exact absurd hvalid (by decide)
    · rw [update_node_of_ne hji, hfd, ← h.listed j hj, List.mem_cons, or_iff_right hji]
  · change 0 ≤ Function.update q.fd (.node i) answer (.node j)
    rcases List.mem_cons.mp hj with rfl | hj
    · rw [Function.update_self]
      exact hvalid
    · rw [hkeep j hj]
      exact h.valid j hj
  · change fd ∈ q.opened ↔ ∃ j ∈ i :: l, Function.update q.fd (.node i) answer (.node j) = fd
    rw [hopened, Finset.mem_insert, h.opened fd, List.exists_mem_cons_iff, Function.update_self,
      eq_comm]
    exact or_congr_right (exists_congr fun j => and_congr_right fun hj => by rw [hkeep j hj])
  · change ((i :: l).map fun j => Function.update q.fd (.node i) answer (.node j)).Nodup
    rw [List.map_cons, Function.update_self, List.map_congr_left hkeep, List.nodup_cons]
    refine ⟨fun hmem => hfresh ?_, h.distinct⟩
    obtain ⟨j, hj, rfl⟩ := List.mem_map.mp hmem
    exact h.fd_mem hj

/-- `fdpool_open` on a node that is not in the ring. -/
theorem open_of_not_mem (h : s.Pooled l) (hknown : i ∈ s.known) (hi : i ∉ l) (hvalid : 0 ≤ answer)
    (hfresh : answer ∉ s.pool.opened) : ∃ q l', fdpoolOpen s.pool (.node i) answer = .ok (q, answer) ∧
      answer ∈ q.opened ∧ Session.Pooled { s with pool := q, uses := i :: s.uses } l' := by
  obtain ⟨q, l', hroom, hout, hq, hlt, hsub⟩ := h.makeRoom hfresh
  obtain ⟨q', hinsert, hmem, hq'⟩ := hq.insert hlt hknown (fun hmem => hi (hsub i hmem)) hvalid hout
  have hclosed : ¬ s.pool.fd (.node i) ≠ invalidFd := (h.listed i hknown).not.mp hi
  refine ⟨{ q' with fd := Function.update q'.fd (.node i) answer }, _, ?_, hmem, hq'⟩
  rw [fdpoolOpen, if_neg hclosed, if_pos hvalid, fdpoolPool, hroom, bind_ok, hinsert, bind_ok,
    bind_ok]

/-- A call other than `fdpool_close` goes well, and what it returns is open. -/
theorem step {c : PoolCall} (h : s.Pooled l) (hallowed : s.Allowed c)
    (hc : ∀ i, c ≠ .fdpoolClose i) :
    ∃ s' result, s.step c = .ok (s', result) ∧ s'.Sound ∧
      ∀ fd ∈ result, 0 ≤ fd → fd ∈ s'.pool.opened := by
  cases c with
  | fdpoolInit i => exact ⟨_, _, rfl, ⟨l, h.init hallowed⟩, fun fd hfd => by cases hfd⟩
  | fdpoolClose i => exact absurd rfl (hc i)
  | fdpoolOpen i answer =>
      obtain ⟨hknown, hfresh⟩ := hallowed
      by_cases hi : i ∈ l
      · obtain ⟨q, htouch, hfd, hq⟩ := h.touch hi
        have hopen : fdpoolOpen s.pool (.node i) answer = .ok (q, s.pool.fd (.node i)) := by
          rw [fdpoolOpen, if_pos (h.fd_ne hi), htouch, bind_ok, hfd]
        have hmem : q.fd (.node i) ∈ q.opened := hq.fd_mem List.mem_cons_self
        rw [hfd] at hmem
        refine ⟨_, _, by rw [Session.step, hopen]; rfl, ⟨i :: l.erase i, ?_⟩, fun fd hfd _ => ?_⟩
        · rw [if_pos (h.valid i hi)]
          exact hq
        · obtain rfl := Option.some.inj hfd
          exact hmem
      · by_cases hvalid : 0 ≤ answer
        · obtain ⟨q, l', hopen, hmem, hq⟩ := h.open_of_not_mem hknown hi hvalid (hfresh hvalid)
          refine ⟨_, _, by rw [Session.step, hopen]; rfl, ⟨l', ?_⟩, fun fd hfd _ => ?_⟩
          · rw [if_pos hvalid]
            exact hq
          · obtain rfl := Option.some.inj hfd
            exact hmem
        · have hopen : fdpoolOpen s.pool (.node i) answer = .ok (s.pool, answer) := by
            rw [fdpoolOpen, if_neg ((h.listed i hknown).not.mp hi), if_neg hvalid]
          refine ⟨_, _, by rw [Session.step, hopen]; rfl, ⟨l, ?_⟩, fun fd hfd hpos => ?_⟩
          · rw [if_neg hvalid]
            exact h
          · obtain rfl := Option.some.inj hfd
            exact absurd hpos hvalid

end Session.Pooled

end Calls

/-! ## Every run -/

section Runs

variable {s : Session} {l : List ℕ} {i : ℕ}

/-- A node that is closed stays in the ring, so that the count is too large. -/
theorem Session.Pooled.not_sound_fdpoolClose (h : s.Pooled l)
    (hallowed : s.Allowed (.fdpoolClose i)) :
    ¬ Session.Sound { s with pool := fdpoolClose s.pool (.node i) } := by
  intro ⟨l', h'⟩
  obtain ⟨hknown, hopen⟩ := hallowed
  have hi : i ∈ l := (h.listed i hknown).mpr hopen
  have hmem : ∀ j, j ∈ l' ↔ j ∈ l.erase i := by
    intro j
    rw [h.nodup.mem_erase_iff]
    by_cases hj : j ∈ s.known
    · rw [h'.listed j hj, h.listed j hj]
      change Function.update s.pool.fd (.node i) invalidFd (.node j) ≠ invalidFd ↔ _
      by_cases hji : j = i
      · rw [hji, Function.update_self]
        exact iff_of_false (not_not_intro rfl) fun h => h.1 rfl
      · rw [update_node_of_ne hji]
        exact ⟨fun h => ⟨hji, h⟩, fun h => h.2⟩
    · exact iff_of_false (fun hmem => hj (h'.known j hmem)) fun hmem => hj (h.known j hmem.2)
  have hperm : l'.Perm (l.erase i) :=
    (List.perm_ext_iff_of_nodup h'.nodup (h.nodup.erase i)).mpr hmem
  have hshort : l'.length + 1 = l.length := by
    rw [hperm.length_eq, List.length_erase_add_one hi]
  have hcount : (l'.length : ℤ) = l.length := h'.count.symm.trans h.count
  omega

theorem keeps_of_no_close : ∀ {calls : List PoolCall} {s : Session}, s.Sound → s.Permits calls →
    (∀ i, .fdpoolClose i ∉ calls) → s.Keeps calls := by
  intro calls
  induction calls with
  | nil => exact fun h _ _ => h
  | cons c calls ih =>
      intro s h hpermits hclose
      obtain ⟨l, hl⟩ := h
      obtain ⟨s', result, hstep, hsound, hresult⟩ := hl.step hpermits.1
        fun i hi => hclose i (hi ▸ List.mem_cons_self)
      have hrest := hpermits.2
      unfold Session.Keeps
      rw [hstep] at hrest ⊢
      exact ⟨⟨l, hl⟩, hresult, ih hsound hrest fun i hi => hclose i (List.mem_cons_of_mem c hi)⟩

theorem no_close_of_keeps : ∀ {calls : List PoolCall} {s : Session}, s.Permits calls →
    s.Keeps calls → ∀ i, .fdpoolClose i ∉ calls := by
  intro calls
  induction calls with
  | nil => exact fun _ _ _ => List.not_mem_nil
  | cons c calls ih =>
      intro s hpermits hkeeps i hi
      obtain ⟨⟨l, hl⟩, hrest⟩ := hkeeps
      obtain ⟨hallowed, hpermits⟩ := hpermits
      rcases List.mem_cons.mp hi with rfl | hi
      · have hnext : Session.Sound { s with pool := fdpoolClose s.pool (.node i) } := by
          cases calls with
          | nil => exact hrest.2
          | cons c calls => exact hrest.2.1
        exact hl.not_sound_fdpoolClose hallowed hnext
      · cases hstep : s.step c with
        | error e =>
            rw [hstep] at hrest
            exact hrest
        | ok r =>
            rw [hstep] at hrest hpermits
            exact ih hpermits hrest.2 i hi

/-- **The pool.**  In a run of calls from the start every state is as it should be, every assertion
holds and every descriptor that is returned is open, if and only if nobody calls `fdpool_close`. -/
theorem keeps_iff_no_close {calls : List PoolCall} (hstart : s.Start) (hpermits : s.Permits calls) :
    s.Keeps calls ↔ ∀ i, .fdpoolClose i ∉ calls :=
  ⟨no_close_of_keeps hpermits, keeps_of_no_close ⟨[], hstart.pooled⟩ hpermits⟩

end Runs

/-! ## Runs of the pool -/

/-- The pool at the start, with nodes whose memory is zero. -/
def emptySession : Session where
  pool :=
    { fd := fun a => if a = .head then invalidFd else 0
      prev := fun a => if a = .head then some .head else none
      next := fun a => if a = .head then some .head else none
      fdpoolCount := 0
      opened := ∅ }
  known := ∅
  uses := []

theorem start_emptySession : emptySession.Start := ⟨rfl, rfl, rfl, rfl, rfl, rfl⟩

instance Session.decidablePermits : ∀ (s : Session) (calls : List PoolCall),
    Decidable (s.Permits calls)
  | _, [] => .isTrue trivial
  | s, c :: calls =>
      match hstep : s.step c with
      | .error _ => decidable_of_iff (s.Allowed c) (by simp [Session.Permits, hstep])
      | .ok (s', _) =>
          let := Session.decidablePermits s' calls
          decidable_of_iff (s.Allowed c ∧ s'.Permits calls) (by simp [Session.Permits, hstep])

/-- Six files are opened, one after the other, and one of them again. -/
def sixFiles : List PoolCall :=
  [.fdpoolInit 1, .fdpoolInit 2, .fdpoolInit 3, .fdpoolInit 4, .fdpoolInit 5, .fdpoolInit 6,
    .fdpoolOpen 1 3, .fdpoolOpen 2 4, .fdpoolOpen 3 5, .fdpoolOpen 4 6, .fdpoolOpen 5 7,
    .fdpoolOpen 2 3, .fdpoolOpen 6 3]

theorem keeps_iff_no_close_sixFiles : emptySession.Keeps sixFiles :=
  (keeps_iff_no_close start_emptySession (by decide)).mpr (by simp [sixFiles])

/-- A file that is closed stays at the end of the ring, and the fifth file that is opened after that
has the pool stop at the assertion in `fdpool_remove`. -/
def closedFile : List PoolCall :=
  [.fdpoolInit 1, .fdpoolInit 2, .fdpoolInit 3, .fdpoolInit 4, .fdpoolInit 5,
    .fdpoolOpen 1 3, .fdpoolClose 1, .fdpoolOpen 2 3, .fdpoolOpen 3 4, .fdpoolOpen 4 5,
    .fdpoolOpen 5 6]

theorem not_keeps_closedFile : emptySession.Permits closedFile ∧
    emptySession.run closedFile = .error .assertion ∧ ¬ emptySession.Keeps closedFile := by
  have hpermits : emptySession.Permits closedFile := by decide
  exact ⟨hpermits, rfl, fun hkeeps => no_close_of_keeps hpermits hkeeps 1 (by decide)⟩

end SystemExtras.Fat
