import SystemExtras.Ext4.RegionLists
import SystemExtras.Lib.Threads

/-!
# Moving regions from one list to another

`region_list_remove` and `region_list_append` seen as operations on links: a heap of regions is
its links forwards, its links backwards and the contents of the regions, which no operation on
lists changes.  `Moving` is the state in the loop of `reserve_oob_blocks`, and `Moving.run` says
that the loop moves the regions in front of the cursor.

Lists are given by the addresses of their regions, read along the links forwards.  Of the links
backwards only that of the next region to be moved matters, as the others are set in time.
-/

namespace SystemExtras.Ext4

/-! ## Heaps as links and contents -/

namespace RegionHeap

def nextOf (h : RegionHeap) (a : ℕ) : Option ℕ := (h.node a).bind Region.next

def prevOf (h : RegionHeap) (a : ℕ) : Option ℕ := (h.node a).bind Region.prev

/-- What a region stands for. -/
def piece (h : RegionHeap) (a : ℕ) : Option Piece := (h.node a).map fun r => ⟨r.block, r.len, r.bg⟩

/-- The blocks of the region at an address. -/
def blocksAt (h : RegionHeap) (a : ℕ) : List ℕ := ((h.piece a).map Piece.blocks).getD []

/-- There is a region with blocks at an address. -/
def Holds (h : RegionHeap) (a : ℕ) : Prop :=
  a < h.brk ∧ ∃ q, h.piece a = some q ∧ 0 < q.len ∧ q.block + q.len ≤ 2 ^ 32

section Contents

variable {h h' : RegionHeap} {a p : ℕ} {r q q' : Region}

theorem nextOf_eq (hr : h.node a = some r) : h.nextOf a = r.next := by
  rw [nextOf, hr, Option.bind_some]

theorem prevOf_eq (hr : h.node a = some r) : h.prevOf a = r.prev := by
  rw [prevOf, hr, Option.bind_some]

theorem piece_eq (hr : h.node a = some r) : h.piece a = some ⟨r.block, r.len, r.bg⟩ := by
  rw [piece, hr, Option.map_some]

theorem blocksAt_eq (hr : h.node a = some r) : h.blocksAt a = List.range' r.block r.len := by
  rw [blocksAt, piece_eq hr]
  rfl

theorem exists_node_of_piece (hpiece : h'.piece = h.piece) (hr : ∃ r, h.node a = some r) :
    ∃ r, h'.node a = some r := by
  obtain ⟨r, hr⟩ := hr
  have ha := congrFun hpiece a
  rw [piece_eq hr, piece, Option.map_eq_some_iff] at ha
  obtain ⟨r', hr', -⟩ := ha
  exact ⟨r', hr'⟩

theorem Holds.node (ha : h.Holds a) : ∃ r, h.node a = some r := by
  obtain ⟨-, q, hq, -⟩ := ha
  rw [piece, Option.map_eq_some_iff] at hq
  obtain ⟨r, hr, -⟩ := hq
  exact ⟨r, hr⟩

theorem holds_iff (hr : h.node a = some r) :
    h.Holds a ↔ a < h.brk ∧ 0 < r.len ∧ r.block + r.len ≤ 2 ^ 32 := by
  simp only [Holds, piece_eq hr, Option.some.injEq, exists_eq_left']

theorem Holds.blocksAt_length_pos (ha : h.Holds a) : 0 < (h.blocksAt a).length := by
  obtain ⟨r, hr⟩ := ha.node
  rw [blocksAt_eq hr, List.length_range']
  exact ((holds_iff hr).mp ha).2.1

theorem Holds.congr (ha : h.Holds a) (hpiece : h'.piece = h.piece) (hbrk : h'.brk = h.brk) :
    h'.Holds a := by
  rwa [Holds, hpiece, hbrk]

theorem blocksAt_of_piece (hpiece : h'.piece = h.piece) : h'.blocksAt = h.blocksAt := by
  funext a
  rw [blocksAt, blocksAt, hpiece]

theorem nextOf_write : (h.write p q').nextOf = Function.update h.nextOf p q'.next := by
  funext x
  by_cases hx : x = p
  · subst hx
    rw [Function.update_self, nextOf_eq (write_node_self _ _ _)]
  · rw [Function.update_of_ne hx, nextOf, nextOf, write_node_of_ne _ _ hx]

theorem prevOf_write : (h.write p q').prevOf = Function.update h.prevOf p q'.prev := by
  funext x
  by_cases hx : x = p
  · subst hx
    rw [Function.update_self, prevOf_eq (write_node_self _ _ _)]
  · rw [Function.update_of_ne hx, prevOf, prevOf, write_node_of_ne _ _ hx]

/-- Writing links does not change contents. -/
theorem piece_write (hq : h.node p = some q) (next prev : Option ℕ) :
    (h.write p { q with next := next, prev := prev }).piece = h.piece := by
  funext x
  by_cases hx : x = p
  · subst hx
    rw [piece_eq (write_node_self _ _ _), piece_eq hq]
  · rw [piece, piece, write_node_of_ne _ _ hx]

end Contents

end RegionHeap

open RegionHeap

/-! ## The two list operations -/

/-- The assignment through a link forwards, if it leads anywhere. -/
def RegionHeap.setNext (h : RegionHeap) (o v : Option ℕ) : Except Stop RegionHeap :=
  match o with
  | none => .ok h
  | some p => do
      let q ← h.deref (some p)
      .ok (h.write p { q with next := v })

/-- The assignment through a link backwards, if it leads anywhere. -/
def RegionHeap.setPrev (h : RegionHeap) (o v : Option ℕ) : Except Stop RegionHeap :=
  match o with
  | none => .ok h
  | some p => do
      let q ← h.deref (some p)
      .ok (h.write p { q with prev := v })

section Operations

variable {h : RegionHeap} {list : RegionList} {a : ℕ} {r : Region}

theorem setNext_eq (o v : Option ℕ) (ho : ∀ p, o = some p → ∃ q, h.node p = some q) : ∃ h',
    h.setNext o v = .ok h' ∧ h'.piece = h.piece ∧ h'.brk = h.brk ∧ h'.prevOf = h.prevOf ∧
      h'.nextOf = o.elim h.nextOf fun p => Function.update h.nextOf p v := by
  cases o with
  | none => exact ⟨h, rfl, rfl, rfl, rfl, rfl⟩
  | some p =>
      obtain ⟨q, hq⟩ := ho p rfl
      have hderef : h.deref (some p) = .ok q := deref_some.mpr hq
      refine ⟨h.write p { q with next := v }, ?_, piece_write hq _ _, rfl, ?_, nextOf_write⟩
      · simp only [setNext, hderef, bind_ok]
      · rw [prevOf_write, ← prevOf_eq hq, Function.update_eq_self]

theorem setPrev_eq (o v : Option ℕ) (ho : ∀ p, o = some p → ∃ q, h.node p = some q) : ∃ h',
    h.setPrev o v = .ok h' ∧ h'.piece = h.piece ∧ h'.brk = h.brk ∧ h'.nextOf = h.nextOf ∧
      ∀ p, o = some p → h'.prevOf p = v := by
  cases o with
  | none => exact ⟨h, rfl, rfl, rfl, rfl, fun _ ho => nomatch ho⟩
  | some p =>
      obtain ⟨q, hq⟩ := ho p rfl
      have hderef : h.deref (some p) = .ok q := deref_some.mpr hq
      refine ⟨h.write p { q with prev := v }, ?_, piece_write hq _ _, rfl, ?_, ?_⟩
      · simp only [setPrev, hderef, bind_ok]
      · rw [nextOf_write, ← nextOf_eq hq, Function.update_eq_self]
      · intro p' hp'
        rw [← Option.some.inj hp', prevOf_write, Function.update_self]

/-- The ends of a list without the region `a`. -/
def RegionList.without (list : RegionList) (a : ℕ) (next prev : Option ℕ) : RegionList :=
  { list with
    first := if list.first = some a then next else list.first
    last := if list.last = some a then prev else list.last }

theorem regionListRemove_def (list : RegionList) (a : ℕ) (h : RegionHeap) :
    regionListRemove list a h = (do
      let r ← h.deref (some a)
      let h ← h.setNext r.prev r.next
      let h ← h.setPrev r.next r.prev
      let r' ← h.deref (some a)
      .ok (list.without a r.next r.prev, h.write a { r' with next := none, prev := none })) := by
  unfold regionListRemove
  refine congrArg (h.deref (some a) >>= ·) (funext fun r => ?_)
  simp only [setNext, setPrev, RegionList.without]
  by_cases hfirst : list.first = some a <;> by_cases hlast : list.last = some a <;>
    cases r.prev <;> cases r.next <;>
    simp only [hfirst, hlast, if_true, if_false, bind_assoc, bind_ok]

variable (list) in
/-- `region_list_remove` of a region whose neighbours are two others. -/
theorem regionListRemove_eq (hr : h.node a = some r)
    (hprev : ∀ p, r.prev = some p → (∃ q, h.node p = some q) ∧ p ≠ a)
    (hnext : ∀ n, r.next = some n → (∃ q, h.node n = some q) ∧ n ≠ a) :
    ∃ h', regionListRemove list a h = .ok (list.without a r.next r.prev, h') ∧
      h'.piece = h.piece ∧ h'.brk = h.brk ∧ h'.nextOf = unlinked h.nextOf r.prev a ∧
      ∀ n, r.next = some n → h'.prevOf n = r.prev := by
  obtain ⟨h₁, hset₁, hpiece₁, hbrk₁, -, hnext₁⟩ :=
    setNext_eq (h := h) r.prev r.next fun p hp => (hprev p hp).1
  obtain ⟨h₂, hset₂, hpiece₂, hbrk₂, hnext₂, hprev₂⟩ :=
    setPrev_eq (h := h₁) r.next r.prev fun n hn => exists_node_of_piece hpiece₁ (hnext n hn).1
  obtain ⟨r₂, hr₂⟩ := exists_node_of_piece (hpiece₂.trans hpiece₁) ⟨r, hr⟩
  have hderef : h.deref (some a) = .ok r := deref_some.mpr hr
  have hderef₂ : h₂.deref (some a) = .ok r₂ := deref_some.mpr hr₂
  refine ⟨h₂.write a { r₂ with next := none, prev := none }, ?_, ?_, ?_, ?_, ?_⟩
  · rw [regionListRemove_def, hderef, bind_ok, hset₁, bind_ok, hset₂, bind_ok, hderef₂, bind_ok]
  · rw [piece_write hr₂, hpiece₂, hpiece₁]
  · rw [write_brk, hbrk₂, hbrk₁]
  · rw [nextOf_write, hnext₂, hnext₁]
    cases hp : r.prev with
    | none => rfl
    | some p => rw [unlinked, nextOf_eq hr, Option.elim_some]
  · intro n hn
    rw [prevOf_write, Function.update_of_ne (hnext n hn).2]
    exact hprev₂ n hn

/-- `region_list_append`: what was the last region leads to the new one. -/
theorem regionListAppend_eq {os : List ℕ} (hr : ∃ r, h.node a = some r)
    (hfirst : list.first = os.head?) (hlast : os ≠ [] → list.last = os.getLast?)
    (hnodes : ∀ b ∈ os, ∃ q, h.node b = some q) (ha : a ∉ os) (hos : os.Nodup)
    (hthread : Threaded h.nextOf os none) :
    ∃ list' h', regionListAppend list a h = .ok (list', h') ∧
      list'.first = (os ++ [a]).head? ∧ list'.last = (os ++ [a]).getLast? ∧
      h'.piece = h.piece ∧ h'.brk = h.brk ∧ Threaded h'.nextOf (os ++ [a]) none ∧
      (∀ b ∉ os ++ [a], h'.nextOf b = h.nextOf b) ∧ ∀ b ≠ a, h'.prevOf b = h.prevOf b := by
  obtain ⟨r, hr⟩ := hr
  rcases List.eq_nil_or_concat os with rfl | ⟨os, p, rfl⟩
  · have hderef : h.deref (some a) = .ok r := deref_some.mpr hr
    refine ⟨⟨some a, some a, some a, 0⟩, h.write a { r with prev := none, next := none }, ?_, rfl,
      rfl, piece_write hr _ _, rfl, ⟨?_, trivial⟩, fun b hb => ?_, fun b hb => ?_⟩
    · rw [List.head?_nil] at hfirst
      simp only [regionListAppend, hfirst, hderef, bind_ok]
    · rw [nextOf_write, Function.update_self]
      rfl
    · rw [nextOf_write, Function.update_of_ne (by simpa using hb)]
    · rw [prevOf_write, Function.update_of_ne hb]
  · rw [List.concat_eq_append] at *
    have hlast := hlast (by simp)
    rw [List.getLast?_concat] at hlast
    obtain ⟨q, hq⟩ := hnodes p (by simp)
    have hap : a ≠ p := by
      rintro rfl
      exact ha (by simp)
    have hderef : h.deref (some p) = .ok q := deref_some.mpr hq
    have hnode : (h.write p { q with next := some a }).node a = some r := by
      rw [write_node_of_ne _ _ hap, hr]
    have hderef' : (h.write p { q with next := some a }).deref (some a) = .ok r :=
      deref_some.mpr hnode
    obtain ⟨b, hhead⟩ : ∃ b, (os ++ [p]).head? = some b := by
      cases os <;> exact ⟨_, rfl⟩
    have hnext : ((h.write p { q with next := some a }).write a
        { r with prev := some p, next := none }).nextOf =
        Function.update (Function.update h.nextOf p (some a)) a none := by
      rw [nextOf_write, nextOf_write]
    refine ⟨{ list with last := some a }, (h.write p { q with next := some a }).write a
      { r with prev := some p, next := none }, ?_, ?_, ?_, ?_, rfl, ?_, fun b hb => ?_,
      fun b hb => ?_⟩
    · rw [hhead] at hfirst
      simp only [regionListAppend, hfirst, hlast, hderef, bind_ok, Option.getD_some, hderef']
    · rw [List.head?_append, hfirst, hhead, Option.some_or]
    · rw [List.getLast?_concat]
    · rw [piece_write hnode, piece_write hq]
    · rw [hnext]
      refine hthread.concat hos ha (Function.update_self _ _ _) (fun b hb => ?_) fun b hb hbp => ?_
      · rw [List.getLast?_concat, Option.mem_some] at hb
        rw [← hb, Function.update_of_ne hap.symm, Function.update_self]
      · rw [List.getLast?_concat, Option.mem_some] at hbp
        rw [Function.update_of_ne (fun hba : b = a => ha (hba ▸ hb)),
          Function.update_of_ne (Ne.symm hbp)]
    · have hbp : b ≠ p := fun heq => hb (by simp [heq])
      have hba : b ≠ a := fun heq => hb (by simp [heq])
      rw [hnext, Function.update_of_ne hba, Function.update_of_ne hbp]
    · rw [prevOf_write, Function.update_of_ne hb, prevOf_write, ← prevOf_eq hq,
        Function.update_eq_self]

end Operations

/-! ## Moving regions -/

/-- The regions of an allocation are `as`, and those of its second list `os`. -/
structure HasLists (h : RegionHeap) (alloc : BlockAllocation) (as os : List ℕ) : Prop where
  main : Threaded h.nextOf as none
  first : alloc.list.first = as.head?
  oob : Threaded h.nextOf os none
  oobFirst : alloc.oobList.first = os.head?
  oobLast : os ≠ [] → alloc.oobList.last = os.getLast?
  nodup : (as ++ os).Nodup
  holds : ∀ a ∈ as ++ os, h.Holds a

/-- An allocation of which the regions `seg` are to be moved: `pre` and `post` are those before and
behind them. -/
structure Moving (h : RegionHeap) (alloc : BlockAllocation) (pre seg post os : List ℕ) : Prop
    extends HasLists h alloc (pre ++ (seg ++ post)) os where
  prev : ∀ a ∈ (seg ++ post).head?, h.prevOf a = pre.getLast?

section Moving

variable {h : RegionHeap} {alloc : BlockAllocation} {pre seg post os : List ℕ} {a : ℕ}

/-- One region. -/
theorem Moving.step (hm : Moving h alloc pre (a :: seg) post os) : ∃ r list h₁ oobList h₂,
    h.deref (some a) = .ok r ∧ r.next = (seg ++ post).head? ∧
      regionListRemove alloc.list a h = .ok (list, h₁) ∧
      regionListAppend alloc.oobList a h₁ = .ok (oobList, h₂) ∧
      list.iter = alloc.list.iter ∧ list.partialIter = alloc.list.partialIter ∧
      h₂.piece = h.piece ∧ h₂.brk = h.brk ∧
      Moving h₂ ⟨list, oobList⟩ pre seg post (os ++ [a]) := by
  have hnodes : ∀ b ∈ pre ++ (a :: seg ++ post) ++ os, ∃ q, h.node b = some q :=
    fun b hb => (hm.holds b hb).node
  obtain ⟨r, hr⟩ := hnodes a (by simp)
  have hmain := hm.main
  rw [List.cons_append] at hmain
  have hnext : r.next = (seg ++ post).head? := by
    rw [← nextOf_eq hr, (threaded_append.mp hmain).2.1, Option.or_none]
  have hprev : r.prev = pre.getLast? := by
    rw [← prevOf_eq hr]
    exact hm.prev a rfl
  have hmemPre : ∀ p, pre.getLast? = some p → p ∈ pre := fun p hp => List.mem_of_getLast? hp
  have hmemTail : ∀ n, (seg ++ post).head? = some n → n ∈ seg ++ post :=
    fun n hn => List.mem_of_head? hn
  -- all addresses are different
  obtain ⟨hall, hos, hdisjoint⟩ := List.nodup_append.mp hm.nodup
  obtain ⟨-, hcons, hpre⟩ := List.nodup_append.mp hall
  have haTail : a ∉ seg ++ post := (List.nodup_cons.mp hcons).1
  have haPre : ∀ p ∈ pre, p ≠ a := fun p hp => hpre p hp a List.mem_cons_self
  have haOs : a ∉ os := fun ha => hdisjoint a (by simp) a ha rfl
  have hosPre : ∀ b ∈ os, pre.getLast? ≠ some b := fun b hb hlast =>
    hdisjoint b (List.mem_append_left _ (hmemPre b hlast)) b hb rfl
  have hbefore : ∀ p, r.prev = some p → (∃ q, h.node p = some q) ∧ p ≠ a := by
    intro p hp
    rw [hprev] at hp
    exact ⟨hnodes p (by simp [hmemPre p hp]), haPre p (hmemPre p hp)⟩
  have hbehind : ∀ n, r.next = some n → (∃ q, h.node n = some q) ∧ n ≠ a := by
    intro n hn
    rw [hnext] at hn
    have hmem := hmemTail n hn
    refine ⟨hnodes n (List.mem_append_left _ (List.mem_append_right _
      (List.mem_cons_of_mem a hmem))), ?_⟩
    rintro rfl
    exact haTail hmem
  obtain ⟨h₁, hremove, hpiece₁, hbrk₁, hnext₁, hprev₁⟩ :=
    regionListRemove_eq alloc.list hr hbefore hbehind
  rw [hprev] at hnext₁ hprev₁
  have hthread₁ : Threaded h₁.nextOf (pre ++ (seg ++ post)) none := by
    rw [hnext₁]
    exact hmain.remove hall
  have hoob₁ : Threaded h₁.nextOf os none := by
    refine hm.oob.congr fun b hb => ?_
    rw [hnext₁, unlinked_of_ne (fun heq : b = a => haOs (heq ▸ hb)) (hosPre b hb)]
  have hnodes₁ : ∀ b ∈ pre ++ (a :: seg ++ post) ++ os, ∃ q, h₁.node b = some q :=
    fun b hb => exists_node_of_piece hpiece₁ (hnodes b hb)
  obtain ⟨oobList, h₂, happend, hfirst₂, hlast₂, hpiece₂, hbrk₂, hoob₂, hsame₂, hprev₂⟩ :=
    regionListAppend_eq (hnodes₁ a (by simp)) hm.oobFirst hm.oobLast
      (fun b hb => hnodes₁ b (List.mem_append_right _ hb)) haOs hos hoob₁
  refine ⟨r, _, h₁, oobList, h₂, deref_some.mpr hr, hnext, hremove, happend, rfl, rfl,
    hpiece₂.trans hpiece₁, hbrk₂.trans hbrk₁, ?_⟩
  have hrest : ∀ b ∈ pre ++ (seg ++ post), b ∉ os ++ [a] := by
    intro b hb hmem
    rcases List.mem_append.mp hb with hb | hb
    · rcases List.mem_append.mp hmem with hmem | hmem
      · exact hdisjoint b (List.mem_append_left _ hb) b hmem rfl
      · exact haPre b hb (List.mem_singleton.mp hmem)
    · rcases List.mem_append.mp hmem with hmem | hmem
      · exact hdisjoint b (List.mem_append_right _ (List.mem_cons_of_mem a hb)) b hmem rfl
      · exact haTail (List.mem_singleton.mp hmem ▸ hb)
  refine ⟨⟨hthread₁.congr fun b hb => hsame₂ b (hrest b hb), ?_, hoob₂, hfirst₂,
    fun _ => hlast₂, ?_, fun b hb => ?_⟩, fun n hn => ?_⟩
  · have hfirst := hm.first
    rw [List.cons_append] at hfirst
    simp only [RegionList.without, hfirst]
    cases pre with
    | nil => exact (if_pos rfl).trans hnext
    | cons b pre =>
        have hne : some b ≠ some a := fun heq => haPre b List.mem_cons_self (Option.some.inj heq)
        exact if_neg hne
  · have hperm : (pre ++ (seg ++ post) ++ (os ++ [a])).Perm (pre ++ (a :: seg ++ post) ++ os) := by
      rw [← List.append_assoc _ os]
      refine (List.perm_append_singleton a _).trans ?_
      simp only [List.cons_append, List.append_assoc]
      exact List.perm_middle.symm
    exact hperm.nodup_iff.mpr hm.nodup
  · refine (hm.holds b ?_).congr (hpiece₂.trans hpiece₁) (hbrk₂.trans hbrk₁)
    simp only [List.mem_append, List.mem_cons] at hb ⊢
    tauto
  · have hn : (seg ++ post).head? = some n := hn
    have hna : n ≠ a := fun heq => haTail (heq ▸ hmemTail n hn)
    rw [hprev₂ n hna]
    exact hprev₁ n (hnext.trans hn)

/-- All regions up to the cursor, or up to the end of the list. -/
theorem Moving.run (hm : Moving h alloc pre seg post os)
    (hseg : ∀ a ∈ seg, some a ≠ alloc.list.iter)
    (hpost : ∀ a ∈ post.head?, alloc.list.iter = some a)
    {fuel : ℕ} (hfuel : seg.length < fuel) : ∃ alloc' h',
    moveOobLoop fuel (seg ++ post).head? alloc h = .ok (alloc', h') ∧
      alloc'.list.iter = alloc.list.iter ∧ alloc'.list.partialIter = alloc.list.partialIter ∧
      h'.piece = h.piece ∧ h'.brk = h.brk ∧ Moving h' alloc' pre [] post (os ++ seg) := by
  induction seg generalizing h alloc os fuel with
  | nil =>
      obtain ⟨fuel, rfl⟩ : ∃ n, fuel = n + 1 := ⟨fuel - 1, by omega⟩
      refine ⟨alloc, h, ?_, rfl, rfl, rfl, rfl, by rwa [List.append_nil]⟩
      cases post with
      | nil => rfl
      | cons b rest =>
          rw [List.nil_append, List.head?_cons, moveOobLoop, hpost b rfl]
          exact if_pos rfl
  | cons a seg ih =>
      obtain ⟨fuel, rfl⟩ : ∃ n, fuel = n + 1 := ⟨fuel - 1, by omega⟩
      obtain ⟨r, list, h₁, oobList, h₂, hderef, hnext, hremove, happend, hiter', hoffset, hpiece,
        hbrk, hm'⟩ := hm.step
      obtain ⟨hne, hseg⟩ := List.forall_mem_cons.mp hseg
      rw [← hiter'] at hseg hpost
      obtain ⟨alloc', h', hrun, hiter'', hoffset', hpiece', hbrk', hm''⟩ :=
        ih hm' hseg hpost (Nat.lt_of_succ_lt_succ hfuel)
      refine ⟨alloc', h', ?_, hiter''.trans hiter', hoffset'.trans hoffset, hpiece'.trans hpiece,
        hbrk'.trans hbrk, ?_⟩
      · rw [List.cons_append, List.head?_cons, moveOobLoop, if_neg hne, hderef, bind_ok, hremove,
          bind_ok]
        simp only [happend, bind_ok, hnext]
        exact hrun
      · rwa [List.append_assoc, List.singleton_append] at hm''

end Moving

end SystemExtras.Ext4
