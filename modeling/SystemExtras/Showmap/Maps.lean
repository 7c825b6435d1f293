import Mathlib.Algebra.BigOperators.Group.List.Basic
import Mathlib.Data.UInt
import SystemExtras.Lib.StableInsertion

/-!
# The list of maps of showmap

`load_maps` reads the maps of a process and puts them one by one into a list that is kept in
order, by name or by address.  When maps are coalesced, a map whose name is in the list already
is added to the entry of that name instead.  One loop does both: it walks the list until it
meets the name or a place for the map.

`conservesCounts` says what the list is in the end, and that `show_map` prints the same totals
whatever the order of the maps and the mode.

Counters are `unsigned`, and a name is the bytes in front of its null byte.
-/

namespace SystemExtras.Showmap

open scoped UInt32.CommRing

/-! ## The code -/

/-- `mapinfo`, without the link. -/
structure Mapinfo where
  start : UInt32
  end_ : UInt32
  size : UInt32
  rss : UInt32
  pss : UInt32
  sharedClean : UInt32
  sharedDirty : UInt32
  privateClean : UInt32
  privateDirty : UInt32
  isBss : Bool
  count : UInt32
  name : List UInt8
  deriving DecidableEq, Repr

/-- `order_before`.  `strcmp` compares bytes as unsigned numbers. -/
def orderBefore (sortByAddress : Bool) (a b : Mapinfo) : Prop :=
  if sortByAddress then a.start < b.start ∨ (a.start = b.start ∧ a.end_ < b.end_)
  else a.name < b.name

instance (sortByAddress : Bool) : DecidableRel (orderBefore sortByAddress) :=
  fun _ _ => inferInstanceAs (Decidable (ite _ _ _))

/-- The branch of `enqueue_map` for a name that is in the list. -/
def Mapinfo.add (current map : Mapinfo) : Mapinfo :=
  { current with
    size := current.size + map.size
    rss := current.rss + map.rss
    pss := current.pss + map.pss
    sharedClean := current.sharedClean + map.sharedClean
    sharedDirty := current.sharedDirty + map.sharedDirty
    privateClean := current.privateClean + map.privateClean
    privateDirty := current.privateDirty + map.privateDirty
    isBss := current.isBss && map.isBss
    count := current.count + 1 }

/-- `enqueue_map`, from the entry `current` of its loop on. -/
def enqueueMap (sortByAddress coalesceByName : Bool) (map : Mapinfo) :
    List Mapinfo → List Mapinfo
  | [] => [map]
  | current :: next =>
      if coalesceByName ∧ map.name = current.name then current.add map :: next
      else if orderBefore sortByAddress map current then map :: current :: next
      else current :: enqueueMap sortByAddress coalesceByName map next

/-- Calls of `enqueue_map` one after the other. -/
def enqueueMaps (sortByAddress coalesceByName : Bool) (maps : List Mapinfo) : List Mapinfo :=
  maps.foldl (fun head map => enqueueMap sortByAddress coalesceByName map head) []

theorem enqueueMaps_concat (sortByAddress coalesceByName : Bool) (maps : List Mapinfo)
    (map : Mapinfo) : enqueueMaps sortByAddress coalesceByName (maps ++ [map]) =
      enqueueMap sortByAddress coalesceByName map
        (enqueueMaps sortByAddress coalesceByName maps) := by
  rw [enqueueMaps, List.foldl_append]
  rfl

/-- `is_library`. -/
def isLibrary (name : List UInt8) : Bool :=
  4 ≤ name.length ∧ name.head? = some 47 ∧ name.drop (name.length - 3) = ".so".toUTF8.toList

/-- `parse_header`, with the addresses and the text behind the blanks that it finds in a line. -/
def parseHeader (start end_ : UInt32) (text : List UInt8) (prev : Option Mapinfo) : Mapinfo :=
  let (name, isBss) :=
    if text ≠ [] then (text.take 127, false)
    else match prev with
      | some prev =>
          if start = prev.end_ ∧ isLibrary prev.name then (prev.name.take 127, true)
          else ("[anon]".toUTF8.toList, false)
      | none => ("[anon]".toUTF8.toList, false)
  ⟨start, end_, 0, 0, 0, 0, 0, 0, 0, isBss, 1, name⟩

/-- `parse_field`, with the word and the number that it finds in a line. -/
def parseField (mi : Mapinfo) (field : List UInt8) (size : UInt32) : Mapinfo :=
  if field = "Size:".toUTF8.toList then { mi with size := size }
  else if field = "Rss:".toUTF8.toList then { mi with rss := size }
  else if field = "Pss:".toUTF8.toList then { mi with pss := size }
  else if field = "Shared_Clean:".toUTF8.toList then { mi with sharedClean := size }
  else if field = "Shared_Dirty:".toUTF8.toList then { mi with sharedDirty := size }
  else if field = "Private_Clean:".toUTF8.toList then { mi with privateClean := size }
  else if field = "Private_Dirty:".toUTF8.toList then { mi with privateDirty := size }
  else mi

/-- What the two calls of `sscanf` find in a line. -/
structure SmapsLine where
  field : Option (List UInt8 × UInt32)
  header : Option (UInt32 × UInt32 × List UInt8)

/-- One turn of the loop of `load_maps`, on `head` and `current`. -/
def loadLine (sortByAddress coalesceByName : Bool) :
    List Mapinfo × Option Mapinfo → SmapsLine → List Mapinfo × Option Mapinfo
  | (head, some current), ⟨some (field, size), _⟩ => (head, some (parseField current field size))
  | (head, current), ⟨_, some (start, end_, text)⟩ =>
      -- `enqueue_map` returns at once when there is no map yet
      (match current with
        | some map => enqueueMap sortByAddress coalesceByName map head
        | none => head, some (parseHeader start end_ text current))
  -- a warning
  | s, _ => s

/-- `load_maps` on the lines of the file. -/
def loadMaps (sortByAddress coalesceByName : Bool) (lines : List SmapsLine) : List Mapinfo :=
  match lines.foldl (loadLine sortByAddress coalesceByName) ([], none) with
  | (head, some current) => enqueueMap sortByAddress coalesceByName current head
  | (head, none) => head

/-- What `show_map` adds up. -/
inductive Counter where
  | size
  | rss
  | pss
  | sharedClean
  | sharedDirty
  | privateClean
  | privateDirty
  | count
  deriving DecidableEq, Repr

def Mapinfo.counter (mi : Mapinfo) : Counter → UInt32
  | .size => mi.size
  | .rss => mi.rss
  | .pss => mi.pss
  | .sharedClean => mi.sharedClean
  | .sharedDirty => mi.sharedDirty
  | .privateClean => mi.privateClean
  | .privateDirty => mi.privateDirty
  | .count => mi.count

/-- The totals of `show_map`. -/
def totals (milist : List Mapinfo) : Counter → UInt32 :=
  milist.foldl (fun total mi c => total c + mi.counter c) fun _ => 0

/-! ## Order -/

section Order

variable {a b : Mapinfo}

theorem strictWeak_orderBefore (sortByAddress : Bool) : StrictWeak (orderBefore sortByAddress) := by
  cases sortByAddress with
  | false =>
      refine ⟨fun hab => List.lt_asymm hab, fun hab hcb => ?_⟩
      exact Std.lt_of_lt_of_le hab (Std.not_lt.mp hcb)
  | true =>
      constructor
      all_goals
        simp only [orderBefore, if_true, UInt32.lt_iff_toNat_lt, ← UInt32.toNat_inj]
        omega

/-- Where the walk goes on, the name is further on. -/
theorem name_lt_of_not_orderBefore (hne : a.name ≠ b.name) (h : ¬ orderBefore false a b) :
    b.name < a.name := by
  by_contra hba
  exact hne (Std.le_antisymm (Std.not_lt.mp hba) (Std.not_lt.mp h))

end Order

/-! ## Without coalescing -/

theorem enqueueMap_false (sortByAddress : Bool) (map : Mapinfo) (head : List Mapinfo) :
    enqueueMap sortByAddress false map head =
      head.orderedInsert (orderBefore sortByAddress) map := by
  induction head with
  | nil => rfl
  | cons current next ih =>
      rw [enqueueMap, if_neg (by simp), ih, List.orderedInsert_cons]

theorem stableSort_enqueueMaps (sortByAddress : Bool) (maps : List Mapinfo) :
    StableSort (orderBefore sortByAddress) maps (enqueueMaps sortByAddress false maps) := by
  simp only [enqueueMaps, enqueueMap_false]
  exact stableSort_foldl (strictWeak_orderBefore sortByAddress) maps

/-! ## Coalescing -/

section Coalescing

variable {head maps : List Mapinfo} {map mi : Mapinfo}

/-- The entries of a list after one more map: the one that it was added to, or the map, and all
with other names. -/
theorem mem_enqueueMap_iff (h : head.Pairwise (·.name < ·.name)) :
    mi ∈ enqueueMap false true map head ↔
      (∃ current ∈ head, current.name = map.name ∧ mi = current.add map) ∨
        (mi = map ∧ ∀ current ∈ head, current.name ≠ map.name) ∨
        (mi ∈ head ∧ mi.name ≠ map.name) := by
  induction head with
  | nil => simp [enqueueMap]
  | cons current next ih =>
      obtain ⟨hcurrent, hnext⟩ := List.pairwise_cons.mp h
      rw [enqueueMap]
      split_ifs with hname hbefore
      · have hne : ∀ c ∈ next, c.name ≠ map.name := by
          intro c hc heq
          have hlt := hcurrent c hc
          rw [heq, hname.2] at hlt
          exact Std.lt_irrefl hlt
        grind
      · have hne : ∀ c ∈ current :: next, c.name ≠ map.name := by
          intro c hc heq
          have hlt : map.name < c.name := by
            rcases List.mem_cons.mp hc with rfl | hc
            · exact hbefore
            · exact Std.lt_trans hbefore (hcurrent c hc)
          rw [heq] at hlt
          exact Std.lt_irrefl hlt
        grind
      · have hne : current.name ≠ map.name := fun heq => hname ⟨rfl, heq.symm⟩
        rw [List.mem_cons, ih hnext]
        grind

/-- The list stays increasing: a name that is in the list is met before the place of a map. -/
theorem increasing_enqueueMap (h : head.Pairwise (·.name < ·.name)) :
    (enqueueMap false true map head).Pairwise (·.name < ·.name) := by
  induction head with
  | nil => exact List.pairwise_singleton _ _
  | cons current next ih =>
      obtain ⟨hcurrent, hnext⟩ := List.pairwise_cons.mp h
      rw [enqueueMap]
      split_ifs with hname hbefore
      · exact List.pairwise_cons.mpr ⟨hcurrent, hnext⟩
      · refine List.pairwise_cons.mpr ⟨fun c hc => ?_, h⟩
        rcases List.mem_cons.mp hc with rfl | hc
        · exact hbefore
        · exact Std.lt_trans (b := current.name) hbefore (hcurrent c hc)
      · have hlt : current.name < map.name :=
          name_lt_of_not_orderBefore (fun heq => hname ⟨rfl, heq⟩) hbefore
        refine List.pairwise_cons.mpr ⟨fun c hc => ?_, ih hnext⟩
        rcases (mem_enqueueMap_iff hnext).mp hc with ⟨d, hd, -, rfl⟩ | ⟨rfl, -⟩ | ⟨hc, -⟩
        · exact hcurrent d hd
        · exact hlt
        · exact hcurrent c hc

/-- The entries of `milist` stand for the names of `maps`, each with the sums over the maps of its
name. -/
structure Coalesced (maps milist : List Mapinfo) : Prop where
  increasing : milist.Pairwise (·.name < ·.name)
  names : ∀ name, (∃ mi ∈ milist, mi.name = name) ↔ ∃ map ∈ maps, map.name = name
  counters : ∀ mi ∈ milist, ∀ c,
    mi.counter c = ((maps.filter (·.name = mi.name)).map (·.counter c)).sum

theorem counter_add (current : Mapinfo) (hcount : map.count = 1) (c : Counter) :
    (current.add map).counter c = current.counter c + map.counter c := by
  cases c <;> simp [Mapinfo.add, Mapinfo.counter, hcount]

/-- The names of a list after one more map. -/
theorem name_mem_enqueueMap_iff (h : head.Pairwise (·.name < ·.name)) (name : List UInt8) :
    (∃ mi ∈ enqueueMap false true map head, mi.name = name) ↔
      (∃ mi ∈ head, mi.name = name) ∨ map.name = name := by
  constructor
  · intro ⟨mi, hmi, hname⟩
    rcases (mem_enqueueMap_iff h).mp hmi with ⟨current, hcurrent, -, rfl⟩ | ⟨rfl, -⟩ | ⟨hmi, -⟩
    · exact Or.inl ⟨current, hcurrent, hname⟩
    · exact Or.inr hname
    · exact Or.inl ⟨mi, hmi, hname⟩
  · intro hname
    by_cases hmap : map.name = name
    · subst hmap
      by_cases hold : ∃ current ∈ head, current.name = map.name
      · obtain ⟨current, hcurrent, heq⟩ := hold
        exact ⟨_, (mem_enqueueMap_iff h).mpr (Or.inl ⟨current, hcurrent, heq, rfl⟩), heq⟩
      · have hnew : ∀ current ∈ head, current.name ≠ map.name := by simpa using hold
        exact ⟨map, (mem_enqueueMap_iff h).mpr (Or.inr (Or.inl ⟨rfl, hnew⟩)), rfl⟩
    · obtain ⟨mi, hmi, heq⟩ := hname.resolve_right hmap
      have hother : mi.name ≠ map.name := fun hsame => hmap (hsame.symm.trans heq)
      exact ⟨mi, (mem_enqueueMap_iff h).mpr (Or.inr (Or.inr ⟨hmi, hother⟩)), heq⟩

/-- One more map. -/
theorem Coalesced.enqueueMap (h : Coalesced maps head) (hcount : map.count = 1) :
    Coalesced (maps ++ [map]) (enqueueMap false true map head) where
  increasing := increasing_enqueueMap h.increasing
  names name := by
    rw [name_mem_enqueueMap_iff h.increasing, h.names]
    simp [or_and_right, exists_or]
  counters mi hmi c := by
    have hone : map.name = mi.name → ([map].filter (·.name = mi.name)).map (·.counter c) =
        [map.counter c] := fun hname => by simp [hname]
    rw [List.filter_append, List.map_append, List.sum_append]
    rcases (mem_enqueueMap_iff h.increasing).mp hmi with
      ⟨current, hcurrent, hname, rfl⟩ | ⟨rfl, hnew⟩ | ⟨hmi, hname⟩
    · rw [hone hname.symm, List.sum_singleton, counter_add current hcount,
        h.counters current hcurrent]
      rfl
    · have hnone : maps.filter (·.name = mi.name) = [] := by
        rw [List.filter_eq_nil_iff]
        intro m hm hsame
        obtain ⟨current, hcurrent, heq⟩ := (h.names mi.name).mpr ⟨m, hm, by simpa using hsame⟩
        exact hnew current hcurrent heq
      rw [hnone, hone rfl, List.sum_singleton, List.map_nil, List.sum_nil, zero_add]
    · have hnone : [map].filter (·.name = mi.name) = [] := by simp [hname.symm]
      rw [hnone, List.map_nil, List.sum_nil, add_zero, h.counters mi hmi]

theorem coalesced_enqueueMaps (hcount : ∀ map ∈ maps, map.count = 1) :
    Coalesced maps (enqueueMaps false true maps) := by
  induction maps using List.reverseRecOn with
  | nil => exact ⟨.nil, fun _ => Iff.rfl, fun _ h => absurd h List.not_mem_nil⟩
  | append_singleton maps map ih =>
      have hlast := hcount map (List.mem_append_right _ (List.mem_singleton_self map))
      rw [enqueueMaps_concat]
      exact (ih fun m hm => hcount m (List.mem_append_left _ hm)).enqueueMap hlast

end Coalescing

/-! ## Totals -/

section Totals

variable {maps : List Mapinfo}

theorem totals_eq_sum (milist : List Mapinfo) (c : Counter) :
    totals milist c = (milist.map (·.counter c)).sum := by
  have hfoldl : ∀ total : Counter → UInt32,
      milist.foldl (fun total mi c => total c + mi.counter c) total c =
        total c + (milist.map (·.counter c)).sum := by
    induction milist with
    | nil => exact fun total => (add_zero _).symm
    | cons mi rest ih =>
        intro total
        rw [List.foldl_cons, ih, List.map_cons, List.sum_cons, add_assoc]
  rw [totals, hfoldl, zero_add]

/-- Both branches add the counters of the map to those of the list. -/
theorem sum_enqueueMap (sortByAddress coalesceByName : Bool) {map : Mapinfo}
    (hcount : map.count = 1) (head : List Mapinfo) (c : Counter) :
    ((enqueueMap sortByAddress coalesceByName map head).map (·.counter c)).sum =
      (head.map (·.counter c)).sum + map.counter c := by
  induction head with
  | nil => exact add_comm _ _
  | cons current next ih =>
      rw [enqueueMap]
      split_ifs
      · rw [List.map_cons, List.sum_cons, counter_add current hcount, List.map_cons, List.sum_cons,
          add_right_comm]
      · rw [List.map_cons, List.sum_cons, add_comm]
      · rw [List.map_cons, List.sum_cons, ih, List.map_cons, List.sum_cons, add_assoc]

theorem sum_enqueueMaps (sortByAddress coalesceByName : Bool)
    (hcount : ∀ map ∈ maps, map.count = 1) (c : Counter) :
    ((enqueueMaps sortByAddress coalesceByName maps).map (·.counter c)).sum =
      (maps.map (·.counter c)).sum := by
  induction maps using List.reverseRecOn with
  | nil => rfl
  | append_singleton maps map ih =>
      have hlast := hcount map (List.mem_append_right _ (List.mem_singleton_self map))
      have hfirst := ih fun m hm => hcount m (List.mem_append_left _ hm)
      rw [enqueueMaps_concat, sum_enqueueMap _ _ hlast, hfirst, List.map_append, List.sum_append,
        List.map_cons, List.map_nil, List.sum_singleton]

theorem sum_count (hcount : ∀ map ∈ maps, map.count = 1) :
    (maps.map (·.counter .count)).sum = UInt32.ofNat maps.length := by
  induction maps with
  | nil => rfl
  | cons map maps ih =>
      obtain ⟨hmap, hmaps⟩ := List.forall_mem_cons.mp hcount
      rw [List.map_cons, List.sum_cons, ih hmaps, Mapinfo.counter, hmap, List.length_cons,
        UInt32.ofNat_add, add_comm]
      rfl

end Totals

/-! ## The maps of a file -/

section Lines

theorem parseField_count (mi : Mapinfo) (field : List UInt8) (size : UInt32) :
    (parseField mi field size).count = mi.count := by
  unfold parseField
  split_ifs <;> rfl

theorem parseHeader_count (start end_ : UInt32) (text : List UInt8) (prev : Option Mapinfo) :
    (parseHeader start end_ text prev).count = 1 := rfl

/-- Whatever the mode, the lines give the same maps, in the order of the file, and the same map
that is being read; each of them stands for one map. -/
theorem loadLines_eq (lines : List SmapsLine) : ∃ maps current,
    (∀ map ∈ maps, map.count = 1) ∧ (∀ map ∈ current, map.count = 1) ∧
      ∀ sortByAddress coalesceByName,
        lines.foldl (loadLine sortByAddress coalesceByName) ([], none) =
          (enqueueMaps sortByAddress coalesceByName maps, current) := by
  induction lines using List.reverseRecOn with
  | nil => exact ⟨[], none, by simp, by simp, fun _ _ => rfl⟩
  | append_singleton lines line ih =>
      obtain ⟨maps, current, hmaps, hcurrent, hfold⟩ := ih
      simp only [List.foldl_append, List.foldl_cons, List.foldl_nil, hfold]
      obtain ⟨field, header⟩ := line
      have hparsed : ∀ start end_ text, ∀ map ∈ some (parseHeader start end_ text current),
          map.count = 1 := by
        intro start end_ text map hmap
        rw [← Option.mem_some.mp hmap, parseHeader_count]
      cases current with
      | none =>
          cases header with
          | none => exact ⟨maps, none, hmaps, hcurrent, fun _ _ => by cases field <;> rfl⟩
          | some header =>
              obtain ⟨start, end_, text⟩ := header
              exact ⟨maps, _, hmaps, hparsed start end_ text, fun _ _ => by cases field <;> rfl⟩
      | some map =>
          have hmap : map.count = 1 := hcurrent map rfl
          cases field with
          | some field =>
              obtain ⟨word, size⟩ := field
              refine ⟨maps, _, hmaps, fun mi hmi => ?_, fun _ _ => rfl⟩
              rw [← Option.mem_some.mp hmi, parseField_count, hmap]
          | none =>
              cases header with
              | none => exact ⟨maps, some map, hmaps, hcurrent, fun _ _ => rfl⟩
              | some header =>
                  obtain ⟨start, end_, text⟩ := header
                  refine ⟨maps ++ [map], _, ?_, hparsed start end_ text, fun _ _ => ?_⟩
                  · simpa [or_imp, forall_and] using ⟨hmaps, hmap⟩
                  · rw [enqueueMaps_concat]
                    rfl

/-- The list of a file is that of its maps. -/
theorem loadMaps_eq (lines : List SmapsLine) : ∃ maps, (∀ map ∈ maps, map.count = 1) ∧
    ∀ sortByAddress coalesceByName, loadMaps sortByAddress coalesceByName lines =
      enqueueMaps sortByAddress coalesceByName maps := by
  obtain ⟨maps, current, hmaps, hcurrent, hfold⟩ := loadLines_eq lines
  simp only [loadMaps, hfold]
  cases current with
  | none => exact ⟨maps, hmaps, fun _ _ => rfl⟩
  | some map =>
      refine ⟨maps ++ [map], ?_, fun _ _ => ?_⟩
      · simpa [or_imp, forall_and] using ⟨hmaps, hcurrent map rfl⟩
      · rw [enqueueMaps_concat]

/-- `show_map` prints the same totals in all modes. -/
theorem totals_loadMaps (lines : List SmapsLine) (sortByAddress coalesceByName : Bool) :
    totals (loadMaps sortByAddress coalesceByName lines) = totals (loadMaps false false lines) := by
  obtain ⟨maps, hmaps, hload⟩ := loadMaps_eq lines
  funext c
  rw [hload, hload, totals_eq_sum, totals_eq_sum, sum_enqueueMaps _ _ hmaps,
    sum_enqueueMaps _ _ hmaps]

end Lines

/-! ## Counts -/

/-- What the list of some maps is. -/
structure ConservesCounts (maps : List Mapinfo) : Prop where
  coalesced : Coalesced maps (enqueueMaps false true maps)
  counts : ∀ mi ∈ enqueueMaps false true maps,
    mi.count = UInt32.ofNat (maps.filter (·.name = mi.name)).length
  sorted : ∀ sortByAddress,
    StableSort (orderBefore sortByAddress) maps (enqueueMaps sortByAddress false maps)
  totals : ∀ order : List Mapinfo, order.Perm maps → ∀ sortByAddress coalesceByName c,
    totals (enqueueMaps sortByAddress coalesceByName order) c = (maps.map (·.counter c)).sum

/-- **Map coalescing conserves counts.**  The condition is what `parse_header` makes of every
map. -/
theorem conservesCounts {maps : List Mapinfo} (hcount : ∀ map ∈ maps, map.count = 1) :
    ConservesCounts maps where
  coalesced := coalesced_enqueueMaps hcount
  counts mi hmi := by
    have hnamed := (coalesced_enqueueMaps hcount).counters mi hmi .count
    rw [sum_count fun map hmap => hcount map (List.mem_of_mem_filter hmap)] at hnamed
    exact hnamed
  sorted sortByAddress := stableSort_enqueueMaps sortByAddress maps
  totals order hperm sortByAddress coalesceByName c := by
    rw [totals_eq_sum, sum_enqueueMaps _ _ fun map hmap => hcount map (hperm.mem_iff.mp hmap)]
    exact (hperm.map _).sum_eq

/-- Two maps of one name around a third one. -/
theorem conservesCounts_three :
    ConservesCounts
      [⟨0x8000, 0x9000, 4, 4, 4, 0, 0, 4, 0, false, 1, [47, 98]⟩,
        ⟨0x9000, 0xa000, 4, 0, 0, 0, 0, 0, 0, false, 1, [47, 97]⟩,
        ⟨0xa000, 0xc000, 8, 4, 2, 0, 0, 0, 4, true, 1, [47, 98]⟩] :=
  conservesCounts (by decide)

end SystemExtras.Showmap
