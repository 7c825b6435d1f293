import SystemExtras.Fat.ShortNames

/-!
# What an import is meant to do

`Tree.plan` says which tables a directory tree becomes: an entry for each child that
can be imported, in the order of `readdir`, with the clusters handed out on the way.
It knows nothing of items.  `Tree.All` and `Tree.Orderly` are the conditions on a
tree that the import depends on.
-/

namespace SystemExtras.Fat

/-! ## The plan -/

/-- What becomes of a name: it is skipped before it gets an item, rejected when it has one, or
imported. -/
inductive Fate where
  | skipped
  | rejected
  | imported
  deriving DecidableEq, Repr

def fate (path name : List UInt8) (type : EntryType) : Fate :=
  if name.head? = some 46 ∨ pathMax ≤ (chPath path name).length then .skipped
  else if convertible name ∧ type ≠ .other then .imported
  else .rejected

/-- A child that is imported: its name, whether it is a directory, its first cluster, its size, and
the number of its table if it has one. -/
structure Child where
  name : List UInt8
  isDir : Bool
  first : ℕ
  size : ℕ
  table : Option ℕ
  deriving DecidableEq, Repr

/-- What the names of a directory become: the children, the tables of the directories among and
below them (given the first cluster of the directory), and the next free cluster and the number of
tables afterwards. -/
structure Plan where
  children : List Child
  tables : ℕ → List (List FatDirent)
  next : ℕ
  dirs : ℕ

/-- The first cluster of an extent of `len` bytes. -/
def firstOf (len next : ℕ) : ℕ := if len = 0 then 0 else next

/-- The size of a table with `count` children. -/
def tableSize (count : ℕ) : ℕ := u32 (32 * (count + 2))

/-- The two leading entries of a table. -/
def ownEntries (parent first : ℕ) : List FatDirent :=
  [fatDirentSet [46, 46, 32, 32, 32, 32, 32, 32, 32, 32, 32] fatAttrSubdir parent 0,
    fatDirentSet [46, 32, 32, 32, 32, 32, 32, 32, 32, 32, 32] fatAttrSubdir first 0]

section Plan

variable (row : Child → FatDirent) (clusterSize : ℕ)

/-- The plan for the names of a directory, from the next free cluster and the number of tables on;
`row` is the entry for a child. -/
def Tree.plan : Tree → List UInt8 → ℕ → ℕ → Plan
  | .done, _, next, dirs => ⟨[], fun _ => [], next, dirs⟩
  | .entry name type below rest, path, next, dirs =>
      match fate path name type, type with
      | .imported, .reg (some st) =>
          let size := u32 st.size
          let later := rest.plan path (next + size ⌈/⌉ clusterSize) dirs
          { later with children := ⟨name, false, firstOf size next, st.size, none⟩ :: later.children }
      | .imported, .dir true =>
          let sub := below.plan (chPath path name) next dirs
          let size := tableSize sub.children.length
          let first := firstOf size sub.next
          let later := rest.plan path (sub.next + size ⌈/⌉ clusterSize) (sub.dirs + 1)
          { later with
            children := ⟨name, true, first, 0, some sub.dirs⟩ :: later.children
            tables := fun own => sub.tables first ++
              (ownEntries own first ++ sub.children.map row) :: later.tables own }
      | _, _ => rest.plan path next dirs

variable {row clusterSize} {path name : List UInt8} {below rest : Tree} {next dirs : ℕ}

theorem plan_reg {st : Stat} (h : fate path name (.reg (some st)) = .imported) :
    (Tree.entry name (.reg (some st)) below rest).plan row clusterSize path next dirs =
      let later := rest.plan row clusterSize path (next + u32 st.size ⌈/⌉ clusterSize) dirs
      { later with
        children :=
          ⟨name, false, firstOf (u32 st.size) next, st.size, none⟩ :: later.children } := by
  simp only [Tree.plan, h]

theorem plan_dir (h : fate path name (.dir true) = .imported) :
    (Tree.entry name (.dir true) below rest).plan row clusterSize path next dirs =
      let sub := below.plan row clusterSize (chPath path name) next dirs
      let size := tableSize sub.children.length
      let first := firstOf size sub.next
      let later := rest.plan row clusterSize path (sub.next + size ⌈/⌉ clusterSize) (sub.dirs + 1)
      { later with
        children := ⟨name, true, first, 0, some sub.dirs⟩ :: later.children
        tables := fun own => sub.tables first ++
          (ownEntries own first ++ sub.children.map row) :: later.tables own } := by
  simp only [Tree.plan, h]

theorem plan_not_imported {type : EntryType} (h : fate path name type ≠ .imported) :
    (Tree.entry name type below rest).plan row clusterSize path next dirs =
      rest.plan row clusterSize path next dirs := by
  rw [Tree.plan]
  · exact fun _ hfate _ => h hfate
  · exact fun hfate _ => h hfate

variable (path name below rest) in
/-- A name becomes a file, a directory or nothing. -/
theorem plan_cases (type : EntryType) :
    (∃ st, type = .reg (some st) ∧ fate path name (.reg (some st)) = .imported) ∨
      (type = .dir true ∧ fate path name (.dir true) = .imported) ∨
      ∀ (row : Child → FatDirent) (clusterSize next dirs : ℕ),
        (Tree.entry name type below rest).plan row clusterSize path next dirs =
          rest.plan row clusterSize path next dirs := by
  by_cases hfate : fate path name type = .imported
  · match type, hfate with
    | .reg (some st), hfate => exact Or.inl ⟨st, rfl, hfate⟩
    | .dir true, hfate => exact Or.inr (Or.inl ⟨rfl, hfate⟩)
    | .reg none, hfate => exact Or.inr (Or.inr fun _ _ _ _ => by simp only [Tree.plan, hfate])
    | .dir false, hfate => exact Or.inr (Or.inr fun _ _ _ _ => by simp only [Tree.plan, hfate])
    | .other, hfate => exact Or.inr (Or.inr fun _ _ _ _ => by simp only [Tree.plan, hfate])
  · exact Or.inr (Or.inr fun _ _ _ _ => plan_not_imported hfate)

/-- A plan only hands out clusters. -/
theorem le_plan_next {tree : Tree} : ∀ {path : List UInt8} {next dirs : ℕ},
    next ≤ (tree.plan row clusterSize path next dirs).next := by
  induction tree with
  | done => exact fun {_ _ _} => le_rfl
  | entry name type below rest ihbelow ihrest =>
      intro path next dirs
      rcases plan_cases path name below rest type with ⟨st, rfl, hfate⟩ | ⟨rfl, hfate⟩ | hplan
      · rw [plan_reg hfate]
        exact (Nat.le_add_right _ _).trans ihrest
      · rw [plan_dir hfate]
        exact ihbelow.trans ((Nat.le_add_right _ _).trans ihrest)
      · rw [hplan]
        exact ihrest

theorem le_plan_dirs {tree : Tree} : ∀ {path : List UInt8} {next dirs : ℕ},
    dirs ≤ (tree.plan row clusterSize path next dirs).dirs := by
  induction tree with
  | done => exact fun {_ _ _} => le_rfl
  | entry name type below rest ihbelow ihrest =>
      intro path next dirs
      rcases plan_cases path name below rest type with ⟨st, rfl, hfate⟩ | ⟨rfl, hfate⟩ | hplan
      · rw [plan_reg hfate]
        exact ihrest
      · rw [plan_dir hfate]
        exact ihbelow.trans ((Nat.le_succ _).trans ihrest)
      · rw [hplan]
        exact ihrest

/-- The tables are numbered in the order in which they are made. -/
theorem plan_dirs (tree : Tree) : ∀ (path : List UInt8) (next dirs own : ℕ),
    (tree.plan row clusterSize path next dirs).dirs =
      dirs + ((tree.plan row clusterSize path next dirs).tables own).length := by
  induction tree with
  | done => exact fun path next dirs own => rfl
  | entry name type below rest ihbelow ihrest =>
      intro path next dirs own
      rcases plan_cases path name below rest type with ⟨st, rfl, hfate⟩ | ⟨rfl, hfate⟩ | hplan
      · rw [plan_reg hfate]
        exact ihrest path _ dirs own
      · rw [plan_dir hfate]
        simp only [List.length_append, List.length_cons]
        have hbelow := ihbelow (chPath path name) next dirs
        generalize below.plan row clusterSize (chPath path name) next dirs = sub at hbelow ⊢
        rw [ihrest path _ _ own, hbelow (firstOf (tableSize sub.children.length) sub.next)]
        omega
      · rw [hplan]
        exact ihrest path next dirs own

/-- A child has one of the tables. -/
theorem table_lt_dirs (tree : Tree) : ∀ {path : List UInt8} {next dirs : ℕ},
    ∀ c ∈ (tree.plan row clusterSize path next dirs).children, ∀ d, c.table = some d →
      d < (tree.plan row clusterSize path next dirs).dirs := by
  induction tree with
  | done => exact fun {path next dirs} c hc => absurd hc List.not_mem_nil
  | entry name type below rest ihbelow ihrest =>
      intro path next dirs c hc d hd
      rcases plan_cases path name below rest type with ⟨st, rfl, hfate⟩ | ⟨rfl, hfate⟩ | hplan
      · rw [plan_reg hfate] at hc ⊢
        rcases List.mem_cons.mp hc with rfl | hc
        · cases hd
        · exact ihrest c hc d hd
      · rw [plan_dir hfate] at hc ⊢
        rcases List.mem_cons.mp hc with rfl | hc
        · obtain rfl := Option.some.inj hd
          exact le_plan_dirs
        · exact ihrest c hc d hd
      · rw [hplan] at hc ⊢
        exact ihrest c hc d hd

end Plan

/-! ## Conditions -/

/-- Every name in the directories that are imported. -/
def Tree.All (P : List UInt8 → List UInt8 → EntryType → Prop) : Tree → List UInt8 → Prop
  | .done, _ => True
  | .entry name type below rest, path =>
      P path name type ∧
        (fate path name type = .imported ∧ type = .dir true → below.All P (chPath path name)) ∧
        rest.All P path

def Tree.All.decide (P : List UInt8 → List UInt8 → EntryType → Prop)
    [∀ path name type, Decidable (P path name type)] :
    (tree : Tree) → (path : List UInt8) → Decidable (tree.All P path)
  | .done, _ => isTrue trivial
  | .entry name type below rest, path =>
      have := Tree.All.decide P below (chPath path name)
      have := Tree.All.decide P rest path
      inferInstanceAs (Decidable (P path name type ∧
        (fate path name type = .imported ∧ type = .dir true → below.All P (chPath path name)) ∧
        rest.All P path))

instance (P : List UInt8 → List UInt8 → EntryType → Prop)
    [∀ path name type, Decidable (P path name type)] (tree : Tree) (path : List UInt8) :
    Decidable (tree.All P path) := Tree.All.decide P tree path

/-- In no directory does a name that is skipped come right behind one that is rejected; `stale` says
that the name before was. -/
def Tree.Orderly : Tree → List UInt8 → Bool → Prop
  | .done, _, _ => True
  | .entry name type below rest, path, stale =>
      match fate path name type with
      | .skipped => stale = false ∧ rest.Orderly path stale
      | .rejected => rest.Orderly path true
      | .imported =>
          (type = .dir true → below.Orderly (chPath path name) false) ∧ rest.Orderly path false

def Tree.Orderly.decide :
    (tree : Tree) → (path : List UInt8) → (stale : Bool) → Decidable (tree.Orderly path stale)
  | .done, _, _ => isTrue trivial
  | .entry name type below rest, path, stale =>
      have := Tree.Orderly.decide below (chPath path name) false
      have := Tree.Orderly.decide rest path
      match h : fate path name type with
      | .skipped => decidable_of_iff (stale = false ∧ rest.Orderly path stale)
          (by simp only [Tree.Orderly, h])
      | .rejected => decidable_of_iff (rest.Orderly path true) (by simp only [Tree.Orderly, h])
      | .imported => decidable_of_iff
          ((type = .dir true → below.Orderly (chPath path name) false) ∧ rest.Orderly path false)
          (by simp only [Tree.Orderly, h])

instance (tree : Tree) (path : List UInt8) (stale : Bool) : Decidable (tree.Orderly path stale) :=
  Tree.Orderly.decide tree path stale

/-- `stat` and `opendir` succeed. -/
def Succeeds (path name : List UInt8) (type : EntryType) : Prop :=
  fate path name type = .imported → type ≠ .reg none ∧ type ≠ .dir false

instance (path name : List UInt8) (type : EntryType) : Decidable (Succeeds path name type) :=
  inferInstanceAs (Decidable (_ → _))

/-- A converted name stays inside its item. -/
def FitsItem (path name : List UInt8) (type : EntryType) : Prop :=
  fate path name type ≠ .skipped → convertible name → nameReach name ≤ itemSize

instance (path name : List UInt8) (type : EntryType) : Decidable (FitsItem path name type) :=
  inferInstanceAs (Decidable (_ → _ → _))

end SystemExtras.Fat
