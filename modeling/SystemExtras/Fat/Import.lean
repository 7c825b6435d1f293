import SystemExtras.Fat.Volume
import SystemExtras.Lib.Bytes
import SystemExtras.Lib.Run

/-!
# Importing a directory tree

`import_tree` walks a directory tree and builds the directory tables of the volume.
`import_dir` reads the names of one directory, keeps an item for each child that it
imported, and when it knows how many there are it allocates the table and fills it
from the items.  Items are recycled through a free list that all levels of the
recursion share.

The `..` entry of a directory is written with a placeholder.  Its address travels up
in the item of the directory, and the parent puts its own first cluster there.
-/

namespace SystemExtras.Fat

/-! ## Names -/

/-- `valid_char`, with bytes as `char` is on the device: without a sign. -/
def validChar (c : UInt8) : Bool :=
  (48 ≤ c && c ≤ 57) || (65 ≤ c && c ≤ 90) || (97 ≤ c && c ≤ 122) ||
    c ∈ [33, 35, 36, 37, 39, 40, 41, 45, 64, 94, 95, 96, 123, 125, 126] || 128 ≤ c

/-- `toupper`. -/
def toupper (c : UInt8) : UInt8 := if 97 ≤ c ∧ c ≤ 122 then c - 32 else c

/-- The loop of `convert_name` over the name, at its byte `i`: where the dot is. -/
def findDot : List UInt8 → ℕ → Option ℕ → Option (Option ℕ)
  | [], _, dot => some dot
  | c :: rest, i, dot =>
      if c = 46 then
        if dot.isSome then none else findDot rest (i + 1) (some i)
      else if !validChar c then none
      else findDot rest (i + 1) dot

/-- `convert_name`: the memory at `short_name`, unless it returns `1`.  With a null `dot` the first
of the two lengths is negative. -/
def convertName (shortName : Mem) (longName : List UInt8) : Option Mem := do
  let dot ← findDot longName 0 none
  let s := longName.length
  if dot.any (8 < ·) then none
  else if dot.any fun d => 3 < s - (d + 1) then none
  else
    let shortName := shortName.fill 0 11 32
    let dot := dot.getD s
    let shortName := shortName.storeBytes 0 ((longName.take dot).map toupper)
    -- the bytes behind a dot, down to the null byte
    some (shortName.storeBytes 8 ((((longName ++ [0]).drop (dot + 1)).take (s - dot)).map toupper))

/-- How far `convert_name` writes when it returns `0`. -/
def nameReach (longName : List UInt8) : ℕ :=
  let dot := longName.findIdx (· = 46)
  max 11 (max dot (8 + (longName.length - dot)))

/-! ## Directory tables -/

/-- `struct fat_dirent`; its other members are zero. -/
structure FatDirent where
  name : List UInt8
  attr : ℕ
  firstClusterHi : ℕ
  firstClusterLo : ℕ
  size : ℕ
  deriving DecidableEq, Repr

/-- `FAT_ATTR_SUBDIR`. -/
def fatAttrSubdir : ℕ := 0x10

/-- `fat_dirent_set_first_cluster`. -/
def fatDirentSetFirstCluster (de : FatDirent) (cluster : ℕ) : FatDirent :=
  { de with firstClusterHi := cluster / 2 ^ 16 % 2 ^ 16, firstClusterLo := cluster % 2 ^ 16 }

/-- `fat_dirent_set`. -/
def fatDirentSet (name : List UInt8) (attr firstCluster size : ℕ) : FatDirent :=
  fatDirentSetFirstCluster ⟨name.take 11, attr, 0, 0, size⟩ firstCluster

/-- The cluster that an entry names. -/
def FatDirent.firstCluster (de : FatDirent) : ℕ := de.firstClusterHi * 2 ^ 16 + de.firstClusterLo

/-- `struct dir`. -/
structure Dir where
  path : List UInt8
  extent : Extent
  size : ℕ
  entries : List FatDirent
  deriving DecidableEq, Repr

/-- What `stat` says about a file. -/
structure Stat where
  size : ℕ
  dev : ℕ
  ino : ℕ
  mtime : ℕ
  deriving DecidableEq, Repr

/-- `struct file`. -/
structure File where
  path : List UInt8
  extent : Extent
  size : ℕ
  dev : ℕ
  ino : ℕ
  mtime : ℕ
  deriving DecidableEq, Repr

/-! ## Items -/

/-- `struct imported`.  The entry at `dot_dot_dirent` is the first one of a table, which is given by
its number. -/
structure Imported where
  firstCluster : ℕ
  size : ℕ
  dotDotDirent : Option ℕ
  deriving DecidableEq, Repr

/-- `struct item`. -/
structure Item where
  name : List UInt8
  imp : Imported
  next : Option ℕ
  isDir : Bool
  deriving DecidableEq, Repr

/-- `sizeof(struct item)`. -/
def itemSize : ℕ := 48

/-- `offsetof(struct item, imp)`. -/
def impOffset : ℕ := 16

/-- What the code does not determine: the contents of an item from `malloc`, and what the members
behind the name of an item hold after a name was written across them. -/
structure Junk where
  fresh : ℕ → Item
  spill : List UInt8 → Item → Item

/-- The memory of the program: `fs`, the items by number, how many there are, `free_items_head`, the
tables and the files in the order in which they were made, and the `imp` of `import_tree`. -/
structure State where
  fs : Fs
  items : ℕ → Item
  itemCount : ℕ
  freeItemsHead : Option ℕ
  dirs : List Dir
  files : List File
  imp : Imported

/-- The links of the items. -/
def State.next (σ : State) (k : ℕ) : Option ℕ := (σ.items k).next

/-- Assigns an item. -/
def State.setItem (σ : State) (k : ℕ) (item : Item) : State :=
  { σ with items := Function.update σ.items k item }

/-- Where `out` points: to the `imp` of an item, or of `import_tree`. -/
inductive Out where
  | item (k : ℕ)
  | tree
  deriving DecidableEq, Repr

/-- `*out`. -/
def State.imported (σ : State) : Out → Imported
  | .item k => (σ.items k).imp
  | .tree => σ.imp

/-- Assigns `*out`. -/
def State.setImported (σ : State) (out : Out) (imp : Imported) : State :=
  match out with
  | .item k => σ.setItem k { σ.items k with imp := imp }
  | .tree => { σ with imp := imp }

/-- A step whose effect C leaves open, or a loop that does not end. -/
inductive Fault where
  | undefined
  | hang
  deriving DecidableEq, Repr

/-- `alloc_item`, with memory to spare. -/
def allocItem (junk : Junk) (σ : State) : ℕ × State :=
  match σ.freeItemsHead with
  | some k => (k, { σ with freeItemsHead := σ.next k })
  | none =>
      (σ.itemCount, { σ.setItem σ.itemCount (junk.fresh σ.itemCount) with
        itemCount := σ.itemCount + 1 })

/-- `free_item`. -/
def freeItem (σ : State) (k : ℕ) : State :=
  { σ.setItem k { σ.items k with next := σ.freeItemsHead } with freeItemsHead := some k }

/-- The loop of `free_items`; a list that ends has no more cells than there are items. -/
def findTail (σ : State) : ℕ → ℕ → Except Fault ℕ
  | 0, _ => .error .hang
  | fuel + 1, tail =>
      match σ.next tail with
      | none => .ok tail
      | some k => findTail σ fuel k

/-- `free_items`, which reads through a null `head`. -/
def freeItems (σ : State) (head : Option ℕ) : Except Fault State :=
  match head with
  | none => .error .undefined
  | some k => do
      let tail ← findTail σ σ.itemCount k
      .ok { σ.setItem tail { σ.items tail with next := σ.freeItemsHead } with
        freeItemsHead := some k }

/-! ## Files and directories -/

/-- `import_file`: the state and the return value.  `stat` may fail. -/
def importFile (σ : State) (path : List UInt8) (stat : Option Stat) (out : Out) :
    Except Fault (State × ℤ) :=
  match stat with
  | none => .ok (σ, -1)
  | some st =>
      let size := u32 st.size
      match fsAllocExtent σ.fs size .file with
      | none => .error .undefined
      | some (fs, none) => .ok ({ σ with fs := fs }, -1)
      | some (fs, some (extent, first)) =>
          let f : File := ⟨path, extent, size, st.dev, st.ino, st.mtime⟩
          .ok (({ σ with fs := fs, files := σ.files ++ [f] }).setImported out ⟨first, size, none⟩, 0)

/-- The type of a name in a directory: a regular file with what `stat` says about it, a directory
that can be opened or not, or something else. -/
inductive EntryType where
  | reg (stat : Option Stat)
  | dir (opens : Bool)
  | other
  deriving DecidableEq, Repr

/-- What `readdir` returns for a directory, name by name, and in the same way for what is below. -/
inductive Tree where
  | done
  | entry (name : List UInt8) (type : EntryType) (below rest : Tree)
  deriving DecidableEq, Repr

/-- `PATH_MAX`. -/
def pathMax : ℕ := 4096

/-- `ch_path`. -/
def chPath (path name : List UInt8) : List UInt8 := path ++ 47 :: name

/-- The variables of the loop in `import_dir`. -/
structure Loop where
  state : State
  items : Option ℕ
  item : Option ℕ
  count : ℕ

/-- The variables before the loop. -/
def Loop.start (σ : State) : Loop := ⟨σ, none, none, 0⟩

/-- The code at `skip_item`. -/
def skipItem (l : Loop) : Loop :=
  match l.item with
  | none => l
  | some k => { l with state := freeItem l.state k }

/-- How the loop begins with a name: it skips it, or it has an item with the name in it. -/
inductive Begun where
  | skipped (l : Loop)
  | ready (σ : State) (k : ℕ)

/-- The loop up to the `switch`. -/
def beginEntry (junk : Junk) (path name : List UInt8) (l : Loop) : Except Fault Begun :=
  if name.head? = some 46 then .ok (.skipped (skipItem l))
  else if pathMax ≤ (chPath path name).length then .ok (.skipped (skipItem l))
  else
    let (k, σ) := allocItem junk l.state
    let item := σ.items k
    match convertName (fun i => item.name.getD i 0) name with
    | none => .ok (.skipped (skipItem { l with state := σ, item := some k }))
    | some shortName =>
        if itemSize < nameReach name then .error .undefined
        else
          let item := if impOffset < nameReach name then junk.spill name item else item
          .ok (.ready (σ.setItem k { item with name := shortName.bytes 0 11 }) k)

/-- The loop behind the `switch`. -/
def addItem (l : Loop) (σ : State) (k : ℕ) (isDir : Bool) : Loop :=
  { state := σ.setItem k { σ.items k with isDir := isDir, next := l.items }
    items := some k
    item := none
    count := l.count + 1 }

/-- The loop of `import_dir` that fills the table, from its last entry to the first one. -/
def fillEntries (myFirstCluster : ℕ) :
    ℕ → Option ℕ → State → List FatDirent → Except Fault (State × List FatDirent)
  | 0, _, σ, entries => .ok (σ, entries)
  | _ + 1, none, _, _ => .error .undefined
  | i + 1, some k, σ, entries =>
      let item := σ.items k
      let chDirent := fatDirentSet item.name (if item.isDir then fatAttrSubdir else 0)
        item.imp.firstCluster item.imp.size
      match item.imp.dotDotDirent with
      | none => fillEntries myFirstCluster i item.next (freeItem σ k) (chDirent :: entries)
      | some d =>
          if d < σ.dirs.length then
            let dirs := σ.dirs.modify d fun dir =>
              { dir with entries := dir.entries.modify 0 (fatDirentSetFirstCluster · myFirstCluster) }
            fillEntries myFirstCluster i item.next (freeItem { σ with dirs := dirs } k)
              (chDirent :: entries)
          else .error .undefined

/-- `import_dir` from `closedir` on: the state and the return value. -/
def finishDir (l : Loop) (path : List UInt8) (isRoot : Bool) (out : Out) :
    Except Fault (State × ℤ) :=
  let σ := l.state
  let size := u32 (32 * (l.count + if isRoot then 0 else 2))
  match fsAllocExtent σ.fs size .dir with
  | none => .error .undefined
  | some (fs, none) => do
      let σ ← freeItems { σ with fs := fs } l.items
      .ok (σ, -1)
  | some (fs, some (extent, first)) => do
      let first := if isRoot then 0 else first
      let σ := { σ with fs := fs }
      let σ := σ.setImported out { σ.imported out with firstCluster := first }
      let (σ, entries) ← fillEntries first l.count l.items σ []
      let own := if isRoot then [] else
        [fatDirentSet [46, 46, 32, 32, 32, 32, 32, 32, 32, 32, 32] fatAttrSubdir (2 ^ 32 - 1) 0,
          fatDirentSet [46, 32, 32, 32, 32, 32, 32, 32, 32, 32, 32] fatAttrSubdir first 0]
      let dotDotDirent := if isRoot then none else some σ.dirs.length
      let d : Dir := ⟨path, extent, size, own ++ entries⟩
      let σ := { σ with dirs := σ.dirs ++ [d] }
      .ok (σ.setImported out { σ.imported out with dotDotDirent := dotDotDirent, size := 0 }, 0)

/-- The loop of `import_dir` over the names. -/
def readEntries (junk : Junk) : Tree → List UInt8 → Loop → Except Fault Loop
  | .done, _, l => .ok l
  | .entry name type below rest, path, l => do
      match ← beginEntry junk path name l with
      | .skipped l => readEntries junk rest path l
      | .ready σ k =>
          match type with
          | .reg stat => do
              let (σ, _) ← importFile σ (chPath path name) stat (.item k)
              readEntries junk rest path (addItem l σ k false)
          | .dir true => do
              let sub ← readEntries junk below (chPath path name) (.start σ)
              let (σ, _) ← finishDir sub (chPath path name) false (.item k)
              readEntries junk rest path (addItem l σ k true)
          | .dir false => readEntries junk rest path (addItem l σ k true)
          | .other => readEntries junk rest path (skipItem { l with state := σ, item := some k })

/-- `import_dir`, on a directory that can be opened or not. -/
def importDir (junk : Junk) (σ : State) (path : List UInt8) (isRoot : Bool) (out : Out)
    (opens : Bool) (tree : Tree) : Except Fault (State × ℤ) :=
  if opens then do
    let l ← readEntries junk tree path (.start σ)
    finishDir l path isRoot out
  else .ok (σ, -1)

/-- `fs_set_rootdir_start`. -/
def fsSetRootdirStart (fs : Fs) (rootdirStart : ℕ) : Fs :=
  { fs with boot := { fs.boot with rootdirStart := rootdirStart } }

/-- `fs_update_free_clusters`. -/
def fsUpdateFreeClusters (fs : Fs) : Fs :=
  { fs with info := { fs.info with freeClusters := sub32 fs.numClusters fs.nextCluster } }

/-- The memory before `import_tree`. -/
def State.initial (fs : Fs) (imp : Imported) : State :=
  { fs := fs
    items := fun _ => ⟨[], ⟨0, 0, none⟩, none, false⟩
    itemCount := 0
    freeItemsHead := none
    dirs := []
    files := []
    imp := imp }

/-- `import_tree`; its `imp` is not initialized. -/
def importTree (junk : Junk) (fs : Fs) (imp : Imported) (path : List UInt8) (opens : Bool)
    (tree : Tree) : Except Fault (State × ℤ) := do
  let (σ, ret) ← importDir junk (.initial fs imp) path false .tree opens tree
  if ret ≠ 0 then .ok (σ, ret)
  else .ok ({ σ with fs := fsUpdateFreeClusters (fsSetRootdirStart σ.fs σ.imp.firstCluster) }, 0)

end SystemExtras.Fat
