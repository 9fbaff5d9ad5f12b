import Noms.Nbs.Table

/-!
# The manifest shared by several stores (`file_manifest.go`, `store.go`)

A store's manifest holds its root and the specs of the tables that hold its chunks. Several
`NomsBlockStore`s, in one process or several, may open one directory; they share its manifest
and nothing else. `fileManifest.Update` is a compare-and-swap on the root, done under the file
lock: it writes the caller's root and specs when the manifest's root is the one the caller
read, and otherwise returns what the manifest holds. `UpdateRoot` prepends the memtable, hands
`ToSpecs` of its table set to `Update`, and on a failed swap takes the manifest's root and adds
its tables (`Union`).

A store is seen here as the protocol sees it (`StoreView`): its root, the specs of its table
set's sources, front first, and the table its memtable will become. Which table that is (its
name is the hash of its content) is chosen by the run: `put` makes the memtable one that will
become a given table, and `spill` prepends it when it is full. The world is a store per process
`ι` and the manifest, `none` until the first update; `World.apply` runs one call atomically,
`none` for a panic.
-/

namespace Noms.Nbs

/-- `tableSpec`. -/
structure TableSpec where
  name : Addr
  chunkCount : Nat
deriving DecidableEq

/-- What `Update` compares and writes of the manifest file: the root and the table specs. -/
structure ManifestContents where
  root : Addr
  specs : List TableSpec
deriving DecidableEq

namespace fileManifest

/-- `ParseIfExists`: the root and the specs, once the manifest exists. -/
def ParseIfExists (m : Option ManifestContents) : Option (Addr × List TableSpec) :=
  m.map fun c => (c.root, c.specs)

/-- `fileManifest.Update` under the file lock: `(actual, tableSpecs)` and the manifest after
it. Without a manifest `root` must be the empty hash, or it panics. -/
def Update (m : Option ManifestContents) (specs : List TableSpec) (root newRoot : Addr) :
    Option ((Addr × List TableSpec) × Option ManifestContents) :=
  match m with
  | some c =>
    if root ≠ c.root then some ((c.root, c.specs), m)
    -- `tableSpecs` now holds the specs read from the old manifest
    else some ((newRoot, c.specs), some ⟨newRoot, specs⟩)
  | none => if root = Addr.zero then some ((newRoot, specs), some ⟨newRoot, specs⟩) else none

/-- The root `Update` compares with: the empty hash while there is no manifest. -/
def rootOf (m : Option ManifestContents) : Addr := (m.map (·.root)).getD Addr.zero

/-- The specs the manifest lists. -/
def specsOf (m : Option ManifestContents) : List TableSpec := (m.map (·.specs)).getD []

/-- The swap succeeds: the manifest's root was `root`. -/
theorem Update_of_eq {m : Option ManifestContents} {specs : List TableSpec} {root : Addr}
    (h : root = rootOf m) (newRoot : Addr) :
    ∃ ts, Update m specs root newRoot = some ((newRoot, ts), some ⟨newRoot, specs⟩) := by
  cases m with
  | none => exact ⟨specs, by simp [Update, h, rootOf]⟩
  | some c => exact ⟨c.specs, by simp [Update, h, rootOf]⟩

/-- The swap fails: the manifest is left as it is, and `Update` returns its root and specs. -/
theorem Update_of_ne {m : Option ManifestContents} {specs : List TableSpec} {root newRoot : Addr}
    {r : (Addr × List TableSpec) × Option ManifestContents} (h : root ≠ rootOf m)
    (hu : Update m specs root newRoot = some r) :
    m.isSome ∧ r = ((rootOf m, specsOf m), m) := by
  cases m with
  | none =>
    simp only [rootOf, Option.map_none, Option.getD_none] at h
    simp [Update, h] at hu
  | some c =>
    simp only [rootOf, Option.map_some, Option.getD_some] at h
    simp only [Update, ne_eq, h, not_false_eq_true, if_true, Option.some.injEq] at hu
    exact ⟨rfl, hu.symm⟩

end fileManifest

open fileManifest

/-- A `NomsBlockStore` as the manifest protocol sees it. -/
structure StoreView where
  root : Addr
  tables : List TableSpec
  mt : Option TableSpec

namespace StoreView

/-- `tableSet.ToSpecs`: the specs of the sources that hold chunks. -/
def ToSpecs (tables : List TableSpec) : List TableSpec := tables.filter (0 < ·.chunkCount)

/-- `tableSet.Union`: the sources that hold chunks, then a table for each spec not among them. -/
def Union (tables specs : List TableSpec) : List TableSpec :=
  let newTables := tables.filter (0 < ·.chunkCount)
  newTables ++ specs.filter fun t => t.name ∉ newTables.map (·.name)

/-- `newNomsBlockStore`: the root and the tables of the manifest, if there is one. -/
def newNomsBlockStore (m : Option ManifestContents) : StoreView :=
  match fileManifest.ParseIfExists m with
  | some (root, tableSpecs) => ⟨root, Union [] tableSpecs, none⟩
  | none => ⟨Addr.zero, [], none⟩

/-- The table set once `UpdateRoot` has prepended a memtable that holds chunks. -/
def prependMemTable (s : StoreView) : StoreView :=
  match s.mt with
  | some t => if 0 < t.chunkCount then { s with tables := t :: s.tables, mt := none } else s
  | none => s

/-- `NomsBlockStore.UpdateRoot`: the store after it and whether it succeeded, and the
manifest. -/
def UpdateRoot (s : StoreView) (m : Option ManifestContents) (current last : Addr) :
    Option ((StoreView × Bool) × Option ManifestContents) := do
  guard (s.root = last)
  let s := s.prependMemTable
  let ((actual, tableNames), m') ← fileManifest.Update m (ToSpecs s.tables) s.root current
  if current ≠ actual then
    some (({ s with root := actual, tables := Union s.tables tableNames }, false), m')
  else some (({ s with root := current }, true), m')

/-- `NomsBlockStore.Flush`: `UpdateRoot(root, root)`, which must succeed. -/
def Flush (s : StoreView) (m : Option ManifestContents) :
    Option (StoreView × Option ManifestContents) := do
  let ((s', success), m') ← s.UpdateRoot m s.root s.root
  guard success
  some (s', m')

@[simp] theorem root_prependMemTable (s : StoreView) : s.prependMemTable.root = s.root := by
  unfold prependMemTable
  split
  · split <;> rfl
  · rfl

/-- Prepending the memtable keeps every table that holds chunks. -/
theorem ToSpecs_subset_prependMemTable (s : StoreView) :
    ToSpecs s.tables ⊆ ToSpecs s.prependMemTable.tables := by
  unfold prependMemTable
  split
  · split
    · exact ((List.sublist_cons_self _ _).filter _).subset
    · exact List.Subset.refl _
  · exact List.Subset.refl _

/-- A store knows every table it lists through `Union`: the ones it held with chunks, and each
spec with chunks. -/
theorem mem_ToSpecs_Union {tables specs : List TableSpec} {t : TableSpec} (ht : t ∈ specs)
    (hc : 0 < t.chunkCount) : t.name ∈ (ToSpecs (Union tables specs)).map (·.name) := by
  by_cases hk : t.name ∈ (tables.filter (0 < ·.chunkCount)).map (·.name)
  · obtain ⟨u, hu, hname⟩ := List.mem_map.mp hk
    refine List.mem_map.mpr ⟨u, ?_, hname⟩
    rw [ToSpecs, Union, List.filter_append]
    exact List.mem_append_left _ (List.mem_filter.mpr ⟨hu, (List.mem_filter.mp hu).2⟩)
  · refine List.mem_map.mpr ⟨t, ?_, rfl⟩
    rw [ToSpecs, Union, List.filter_append]
    refine List.mem_append_right _ (List.mem_filter.mpr ⟨?_, by simpa using hc⟩)
    exact List.mem_filter.mpr ⟨ht, by simpa using hk⟩

/-- Everything `UpdateRoot` can do. Its `last` check passes; then either the swap succeeds and
the manifest gets the new root and the specs of the store's tables, or the manifest is left as
it is and the store takes its root, adding its tables unless that root is `current`, in which
case `UpdateRoot` reports success all the same. -/
theorem UpdateRoot_cases {s s' : StoreView} {m m' : Option ManifestContents}
    {current last : Addr} {ok : Bool} (h : s.UpdateRoot m current last = some ((s', ok), m')) :
    s.root = last ∧
      ((s.root = rootOf m ∧ m' = some ⟨current, ToSpecs s.prependMemTable.tables⟩ ∧
          s' = ⟨current, s.prependMemTable.tables, s.prependMemTable.mt⟩ ∧ ok = true) ∨
        (s.root ≠ rootOf m ∧ m' = m ∧
          ((current ≠ rootOf m ∧ ok = false ∧ s' = ⟨rootOf m,
              Union s.prependMemTable.tables (specsOf m), s.prependMemTable.mt⟩) ∨
            (current = rootOf m ∧ ok = true ∧
              s' = ⟨current, s.prependMemTable.tables, s.prependMemTable.mt⟩)))) := by
  simp only [UpdateRoot, Option.bind_eq_bind] at h
  obtain ⟨u, hguard, h⟩ := Option.bind_eq_some_iff.mp h
  have hlast : s.root = last := by
    by_contra hne
    simp [hne] at hguard
  refine ⟨hlast, ?_⟩
  obtain ⟨⟨⟨actual, tableNames⟩, m₁⟩, hu, h⟩ := Option.bind_eq_some_iff.mp h
  rw [root_prependMemTable] at hu
  by_cases hroot : s.root = rootOf m
  · obtain ⟨ts, hts⟩ := @Update_of_eq m (ToSpecs s.prependMemTable.tables) _ hroot current
    rw [hts, Option.some.injEq] at hu
    simp only [Prod.mk.injEq] at hu
    obtain ⟨⟨rfl, rfl⟩, rfl⟩ := hu
    simp only [ne_eq, not_true_eq_false, if_false, Option.some.injEq, Prod.mk.injEq] at h
    exact .inl ⟨hroot, h.2.symm, h.1.1.symm, h.1.2.symm⟩
  · obtain ⟨-, hr⟩ := Update_of_ne hroot hu
    simp only [Prod.mk.injEq] at hr
    obtain ⟨⟨rfl, rfl⟩, hm⟩ := hr
    subst m₁
    refine .inr ⟨hroot, ?_⟩
    by_cases hcur : current = rootOf m
    · simp only [hcur, ne_eq, not_true_eq_false, if_false, Option.some.injEq,
        Prod.mk.injEq] at h
      exact ⟨h.2.symm, .inr ⟨hcur, h.1.2.symm, by rw [hcur]; exact h.1.1.symm⟩⟩
    · simp only [ne_eq, hcur, not_false_eq_true, if_true, Option.some.injEq,
        Prod.mk.injEq] at h
      exact ⟨h.2.symm, .inl ⟨hcur, h.1.2.symm, h.1.1.symm⟩⟩

end StoreView

/-- The stores of the processes that opened the directory, and its manifest. -/
structure World (ι : Type) where
  stores : ι → Option StoreView
  manifest : Option ManifestContents

/-- No store yet, and no manifest. -/
def World.init (ι : Type) : World ι := ⟨fun _ => none, none⟩

/-- A call of one process. -/
inductive Call (ι : Type)
  /-- `NewLocalStore` on the directory. -/
  | create (i : ι)
  /-- Puts that leave the memtable holding the chunks of the table `t`. -/
  | put (i : ι) (t : TableSpec)
  /-- A put into a full memtable: it is prepended, and a new one will become `t`. -/
  | spill (i : ι) (t : TableSpec)
  | updateRoot (i : ι) (current last : Addr)
  | flush (i : ι)

namespace World

variable {ι : Type} [DecidableEq ι]

/-- The world with process `i`'s store replaced. -/
def setStore (w : World ι) (i : ι) (s : StoreView) : World ι :=
  { w with stores := Function.update w.stores i (some s) }

/-- One call, done atomically. -/
def apply (w : World ι) : Call ι → Option (World ι)
  | .create i => some (w.setStore i (StoreView.newNomsBlockStore w.manifest))
  | .put i t => do
    let s ← w.stores i
    some (w.setStore i { s with mt := some t })
  | .spill i t => do
    let s ← w.stores i
    let full ← s.mt
    some (w.setStore i { s with tables := full :: s.tables, mt := some t })
  | .updateRoot i current last => do
    let s ← w.stores i
    let ((s', _), m') ← s.UpdateRoot w.manifest current last
    some { w.setStore i s' with manifest := m' }
  | .flush i => do
    let s ← w.stores i
    let (s', m') ← s.Flush w.manifest
    some { w.setStore i s' with manifest := m' }

/-- The calls in order. -/
def run (w : World ι) (ops : List (Call ι)) : Option (World ι) := ops.foldlM apply w

@[simp] theorem setStore_stores (w : World ι) (i j : ι) (s : StoreView) :
    (w.setStore i s).stores j = if j = i then some s else w.stores j := by
  simp [setStore, Function.update_apply]

@[simp] theorem setStore_manifest (w : World ι) (i : ι) (s : StoreView) :
    (w.setStore i s).manifest = w.manifest := rfl

end World

/-- Two stores open an empty directory and each flushes a table of its own. Both flushes keep
the root, the empty hash, so the second swap succeeds over the first and writes only its own
table: the first store's table, which the manifest listed, is gone from it. And when the first
store installs a root `r` and the second then updates to the same `r`, the second finds `r`
installed and reports success without writing: the manifest lacks its table. -/
theorem manifest_drops_tables {ι : Type} [DecidableEq ι] {i j : ι} (hij : i ≠ j)
    {t₁ t₂ : TableSpec} (h₁ : 0 < t₁.chunkCount) (h₂ : 0 < t₂.chunkCount) {r : Addr}
    (hr : r ≠ Addr.zero) :
    ((World.init ι).run [.create i, .create j, .put i t₁, .flush i]).map World.manifest =
        some (some ⟨Addr.zero, [t₁]⟩) ∧
      ((World.init ι).run [.create i, .create j, .put i t₁, .flush i, .put j t₂, .flush j]).map
        World.manifest = some (some ⟨Addr.zero, [t₂]⟩) ∧
      ((World.init ι).run [.create i, .create j, .put i t₁, .updateRoot i r Addr.zero,
          .put j t₂]).bind (fun w => (w.stores j).bind fun s => s.UpdateRoot w.manifest r Addr.zero) =
        some ((⟨r, [t₂], none⟩, true), some ⟨r, [t₁]⟩) := by
  have hji : j ≠ i := Ne.symm hij
  have hr' : Addr.zero ≠ r := Ne.symm hr
  simp [World.run, World.apply, World.init, StoreView.newNomsBlockStore, ParseIfExists,
    StoreView.Flush, StoreView.UpdateRoot, StoreView.prependMemTable, Update, StoreView.ToSpecs,
    h₁, h₂, hij, hji, hr']

/-- Two tables of one chunk each, and a root. -/
def sampleTable (b : UInt8) : TableSpec := ⟨⟨List.replicate addrSize b, by simp⟩, 1⟩

theorem manifest_drops_tables_bool :
    ((World.init Bool).run [.create true, .create false, .put true (sampleTable 1),
        .flush true]).map World.manifest = some (some ⟨Addr.zero, [sampleTable 1]⟩) ∧
      ((World.init Bool).run [.create true, .create false, .put true (sampleTable 1),
          .flush true, .put false (sampleTable 2), .flush false]).map World.manifest =
        some (some ⟨Addr.zero, [sampleTable 2]⟩) ∧
      ((World.init Bool).run [.create true, .create false, .put true (sampleTable 1),
          .updateRoot true (sampleTable 3).name Addr.zero, .put false (sampleTable 2)]).bind
          (fun w => (w.stores false).bind fun s =>
            s.UpdateRoot w.manifest (sampleTable 3).name Addr.zero) =
        some ((⟨(sampleTable 3).name, [sampleTable 2], none⟩, true),
          some ⟨(sampleTable 3).name, [sampleTable 1]⟩) :=
  @manifest_drops_tables Bool _ true false (by decide) (sampleTable 1) (sampleTable 2)
    (by decide) (by decide) (sampleTable 3).name (by decide)

end Noms.Nbs
