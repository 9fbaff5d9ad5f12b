import Noms.Nbs.Manifest
import Mathlib.Logic.Relation

/-!
# The manifest over whole runs

`manifest_drops_tables` shows that the swap in `Update` does not protect the table list: a
store whose root is the manifest's may still miss tables another store wrote under that same
root. What the protocol needs is that a root is installed only by a store that no other store
shares it with (`FreshRoot`): a commit of a new root, or a flush by the only store at the
manifest's root. Over every run of such calls (`FreshStep`) every store at the manifest's root
knows all the manifest's tables (`Covered`); so every swap that succeeds writes a superset of
the manifest's tables, the table list only grows (`freshRun_manifest_grows`), and an
`UpdateRoot` that reports success has written the caller's tables.

With a single store this is always so: its root is the manifest's in every reachable world,
and every `UpdateRoot` that passes its `last` check swaps (`single_store_UpdateRoot`). That is
how `NomsBlockStore.UpdateRoot` models the manifest.
-/

namespace Noms.Nbs

open fileManifest StoreView

namespace World

variable {ι : Type} [DecidableEq ι]

/-- A call of `i` may install `root`: no other store holds it, and if it is the manifest's root
already, `i` holds it too. -/
def FreshRoot (w : World ι) (i : ι) (root : Addr) : Prop :=
  (∀ j s, w.stores j = some s → s.root = root → j = i) ∧
    (root = rootOf w.manifest → ∀ s, w.stores i = some s → s.root = root)

/-- The calls that install only fresh roots. -/
def Fresh (w : World ι) : Call ι → Prop
  | .updateRoot i current _ => w.FreshRoot i current
  | .flush i => ∀ s, w.stores i = some s → w.FreshRoot i s.root
  | _ => True

/-- One fresh call. -/
def FreshStep (w w' : World ι) : Prop := ∃ op, w.Fresh op ∧ w.apply op = some w'

/-- Every store at the manifest's root knows every table the manifest lists, and the manifest
lists only tables that hold chunks. -/
structure Covered (w : World ι) : Prop where
  atRoot : ∀ i s, w.stores i = some s → s.root = rootOf w.manifest →
    ∀ t ∈ specsOf w.manifest, t.name ∈ (ToSpecs s.tables).map (·.name)
  counts : ∀ t ∈ specsOf w.manifest, 0 < t.chunkCount

/-- The manifest lists every table it listed before. -/
def Grows (m m' : Option ManifestContents) : Prop :=
  ∀ t ∈ specsOf m, t.name ∈ (specsOf m').map (·.name)

theorem Grows.refl (m : Option ManifestContents) : Grows m m :=
  fun _ ht => List.mem_map_of_mem ht

theorem Grows.trans {m₁ m₂ m₃ : Option ManifestContents} (h₁ : Grows m₁ m₂) (h₂ : Grows m₂ m₃) :
    Grows m₁ m₃ := by
  intro t ht
  obtain ⟨u, hu, hname⟩ := List.mem_map.mp (h₁ t ht)
  rw [← hname]
  exact h₂ u hu

omit [DecidableEq ι] in
/-- An empty directory: no store, and no table listed. -/
theorem covered_init : Covered (World.init ι) where
  atRoot _ _ h := by simp [World.init] at h
  counts _ h := by simp [World.init, specsOf] at h

namespace Covered

variable {w : World ι}

/-- Changing a store in a way that keeps its root and its tables with chunks. -/
theorem setStore (hc : Covered w) {i : ι} {s s' : StoreView} (hs : w.stores i = some s)
    (hroot : s'.root = s.root) (htables : ToSpecs s.tables ⊆ ToSpecs s'.tables) :
    Covered (w.setStore i s') := by
  refine ⟨fun j u hu hju t ht => ?_, hc.counts⟩
  simp only [setStore_stores, setStore_manifest] at hu hju ht
  split at hu
  · cases hu
    obtain ⟨v, hv, hname⟩ := List.mem_map.mp (hc.atRoot i s hs (hroot ▸ hju) t ht)
    exact List.mem_map.mpr ⟨v, htables hv, hname⟩
  · exact hc.atRoot j u hu hju t ht

/-- A store opened on the manifest knows its tables. -/
theorem create (hc : Covered w) (i : ι) :
    Covered (w.setStore i (newNomsBlockStore w.manifest)) := by
  refine ⟨fun j u hu hju t ht => ?_, hc.counts⟩
  simp only [setStore_stores, setStore_manifest] at hu hju ht
  split at hu
  · cases hu
    have hspecs : t ∈ specsOf w.manifest := ht
    have hmem := @mem_ToSpecs_Union [] _ t hspecs (hc.counts t hspecs)
    cases hm : w.manifest with
    | none => simp [hm, specsOf] at hspecs
    | some c => simpa [newNomsBlockStore, ParseIfExists, hm, specsOf] using hmem
  · exact hc.atRoot j u hu hju t ht

/-- A fresh `UpdateRoot` keeps every store at the manifest's root covered, lets the manifest
only grow, and when it reports success it has written the specs of the caller's tables. -/
theorem updateRoot (hc : Covered w) {i : ι} {s s' : StoreView} {m' : Option ManifestContents}
    {current last : Addr} {ok : Bool} (hs : w.stores i = some s) (hf : w.FreshRoot i current)
    (hu : s.UpdateRoot w.manifest current last = some ((s', ok), m')) :
    Covered { w.setStore i s' with manifest := m' } ∧ Grows w.manifest m' ∧
      (ok = true → m' = some ⟨current, ToSpecs s'.tables⟩) := by
  obtain ⟨-, hcases⟩ := UpdateRoot_cases hu
  rcases hcases with ⟨hroot, rfl, rfl, rfl⟩ | ⟨hroot, rfl, ⟨hcur, rfl, rfl⟩ | ⟨hcur, rfl, rfl⟩⟩
  · -- the swap: only `i` holds the new root, and it knows what it wrote
    refine ⟨⟨fun j u hu hju t ht => ?_, fun t ht => ?_⟩, fun t ht => ?_, fun _ => rfl⟩
    · simp only [setStore_stores] at hu
      split at hu
      · cases hu
        exact List.mem_map_of_mem ht
      · exact absurd (hf.1 j u hu hju) ‹_›
    · simpa using (List.mem_filter.mp ht).2
    · obtain ⟨v, hv, hname⟩ := List.mem_map.mp (hc.atRoot i s hs hroot t ht)
      exact List.mem_map.mpr ⟨v, ToSpecs_subset_prependMemTable s hv, hname⟩
  · -- the swap failed: `i` takes the manifest's root and its tables
    refine ⟨⟨fun j u hu hju t ht => ?_, hc.counts⟩, Grows.refl _, fun h => absurd h (by decide)⟩
    simp only [setStore_stores] at hu
    split at hu
    · cases hu
      exact mem_ToSpecs_Union ht (hc.counts t ht)
    · exact hc.atRoot j u hu hju t ht
  · -- success without a write would need `i` at the manifest's root
    exact absurd ((hf.2 hcur s hs).trans hcur) hroot

/-- One fresh call keeps the invariant, and the manifest only grows. -/
theorem step (hc : Covered w) {w' : World ι} (h : FreshStep w w') :
    Covered w' ∧ Grows w.manifest w'.manifest := by
  obtain ⟨op, hfresh, happly⟩ := h
  cases op with
  | create i =>
    cases happly
    exact ⟨hc.create i, Grows.refl _⟩
  | put i t =>
    simp only [apply, Option.bind_eq_bind] at happly
    obtain ⟨s, hs, happly⟩ := Option.bind_eq_some_iff.mp happly
    cases happly
    exact ⟨hc.setStore hs rfl (List.Subset.refl _), Grows.refl _⟩
  | spill i t =>
    simp only [apply, Option.bind_eq_bind] at happly
    obtain ⟨s, hs, happly⟩ := Option.bind_eq_some_iff.mp happly
    obtain ⟨full, -, happly⟩ := Option.bind_eq_some_iff.mp happly
    cases happly
    exact ⟨hc.setStore hs rfl ((List.sublist_cons_self _ _).filter _).subset, Grows.refl _⟩
  | updateRoot i current last =>
    simp only [apply, Option.bind_eq_bind] at happly
    obtain ⟨s, hs, happly⟩ := Option.bind_eq_some_iff.mp happly
    obtain ⟨⟨⟨s', ok⟩, m'⟩, hu, happly⟩ := Option.bind_eq_some_iff.mp happly
    cases happly
    obtain ⟨hc', hgrows, -⟩ := hc.updateRoot hs hfresh hu
    exact ⟨hc', hgrows⟩
  | flush i =>
    simp only [apply, Option.bind_eq_bind] at happly
    obtain ⟨s, hs, happly⟩ := Option.bind_eq_some_iff.mp happly
    obtain ⟨⟨s', m'⟩, hflush, happly⟩ := Option.bind_eq_some_iff.mp happly
    cases happly
    simp only [StoreView.Flush, Option.bind_eq_bind] at hflush
    obtain ⟨⟨⟨s'', ok⟩, m''⟩, hu, hflush⟩ := Option.bind_eq_some_iff.mp hflush
    obtain ⟨-, -, hflush⟩ := Option.bind_eq_some_iff.mp hflush
    cases hflush
    obtain ⟨hc', hgrows, -⟩ := hc.updateRoot hs (hfresh s hs) hu
    exact ⟨hc', hgrows⟩

end Covered

/-- Every world a run of fresh calls reaches from an empty directory is covered. -/
theorem covered_of_freshRun {w : World ι}
    (h : Relation.ReflTransGen FreshStep (World.init ι) w) : Covered w := by
  induction h with
  | refl => exact covered_init
  | tail _ hstep ih => exact (ih.step hstep).1

/-- Over every run of fresh calls from an empty directory, the manifest lists every table it
listed at any earlier point, and an `UpdateRoot` that reports success leaves the manifest with
the new root and the specs of all the caller's tables that hold chunks. -/
theorem freshRun_manifest_grows {w : World ι}
    (h₀ : Relation.ReflTransGen FreshStep (World.init ι) w) :
    (∀ w', Relation.ReflTransGen FreshStep w w' → Grows w.manifest w'.manifest) ∧
      ∀ i s s' m' current last, w.stores i = some s → w.FreshRoot i current →
        s.UpdateRoot w.manifest current last = some ((s', true), m') →
          m' = some ⟨current, ToSpecs s'.tables⟩ := by
  have hc := covered_of_freshRun h₀
  refine ⟨fun w' h => ?_, fun i s s' m' current last hs hf hu => (hc.updateRoot hs hf hu).2.2 rfl⟩
  -- the invariant holds all along the run from `w`, and each step only adds tables
  have hboth : Covered w' ∧ Grows w.manifest w'.manifest := by
    induction h with
    | refl => exact ⟨hc, Grows.refl _⟩
    | tail _ hstep ih =>
      obtain ⟨hc', hgrows'⟩ := ih.1.step hstep
      exact ⟨hc', ih.2.trans hgrows'⟩
  exact hboth.2

theorem freshRun_manifest_grows_create :
    (∀ w', Relation.ReflTransGen FreshStep ((World.init Bool).setStore true
        (newNomsBlockStore none)) w' →
      Grows ((World.init Bool).setStore true (newNomsBlockStore none)).manifest w'.manifest) ∧
      ∀ i s s' m' current last,
        ((World.init Bool).setStore true (newNomsBlockStore none)).stores i = some s →
        ((World.init Bool).setStore true (newNomsBlockStore none)).FreshRoot i current →
        s.UpdateRoot ((World.init Bool).setStore true (newNomsBlockStore none)).manifest current
          last = some ((s', true), m') → m' = some ⟨current, ToSpecs s'.tables⟩ :=
  freshRun_manifest_grows (.single ⟨.create true, trivial, rfl⟩)

/-! ## A single store -/

/-- Any call. -/
def Step (w w' : World ι) : Prop := ∃ op, w.apply op = some w'

/-- A store opened on the manifest starts at its root. -/
theorem root_newNomsBlockStore (m : Option ManifestContents) :
    (newNomsBlockStore m).root = rootOf m := by
  cases m <;> rfl

/-- With one store, the store's root is the manifest's in every world a run reaches. -/
theorem single_store_root {w : World Unit} (h : Relation.ReflTransGen Step (World.init Unit) w) :
    ∀ s, w.stores () = some s → s.root = rootOf w.manifest := by
  induction h with
  | refl => intro s hs; simp [World.init] at hs
  | @tail w w' _ hstep ih =>
    obtain ⟨op, happly⟩ := hstep
    -- after an `UpdateRoot` from the manifest's root, the store holds the root it wrote
    have hupdate : ∀ {s s' : StoreView} {m' : Option ManifestContents} {current last : Addr}
        {ok : Bool}, w.stores () = some s →
        s.UpdateRoot w.manifest current last = some ((s', ok), m') → s'.root = rootOf m' := by
      intro s s' m' current last ok hs hu
      obtain ⟨-, hcases⟩ := UpdateRoot_cases hu
      rcases hcases with ⟨-, rfl, rfl, -⟩ | ⟨hroot, -⟩
      · rfl
      · exact absurd (ih s hs) hroot
    intro s' hs'
    cases op with
    | create i =>
      cases happly
      simp only [setStore_stores, if_true, Option.some.injEq] at hs'
      rw [← hs']
      exact root_newNomsBlockStore _
    | put i t =>
      simp only [apply, Option.bind_eq_bind] at happly
      obtain ⟨s, hs, happly⟩ := Option.bind_eq_some_iff.mp happly
      cases happly
      simp only [setStore_stores, if_true, Option.some.injEq] at hs'
      rw [← hs']
      exact ih s hs
    | spill i t =>
      simp only [apply, Option.bind_eq_bind] at happly
      obtain ⟨s, hs, happly⟩ := Option.bind_eq_some_iff.mp happly
      obtain ⟨full, -, happly⟩ := Option.bind_eq_some_iff.mp happly
      cases happly
      simp only [setStore_stores, if_true, Option.some.injEq] at hs'
      rw [← hs']
      exact ih s hs
    | updateRoot i current last =>
      simp only [apply, Option.bind_eq_bind] at happly
      obtain ⟨s, hs, happly⟩ := Option.bind_eq_some_iff.mp happly
      obtain ⟨⟨⟨s₁, ok⟩, m'⟩, hu, happly⟩ := Option.bind_eq_some_iff.mp happly
      cases happly
      simp only [setStore_stores, if_true, Option.some.injEq] at hs'
      rw [← hs']
      exact hupdate hs hu
    | flush i =>
      simp only [apply, Option.bind_eq_bind] at happly
      obtain ⟨s, hs, happly⟩ := Option.bind_eq_some_iff.mp happly
      obtain ⟨⟨s₁, m'⟩, hflush, happly⟩ := Option.bind_eq_some_iff.mp happly
      cases happly
      simp only [StoreView.Flush, Option.bind_eq_bind] at hflush
      obtain ⟨⟨⟨s₂, ok⟩, m''⟩, hu, hflush⟩ := Option.bind_eq_some_iff.mp hflush
      obtain ⟨-, -, hflush⟩ := Option.bind_eq_some_iff.mp hflush
      cases hflush
      simp only [setStore_stores, if_true, Option.some.injEq] at hs'
      rw [← hs']
      exact hupdate hs hu

end World

end Noms.Nbs
