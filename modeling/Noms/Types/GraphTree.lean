import Noms.Types.GraphStack
import Mathlib

/-!
# The op cache as a tree of collections

The cache's entries, in key order, are the rendering of a tree (`GraphTree.render`): the entries
of one collection are its leaves (an operation of the collection's kind under one more key) and,
under a key, the entries of a child collection with that key in front. The key order puts a
child's entries together, between the leaves around its key, since a key list extended by more
keys stays after the keys before it.

`Put` keeps that shape: a `Put` of an operation on a path is the tree's `putOp`, which walks down
the path, starting maps for the keys not there yet, and puts the leaf in its collection
(`render_putOp`). It fails on a conflict only: a key that holds a leaf where the path needs a
child or the reverse, a path through a set or a list, a leaf of one kind in a collection of
another; entries that agree with the operation leave none of these (`putOp_isSome`).

`Build` of a rendering gives back the tree's collections (`foldlM_insertOp_render`): the entries
of a child arrive together, the first starts the child (`insertOp_new_child`) and the others
enter it as the last child of its parent (`insertOp_child`).
-/

namespace Noms.Types

open Noms.Lib

variable {V : Type}

/-- The operations stored for one collection, as a tree: an entry is a leaf, an operation on this
collection under its last key, or the operations of a child collection under one key, with the
child's kind. -/
inductive GraphTree (V : Type) where
  | nil
  | leaf (k v : V) (rest : GraphTree V)
  | sub (k : V) (kind : NomsKind) (t : GraphTree V) (rest : GraphTree V)

namespace GraphTree

def keys : GraphTree V → List V
  | nil => []
  | leaf k _ rest => k :: rest.keys
  | sub k _ _ rest => k :: rest.keys

/-- The cache's entries for a collection of kind `kind`, in order. -/
def render (kind : NomsKind) : GraphTree V → List (LdbOp V)
  | nil => []
  | leaf k v rest => ([k], kind, v) :: rest.render kind
  | sub k kd t rest => (t.render kd).map (Prod.map (List.cons k) id) ++ rest.render kind

/-- The item `GraphOp` reads from a leaf of a collection of kind `kind`. -/
def leafItem (kind : NomsKind) (k v : V) : Item V :=
  match kind with
  | .MapKind => .entry k v
  | .SetKind => .value k
  | _ => .value v

def toItems (kind : NomsKind) : GraphTree V → List (Item V)
  | nil => []
  | leaf k v rest => leafItem kind k v :: rest.toItems kind
  | sub k kd t rest => .child k (.mk kd (t.toItems kd)) :: rest.toItems kind

/-- The collection a tree of kind `kind` stands for. -/
def toColl (kind : NomsKind) (t : GraphTree V) : Coll V := .mk kind (t.toItems kind)

variable [LinearOrder V]

/-- Keys strictly ascending; children non-empty, of a collection kind, and only under maps. -/
def WF (kind : NomsKind) : GraphTree V → Prop
  | nil => True
  | leaf k _ rest => (∀ k' ∈ rest.keys, k < k') ∧ rest.WF kind
  | sub k kd t rest =>
    kind = .MapKind ∧ IsCollKind kd ∧ t ≠ nil ∧ t.WF kd ∧ (∀ k' ∈ rest.keys, k < k') ∧ rest.WF kind

/-! ## The rendering -/

omit [LinearOrder V] in
/-- Every entry's key list starts with the key of its entry in the tree. -/
theorem head_mem_keys {kind : NomsKind} {t : GraphTree V} {op : LdbOp V}
    (h : op ∈ t.render kind) : ∃ k ∈ t.keys, ∃ p, op.1 = k :: p := by
  induction t generalizing kind with
  | nil => simp [render] at h
  | leaf k v rest ih =>
    simp only [render, List.mem_cons] at h
    rcases h with rfl | h
    · exact ⟨k, by simp [keys], [], rfl⟩
    · obtain ⟨k', hk', p, hp⟩ := ih h
      exact ⟨k', by simp [keys, hk'], p, hp⟩
  | sub k kd t rest _ ih =>
    simp only [render, List.mem_append, List.mem_map] at h
    rcases h with ⟨op', -, rfl⟩ | h
    · exact ⟨k, by simp [keys], op'.1, rfl⟩
    · obtain ⟨k', hk', p, hp⟩ := ih h
      exact ⟨k', by simp [keys, hk'], p, hp⟩

/-- A key list starting below every key of the tree comes before all its entries. -/
theorem lt_render_of_forall_lt {kind : NomsKind} {t : GraphTree V} {k : V}
    (h : ∀ k' ∈ t.keys, k < k') (q : List V) : ∀ op ∈ t.render kind, k :: q < op.1 := by
  intro op hop
  obtain ⟨k', hk', p, hp⟩ := head_mem_keys hop
  rw [hp]
  exact List.cons_lt_cons_iff.mpr (.inl (h k' hk'))

omit [LinearOrder V] in
theorem ne_nil_of_mem_render {kind : NomsKind} {t : GraphTree V} {op : LdbOp V}
    (h : op ∈ t.render kind) : op.1 ≠ [] := by
  obtain ⟨k, -, p, hp⟩ := head_mem_keys h
  simp [hp]

theorem render_ne_nil {kind : NomsKind} {t : GraphTree V} (hwf : t.WF kind) (hne : t ≠ nil) :
    t.render kind ≠ [] := by
  cases t with
  | nil => exact absurd rfl hne
  | leaf k v rest => simp [render]
  | sub k kd t rest =>
    have ht : t.render kd ≠ [] := render_ne_nil hwf.2.2.2.1 hwf.2.2.1
    simp [render, ht]

/-! ## What `GraphOp` reads from the rendering -/

omit [LinearOrder V] in
theorem GraphOp_leaf {kind : NomsKind} (hk : IsCollKind kind) (k v : V) :
    GraphOp ([k], kind, v) = some ([], kind, leafItem kind k v) := by
  rcases hk with rfl | rfl | rfl <;> rfl

omit [LinearOrder V] in
/-- `GraphOp` reads its path as the keys but the last, and its kind from the entry. -/
theorem GraphOp_eq {op : LdbOp V} {g : List V} {kind : NomsKind} {item : Item V}
    (h : GraphOp op = some (g, kind, item)) : g = op.1.dropLast ∧ kind = op.2.1 ∧ op.1 ≠ [] := by
  obtain ⟨keys, opKind, v⟩ := op
  cases hl : keys.getLast? with
  | none => simp [GraphOp, hl] at h
  | some key =>
    have hne : keys ≠ [] := fun h0 => by simp [h0] at hl
    cases opKind <;> simp [GraphOp, hl] at h <;> exact ⟨h.1.symm, h.2.1.symm, hne⟩

omit [LinearOrder V] in
/-- A key in front of a non-empty key list is a key in front of the path. -/
theorem GraphOp_cons (k : V) {op : LdbOp V} (hop : op.1 ≠ []) :
    GraphOp (Prod.map (List.cons k) id op) = (GraphOp op).map fun x => (k :: x.1, x.2) := by
  obtain ⟨p, kind, v⟩ := op
  obtain ⟨a, p', rfl⟩ := List.exists_cons_of_ne_nil hop
  have hl : (k :: a :: p').getLast? = (a :: p').getLast? := by
    simp [List.getLast?_cons]
  have hd : (k :: a :: p').dropLast = k :: (a :: p').dropLast := rfl
  unfold GraphOp
  simp only [Prod.map, id, hl, hd]
  split <;> simp_all

/-- An entry of a collection of kind `kd`: `GraphOp` reads it, and a child started for it has
kind `kd`. -/
def OpOf (kd : NomsKind) (op : LdbOp V) : Prop :=
  ∃ g kind item, GraphOp op = some (g, kind, item) ∧ (if g = [] then kind else .MapKind) = kd

theorem render_opOf {kind : NomsKind} {t : GraphTree V} (hwf : t.WF kind) (hk : IsCollKind kind) :
    ∀ op ∈ t.render kind, OpOf kind op := by
  induction t generalizing kind with
  | nil => simp [render]
  | leaf k v rest ih =>
    intro op hop
    simp only [render, List.mem_cons] at hop
    rcases hop with rfl | hop
    · exact ⟨[], kind, leafItem kind k v, GraphOp_leaf hk k v, rfl⟩
    · exact ih hwf.2 hk op hop
  | sub k kd t rest iht ih =>
    obtain ⟨hmap, hkd, -, hwft, -, hwfr⟩ := hwf
    intro op hop
    simp only [render, List.mem_append, List.mem_map] at hop
    rcases hop with ⟨op', hop', rfl⟩ | hop
    · obtain ⟨g, kind', item, hg, -⟩ := iht hwft hkd op' hop'
      refine ⟨k :: g, kind', item, ?_, by simp [hmap]⟩
      rw [GraphOp_cons k (ne_nil_of_mem_render hop'), hg]
      rfl
    · exact ih hwfr hk op hop

/-! ## `Build` of a rendering -/

theorem insertOp_leaf {kind : NomsKind} (hk : IsCollKind kind) (items : List (Item V)) (k v : V) :
    insertOp (.mk kind items) ([k], kind, v) = some (.mk kind (items ++ [leafItem kind k v])) := by
  simp [insertOp, GraphOp_leaf hk, Coll.insertAt]

/-- An entry of a child goes into the parent's last child when that child has its key. -/
theorem insertOp_child (kd : NomsKind) (items : List (Item V)) (k : V) (c : Coll V)
    {op : LdbOp V} (hop : op.1 ≠ []) :
    insertOp (.mk kd (items ++ [.child k c])) (Prod.map (List.cons k) id op) =
      (insertOp c op).map fun c' => .mk kd (items ++ [.child k c']) := by
  simp only [insertOp, GraphOp_cons k hop]
  cases GraphOp op with
  | none => rfl
  | some x =>
    obtain ⟨g, kind, item⟩ := x
    simp [Coll.insertAt_append_child]

/-- The first entry of a child starts it, with the kind the entry gives. -/
theorem insertOp_new_child {kd : NomsKind} {items : List (Item V)} {k : V}
    (hlast : lastChild? items k = none) {op : LdbOp V} {kd' : NomsKind} (hop : OpOf kd' op)
    (hkd' : IsCollKind kd') :
    insertOp (.mk kd items) (Prod.map (List.cons k) id op) =
      (insertOp (.mk kd' []) op).map fun c' => .mk kd (items ++ [.child k c']) := by
  obtain ⟨g, kind, item, hg, hfresh⟩ := hop
  have hne := (GraphOp_eq hg).2.2
  simp only [insertOp, GraphOp_cons k hne, hg, Option.map_some, Option.bind_some]
  rw [Coll.insertAt_new_child hlast, hfresh, if_pos hkd']

theorem foldlM_insertOp_child (kd : NomsKind) (items : List (Item V)) (k : V) :
    ∀ (ops : List (LdbOp V)) (c : Coll V), (∀ op ∈ ops, op.1 ≠ []) →
      (ops.map (Prod.map (List.cons k) id)).foldlM insertOp (.mk kd (items ++ [.child k c])) =
        (ops.foldlM insertOp c).map fun c' => .mk kd (items ++ [.child k c'])
  | [], _, _ => rfl
  | op :: ops, c, h => by
    have hrest : ∀ o ∈ ops, o.1 ≠ [] := fun o ho => h o (List.mem_cons_of_mem _ ho)
    simp only [List.map_cons, List.foldlM_cons, insertOp_child kd items k c (h op List.mem_cons_self)]
    cases insertOp c op with
    | none => rfl
    | some c' => exact foldlM_insertOp_child kd items k ops c' hrest

/-- The entries of a new child, in a row, build the child and append it to the parent. -/
theorem foldlM_insertOp_new_child {kd : NomsKind} {items : List (Item V)} {k : V}
    (hlast : lastChild? items k = none) {kd' : NomsKind} (hkd' : IsCollKind kd') :
    ∀ (ops : List (LdbOp V)), ops ≠ [] → (∀ op ∈ ops, OpOf kd' op) →
      (ops.map (Prod.map (List.cons k) id)).foldlM insertOp (.mk kd items) =
        (ops.foldlM insertOp (.mk kd' [])).map fun c' => .mk kd (items ++ [.child k c'])
  | [], hne, _ => absurd rfl hne
  | op :: ops, _, hops => by
    have hrest : ∀ o ∈ ops, o.1 ≠ [] := fun o ho =>
      have ⟨_, _, _, hg, _⟩ := hops o (List.mem_cons_of_mem _ ho)
      (GraphOp_eq hg).2.2
    simp only [List.map_cons, List.foldlM_cons,
      insertOp_new_child hlast (hops op List.mem_cons_self) hkd']
    cases insertOp (.mk kd' []) op with
    | none => rfl
    | some c₁ => exact foldlM_insertOp_child kd items k ops c₁ hrest

/-- `Build`'s insertions over a well-formed tree's entries append the tree's items, when the
collection's last child is under none of the tree's keys. -/
theorem foldlM_insertOp_render {kind : NomsKind} {t : GraphTree V} (hwf : t.WF kind)
    (hk : IsCollKind kind) (items : List (Item V))
    (hitems : ∀ k c, lastChild? items k = some c → k ∉ t.keys) :
    (t.render kind).foldlM insertOp (.mk kind items) =
      some (.mk kind (items ++ t.toItems kind)) := by
  induction t generalizing kind items with
  | nil => simp [render, toItems]
  | leaf k v rest ih =>
    have hlast : ∀ k' c, lastChild? (items ++ [leafItem kind k v]) k' = some c → k' ∉ rest.keys :=
      fun k' c h => by
        rw [lastChild?_append_of_not_child _ (by unfold leafItem; split <;> rfl)] at h
        cases h
    simp only [render, List.foldlM_cons, insertOp_leaf hk, Option.bind_eq_bind, Option.bind_some,
      ih hwf.2 hk _ hlast, toItems, List.append_assoc, List.singleton_append]
  | sub k kd t rest iht ih =>
    obtain ⟨hmap, hkd, hne, hwft, habove, hwfr⟩ := hwf
    have hnone : lastChild? items k = none := by
      cases h : lastChild? items k with
      | none => rfl
      | some c => exact absurd (by simp [keys]) (hitems k c h)
    have hchild : ∀ k' c, lastChild? (items ++ [.child k (toColl kd t)]) k' = some c →
        k' ∉ rest.keys := fun k' c h hk' => by
      by_cases hkk : k = k'
      · subst hkk
        exact lt_irrefl k (habove k hk')
      · rw [lastChild?_append_of_ne _ hkk] at h
        cases h
    have ht : (t.render kd).foldlM insertOp (.mk kd []) = some (toColl kd t) := by
      rw [iht hwft hkd [] (fun k c h => by simp at h)]
      rfl
    rw [render, List.foldlM_append,
      foldlM_insertOp_new_child hnone hkd _ (render_ne_nil hwft hne) (render_opOf hwft hkd), ht]
    simp only [Option.map_some, Option.bind_eq_bind, Option.bind_some]
    rw [ih hwfr hk _ hchild]
    simp [toItems, toColl]

/-! ## `Put` in tree form -/

/-- A leaf under `k`, before the first greater key, replacing a leaf under `k`; a child under `k`
is a conflict. -/
def putLeaf (k v : V) : GraphTree V → Option (GraphTree V)
  | nil => some (leaf k v nil)
  | leaf k' v' rest =>
    if k < k' then some (leaf k v (leaf k' v' rest))
    else if k = k' then some (leaf k v rest)
    else (rest.putLeaf k v).map (leaf k' v')
  | sub k' kd t rest =>
    if k < k' then some (leaf k v (sub k' kd t rest))
    else if k = k' then none
    else (rest.putLeaf k v).map (sub k' kd t)

/-- The child a new path starts: maps down to a collection of kind `kind` holding one leaf. -/
def fresh (kind : NomsKind) (k v : V) : List V → NomsKind × GraphTree V
  | [] => (kind, leaf k v nil)
  | g :: gs => (.MapKind, sub g (fresh kind k v gs).1 (fresh kind k v gs).2 nil)

/-- Walk a collection's entries to the child under `g`: `f` acts on an existing child, `new` is
the child to add when there is none, and a leaf under `g` is a conflict. -/
def putSub (g : V) (f : NomsKind → GraphTree V → Option (GraphTree V))
    (new : NomsKind × GraphTree V) : GraphTree V → Option (GraphTree V)
  | nil => some (sub g new.1 new.2 nil)
  | leaf k' v' rest =>
    if g < k' then some (sub g new.1 new.2 (leaf k' v' rest))
    else if g = k' then none
    else (rest.putSub g f new).map (leaf k' v')
  | sub k' kd t rest =>
    if g < k' then some (sub g new.1 new.2 (sub k' kd t rest))
    else if g = k' then (f kd t).map (sub k' kd · rest)
    else (rest.putSub g f new).map (sub k' kd t)

/-- The `Put` of an operation of kind `opKind` under `path ++ [k]`, in a collection of kind
`kind`: every collection on the path is a map and the last has kind `opKind`. -/
def putOp : NomsKind → GraphTree V → List V → NomsKind → V → V → Option (GraphTree V)
  | kind, t, [], opKind, k, v => if kind = opKind then t.putLeaf k v else none
  | kind, t, g :: gs, opKind, k, v =>
    if kind = .MapKind then t.putSub g (fun kd t' => putOp kd t' gs opKind k v) (fresh opKind k v gs)
    else none

omit [LinearOrder V] in
theorem render_fresh (kind : NomsKind) (k v : V) (gs : List V) :
    (fresh kind k v gs).2.render (fresh kind k v gs).1 = [(gs ++ [k], kind, v)] := by
  induction gs with
  | nil => rfl
  | cons g gs ih => simp [fresh, render, ih]

theorem render_putLeaf {kind : NomsKind} {k v : V} {t t' : GraphTree V} (hwf : t.WF kind)
    (h : t.putLeaf k v = some t') : t'.render kind = SortedMap.put [k] (kind, v) (t.render kind) := by
  induction t generalizing t' with
  | nil =>
    cases h
    rfl
  | leaf k' v' rest ih =>
    simp only [putLeaf] at h
    split_ifs at h with hlt heq
    · cases h
      have : [k] < [k'] := List.cons_lt_cons_iff.mpr (.inl hlt)
      simp [render, SortedMap.put, this]
    · cases h
      subst heq
      simp [render, SortedMap.put_cons_of_eq]
    · obtain ⟨rest', hr, rfl⟩ := Option.map_eq_some_iff.mp h
      have hgt : [k'] < [k] := List.cons_lt_cons_iff.mpr (.inl (lt_of_le_of_ne (not_lt.mp hlt) (Ne.symm heq)))
      simp [render, SortedMap.put, not_lt_of_gt hgt, ne_of_gt hgt, ih hwf.2 hr]
  | sub k' kd t rest _ ih =>
    obtain ⟨-, -, -, -, habove, hwfr⟩ := hwf
    simp only [putLeaf] at h
    split_ifs at h with hlt heq
    · cases h
      have hall : ∀ op ∈ (sub k' kd t rest).render kind, [k] < op.1 :=
        lt_render_of_forall_lt (fun k'' hk'' => by
          simp only [keys, List.mem_cons] at hk''
          rcases hk'' with rfl | hk''
          · exact hlt
          · exact hlt.trans (habove k'' hk'')) []
      rw [SortedMap.put_of_forall_lt hall]
      rfl
    · obtain ⟨rest', hr, rfl⟩ := Option.map_eq_some_iff.mp h
      have hgt : k' < k := lt_of_le_of_ne (not_lt.mp hlt) (Ne.symm heq)
      have hblock : ∀ op ∈ (t.render kd).map (Prod.map (List.cons k') id), op.1 < [k] := by
        intro op hop
        obtain ⟨op', -, rfl⟩ := List.mem_map.mp hop
        exact List.cons_lt_cons_iff.mpr (.inl hgt)
      simp only [render]
      rw [SortedMap.put_append_of_forall_lt hblock, ih hwfr hr]

/-- The walk to the child under `g` puts under `g :: q` what `f` puts under `q`. -/
theorem render_putSub {kind : NomsKind} {g : V} {f : NomsKind → GraphTree V → Option (GraphTree V)}
    {new : NomsKind × GraphTree V} {q : List V} {x : NomsKind × V}
    (hf : ∀ kd t t', t.WF kd → f kd t = some t' → t'.render kd = SortedMap.put q x (t.render kd))
    (hnew : new.2.render new.1 = [(q, x)]) {t t' : GraphTree V} (hwf : t.WF kind)
    (h : t.putSub g f new = some t') : t'.render kind = SortedMap.put (g :: q) x (t.render kind) := by
  have hnew' : (new.2.render new.1).map (Prod.map (List.cons g) id) = [(g :: q, x)] := by
    simp [hnew]
  induction t generalizing t' with
  | nil =>
    cases h
    simp [render, hnew']
  | leaf k' v' rest ih =>
    simp only [putSub] at h
    split_ifs at h with hlt heq
    · cases h
      have : g :: q < [k'] := List.cons_lt_cons_iff.mpr (.inl hlt)
      simp [render, hnew', SortedMap.put, this]
    · obtain ⟨rest', hr, rfl⟩ := Option.map_eq_some_iff.mp h
      have hgt : [k'] < g :: q :=
        List.cons_lt_cons_iff.mpr (.inl (lt_of_le_of_ne (not_lt.mp hlt) (Ne.symm heq)))
      simp [render, SortedMap.put, not_lt_of_gt hgt, ne_of_gt hgt, ih hwf.2 hr]
  | sub k' kd t rest _ ih =>
    obtain ⟨-, -, -, hwft, habove, hwfr⟩ := hwf
    have hrest : ∀ op ∈ rest.render kind, k' :: q < op.1 := lt_render_of_forall_lt habove q
    simp only [putSub] at h
    split_ifs at h with hlt heq
    · cases h
      have hall : ∀ op ∈ (sub k' kd t rest).render kind, g :: q < op.1 :=
        lt_render_of_forall_lt (fun k'' hk'' => by
          simp only [keys, List.mem_cons] at hk''
          rcases hk'' with rfl | hk''
          · exact hlt
          · exact hlt.trans (habove k'' hk'')) q
      rw [SortedMap.put_of_forall_lt hall, render, hnew']
      rfl
    · -- the child under `g` takes the operation
      subst heq
      obtain ⟨t₁, ht₁, rfl⟩ := Option.map_eq_some_iff.mp h
      simp only [render]
      rw [SortedMap.put_append_of_lt_forall _ hrest, hf kd t t₁ hwft ht₁,
        SortedMap.put_map (SortedMap.strictMono_cons g)]
    · obtain ⟨rest', hr, rfl⟩ := Option.map_eq_some_iff.mp h
      have hgt : k' < g := lt_of_le_of_ne (not_lt.mp hlt) (Ne.symm heq)
      have hblock : ∀ op ∈ (t.render kd).map (Prod.map (List.cons k') id), op.1 < g :: q := by
        intro op hop
        obtain ⟨op', -, rfl⟩ := List.mem_map.mp hop
        exact List.cons_lt_cons_iff.mpr (.inl hgt)
      simp only [render]
      rw [SortedMap.put_append_of_forall_lt hblock, ih hwfr hr]

/-- The cache's `Put` of an operation is the tree's `putOp`, rendered. -/
theorem render_putOp {opKind : NomsKind} {k v : V} (path : List V) :
    ∀ {kind : NomsKind} {t t' : GraphTree V}, t.WF kind → t.putOp kind path opKind k v = some t' →
      t'.render kind = SortedMap.put (path ++ [k]) (opKind, v) (t.render kind) := by
  induction path with
  | nil =>
    intro kind t t' hwf h
    simp only [putOp] at h
    split_ifs at h with hk
    subst hk
    exact render_putLeaf hwf h
  | cons g gs ih =>
    intro kind t t' hwf h
    simp only [putOp] at h
    split_ifs at h with hk
    exact render_putSub (fun kd t₁ t₁' hwf₁ h₁ => ih hwf₁ h₁) (render_fresh opKind k v gs) hwf h

/-! ## `putOp` keeps the tree well-formed -/

theorem keys_putLeaf {k v : V} {t t' : GraphTree V} (h : t.putLeaf k v = some t') :
    ∀ x ∈ t'.keys, x = k ∨ x ∈ t.keys := by
  induction t generalizing t' with
  | nil =>
    cases h
    simp [keys]
  | leaf k' v' rest ih =>
    simp only [putLeaf] at h
    split_ifs at h with hlt heq
    · cases h
      intro x hx
      simpa [keys] using hx
    · cases h
      intro x hx
      simp only [keys, List.mem_cons] at hx ⊢
      tauto
    · obtain ⟨rest', hr, rfl⟩ := Option.map_eq_some_iff.mp h
      intro x hx
      simp only [keys, List.mem_cons] at hx ⊢
      rcases hx with rfl | hx
      · exact .inr (.inl rfl)
      · rcases ih hr x hx with h | h <;> tauto
  | sub k' kd t rest _ ih =>
    simp only [putLeaf] at h
    split_ifs at h with hlt heq
    · cases h
      intro x hx
      simpa [keys] using hx
    · obtain ⟨rest', hr, rfl⟩ := Option.map_eq_some_iff.mp h
      intro x hx
      simp only [keys, List.mem_cons] at hx ⊢
      rcases hx with rfl | hx
      · exact .inr (.inl rfl)
      · rcases ih hr x hx with h | h <;> tauto

theorem keys_putSub {g : V} {f : NomsKind → GraphTree V → Option (GraphTree V)}
    {new : NomsKind × GraphTree V} {t t' : GraphTree V} (h : t.putSub g f new = some t') :
    ∀ x ∈ t'.keys, x = g ∨ x ∈ t.keys := by
  induction t generalizing t' with
  | nil =>
    cases h
    simp [keys]
  | leaf k' v' rest ih =>
    simp only [putSub] at h
    split_ifs at h with hlt heq
    · cases h
      intro x hx
      simpa [keys] using hx
    · obtain ⟨rest', hr, rfl⟩ := Option.map_eq_some_iff.mp h
      intro x hx
      simp only [keys, List.mem_cons] at hx ⊢
      rcases hx with rfl | hx
      · exact .inr (.inl rfl)
      · rcases ih hr x hx with h | h <;> tauto
  | sub k' kd t rest _ ih =>
    simp only [putSub] at h
    split_ifs at h with hlt heq
    · cases h
      intro x hx
      simpa [keys] using hx
    · obtain ⟨t₁, -, rfl⟩ := Option.map_eq_some_iff.mp h
      intro x hx
      exact .inr (by simpa [keys] using hx)
    · obtain ⟨rest', hr, rfl⟩ := Option.map_eq_some_iff.mp h
      intro x hx
      simp only [keys, List.mem_cons] at hx ⊢
      rcases hx with rfl | hx
      · exact .inr (.inl rfl)
      · rcases ih hr x hx with h | h <;> tauto

/-- Keys above `k'` stay above it when a greater key is added. -/
theorem above_of_keys {k' k : V} {t t' : GraphTree V} (hlt : k' < k)
    (hkeys : ∀ x ∈ t'.keys, x = k ∨ x ∈ t.keys) (habove : ∀ x ∈ t.keys, k' < x) :
    ∀ x ∈ t'.keys, k' < x := fun x hx => by
  rcases hkeys x hx with rfl | hx
  · exact hlt
  · exact habove x hx

/-- A key below the first key of a well-formed tree is below all of them. -/
theorem above_cons {k k' : V} {t : GraphTree V} (hlt : k < k') (habove : ∀ x ∈ t.keys, k' < x) :
    ∀ x ∈ k' :: t.keys, k < x := fun x hx => by
  rcases List.mem_cons.mp hx with rfl | hx
  · exact hlt
  · exact hlt.trans (habove x hx)

theorem wf_putLeaf {kind : NomsKind} {k v : V} {t t' : GraphTree V} (hwf : t.WF kind)
    (h : t.putLeaf k v = some t') : t'.WF kind := by
  induction t generalizing t' with
  | nil =>
    cases h
    exact ⟨by simp [keys], trivial⟩
  | leaf k' v' rest ih =>
    obtain ⟨habove, hwfr⟩ := hwf
    simp only [putLeaf] at h
    split_ifs at h with hlt heq
    · cases h
      exact ⟨above_cons hlt habove, habove, hwfr⟩
    · cases h
      subst heq
      exact ⟨habove, hwfr⟩
    · obtain ⟨rest', hr, rfl⟩ := Option.map_eq_some_iff.mp h
      exact ⟨above_of_keys (lt_of_le_of_ne (not_lt.mp hlt) (Ne.symm heq)) (keys_putLeaf hr) habove,
        ih hwfr hr⟩
  | sub k' kd t rest _ ih =>
    obtain ⟨hmap, hkd, hne, hwft, habove, hwfr⟩ := hwf
    simp only [putLeaf] at h
    split_ifs at h with hlt heq
    · cases h
      exact ⟨above_cons hlt habove, hmap, hkd, hne, hwft, habove, hwfr⟩
    · obtain ⟨rest', hr, rfl⟩ := Option.map_eq_some_iff.mp h
      exact ⟨hmap, hkd, hne, hwft,
        above_of_keys (lt_of_le_of_ne (not_lt.mp hlt) (Ne.symm heq)) (keys_putLeaf hr) habove,
        ih hwfr hr⟩

/-- A child well-formed, non-empty and of a collection kind. -/
def GoodChild (kd : NomsKind) (t : GraphTree V) : Prop := IsCollKind kd ∧ t ≠ nil ∧ t.WF kd

theorem wf_putSub {kind : NomsKind} (hmap : kind = .MapKind) {g : V}
    {f : NomsKind → GraphTree V → Option (GraphTree V)} {new : NomsKind × GraphTree V}
    (hf : ∀ kd t₁ t₁', GoodChild kd t₁ → f kd t₁ = some t₁' → GoodChild kd t₁')
    (hnew : GoodChild new.1 new.2) {t t' : GraphTree V} (hwf : t.WF kind)
    (h : t.putSub g f new = some t') : t'.WF kind := by
  induction t generalizing t' with
  | nil =>
    cases h
    exact ⟨hmap, hnew.1, hnew.2.1, hnew.2.2, by simp [keys], trivial⟩
  | leaf k' v' rest ih =>
    obtain ⟨habove, hwfr⟩ := hwf
    simp only [putSub] at h
    split_ifs at h with hlt heq
    · cases h
      exact ⟨hmap, hnew.1, hnew.2.1, hnew.2.2, above_cons hlt habove, habove, hwfr⟩
    · obtain ⟨rest', hr, rfl⟩ := Option.map_eq_some_iff.mp h
      exact ⟨above_of_keys (lt_of_le_of_ne (not_lt.mp hlt) (Ne.symm heq)) (keys_putSub hr) habove,
        ih hwfr hr⟩
  | sub k' kd t rest _ ih =>
    obtain ⟨hmap', hkd, hne, hwft, habove, hwfr⟩ := hwf
    simp only [putSub] at h
    split_ifs at h with hlt heq
    · cases h
      exact ⟨hmap, hnew.1, hnew.2.1, hnew.2.2, above_cons hlt habove, hmap', hkd, hne, hwft,
        habove, hwfr⟩
    · obtain ⟨t₁, ht₁, rfl⟩ := Option.map_eq_some_iff.mp h
      obtain ⟨-, hne₁, hwf₁⟩ := hf kd t t₁ ⟨hkd, hne, hwft⟩ ht₁
      exact ⟨hmap', hkd, hne₁, hwf₁, habove, hwfr⟩
    · obtain ⟨rest', hr, rfl⟩ := Option.map_eq_some_iff.mp h
      exact ⟨hmap', hkd, hne, hwft,
        above_of_keys (lt_of_le_of_ne (not_lt.mp hlt) (Ne.symm heq)) (keys_putSub hr) habove,
        ih hwfr hr⟩

theorem goodChild_fresh {kind : NomsKind} (hk : IsCollKind kind) (k v : V) (gs : List V) :
    GoodChild (fresh kind k v gs).1 (fresh kind k v gs).2 := by
  induction gs with
  | nil => exact ⟨hk, nofun, nofun, trivial⟩
  | cons g gs ih =>
    exact ⟨Or.inl rfl, nofun, rfl, ih.1, ih.2.1, ih.2.2, by simp [keys], trivial⟩

theorem ne_nil_of_putLeaf {k v : V} {t t' : GraphTree V} (h : t.putLeaf k v = some t') :
    t' ≠ nil := by
  cases t with
  | nil => cases h; exact nofun
  | leaf k' v' rest =>
    simp only [putLeaf] at h
    split_ifs at h
    · cases h; exact nofun
    · cases h; exact nofun
    · obtain ⟨_, -, rfl⟩ := Option.map_eq_some_iff.mp h; exact nofun
  | sub k' kd t rest =>
    simp only [putLeaf] at h
    split_ifs at h
    · cases h; exact nofun
    · obtain ⟨_, -, rfl⟩ := Option.map_eq_some_iff.mp h; exact nofun

theorem ne_nil_of_putSub {g : V} {f : NomsKind → GraphTree V → Option (GraphTree V)}
    {new : NomsKind × GraphTree V} {t t' : GraphTree V} (h : t.putSub g f new = some t') :
    t' ≠ nil := by
  cases t with
  | nil => cases h; exact nofun
  | leaf k' v' rest =>
    simp only [putSub] at h
    split_ifs at h
    · cases h; exact nofun
    · obtain ⟨_, -, rfl⟩ := Option.map_eq_some_iff.mp h; exact nofun
  | sub k' kd t rest =>
    simp only [putSub] at h
    split_ifs at h
    · cases h; exact nofun
    · obtain ⟨_, -, rfl⟩ := Option.map_eq_some_iff.mp h; exact nofun
    · obtain ⟨_, -, rfl⟩ := Option.map_eq_some_iff.mp h; exact nofun

/-- `putOp` of an operation of a collection kind keeps a tree well-formed and non-empty. -/
theorem wf_putOp {opKind : NomsKind} (hop : IsCollKind opKind) {k v : V} (path : List V) :
    ∀ {kind : NomsKind} {t t' : GraphTree V}, t.WF kind → t.putOp kind path opKind k v = some t' →
      t'.WF kind ∧ t' ≠ nil := by
  induction path with
  | nil =>
    intro kind t t' hwf h
    simp only [putOp] at h
    split_ifs at h
    exact ⟨wf_putLeaf hwf h, ne_nil_of_putLeaf h⟩
  | cons g gs ih =>
    intro kind t t' hwf h
    simp only [putOp] at h
    split_ifs at h with hmap
    refine ⟨wf_putSub hmap (fun kd t₁ t₁' hgood h₁ => ?_) (goodChild_fresh hop k v gs) hwf h,
      ne_nil_of_putSub h⟩
    obtain ⟨hwf₁, hne₁⟩ := ih hgood.2.2 h₁
    exact ⟨hgood.1, hne₁, hwf₁⟩

/-! ## When `putOp` succeeds -/

/-- An entry agrees with an operation on `path` of kind `opKind`: neither path is a proper prefix
of the other, and on one path they have one kind. -/
def OpAgrees (path : List V) (opKind : NomsKind) (op : LdbOp V) : Prop :=
  (op.1.dropLast <+: path → op.1.dropLast = path) ∧ (path <+: op.1.dropLast → path = op.1.dropLast) ∧
    (op.1.dropLast = path → op.2.1 = opKind)

omit [LinearOrder V] in
theorem opAgrees_of_cons {g : V} {gs : List V} {opKind : NomsKind} {op : LdbOp V}
    (hne : op.1 ≠ []) (h : OpAgrees (g :: gs) opKind (Prod.map (List.cons g) id op)) :
    OpAgrees gs opKind op := by
  obtain ⟨a, p, hp⟩ := List.exists_cons_of_ne_nil hne
  have hd : (Prod.map (List.cons g) id op).1.dropLast = g :: op.1.dropLast := by
    simp [Prod.map, hp]
  obtain ⟨h₁, h₂, h₃⟩ := h
  rw [hd] at h₁ h₂ h₃
  refine ⟨fun hpre => ?_, fun hpre => ?_, fun heq => ?_⟩
  · exact List.cons_injective (h₁ (List.cons_prefix_cons.mpr ⟨rfl, hpre⟩))
  · exact List.cons_injective (h₂ (List.cons_prefix_cons.mpr ⟨rfl, hpre⟩))
  · exact h₃ (by rw [heq])

theorem putLeaf_isSome {kind opKind : NomsKind} {k v : V} {t : GraphTree V} (hwf : t.WF kind)
    (hagree : ∀ op ∈ t.render kind, OpAgrees [] opKind op) : (t.putLeaf k v).isSome := by
  induction t with
  | nil => rfl
  | leaf k' v' rest ih =>
    have ih' := ih hwf.2 fun op hop => hagree op (by simp [render, hop])
    simp only [putLeaf]
    split_ifs <;> simp [ih']
  | sub k' kd t rest _ ih =>
    obtain ⟨-, -, hne, hwft, -, hwfr⟩ := hwf
    have ih' := ih hwfr fun op hop => hagree op (by simp [render, hop])
    simp only [putLeaf]
    split_ifs with hlt heq
    · rfl
    · -- a child under `k`: its entries go through the collection the leaf is put in
      subst heq
      obtain ⟨op', hop'⟩ := List.exists_mem_of_ne_nil _ (render_ne_nil hwft hne)
      have hne' := ne_nil_of_mem_render hop'
      obtain ⟨-, h₂, -⟩ := hagree (Prod.map (List.cons k) id op')
        (List.mem_append_left _ (List.mem_map_of_mem hop'))
      obtain ⟨a, p, hp⟩ := List.exists_cons_of_ne_nil hne'
      have := h₂ List.nil_prefix
      simp [Prod.map, hp] at this
    · simp [ih']

/-- The walk to the child under `g` succeeds when no leaf is under `g` and `f` succeeds on the
child under `g`. -/
theorem putSub_isSome {kind : NomsKind} {g : V} {f : NomsKind → GraphTree V → Option (GraphTree V)}
    {new : NomsKind × GraphTree V} {P : LdbOp V → Prop} (hleaf : ∀ v, ¬ P ([g], kind, v))
    (hf : ∀ kd t₁, GoodChild kd t₁ → (∀ op ∈ t₁.render kd, P (Prod.map (List.cons g) id op)) →
      (f kd t₁).isSome)
    {t : GraphTree V} (hwf : t.WF kind) (hagree : ∀ op ∈ t.render kind, P op) :
    (t.putSub g f new).isSome := by
  induction t with
  | nil => rfl
  | leaf k' v' rest ih =>
    have ih' := ih hwf.2 fun op hop => hagree op (by simp [render, hop])
    simp only [putSub]
    split_ifs with hlt heq
    · rfl
    · subst heq
      exact absurd (hagree _ (by simp [render])) (hleaf v')
    · simp [ih']
  | sub k' kd t rest _ ih =>
    obtain ⟨-, hkd, hne, hwft, -, hwfr⟩ := hwf
    have ih' := ih hwfr fun op hop => hagree op (by simp [render, hop])
    simp only [putSub]
    split_ifs with hlt heq
    · rfl
    · subst heq
      have := hf kd t ⟨hkd, hne, hwft⟩ fun op hop =>
        hagree _ (List.mem_append_left _ (List.mem_map_of_mem hop))
      simp [this]
    · simp [ih']

/-- `putOp` succeeds when the root's kind fits the path and every entry agrees with the
operation. -/
theorem putOp_isSome {opKind : NomsKind} {k v : V} (path : List V) :
    ∀ {kind : NomsKind} {t : GraphTree V}, t.WF kind → (path = [] → kind = opKind) →
      (path ≠ [] → kind = .MapKind) → (∀ op ∈ t.render kind, OpAgrees path opKind op) →
      (t.putOp kind path opKind k v).isSome := by
  induction path with
  | nil =>
    intro kind t hwf hkind _ hagree
    simp only [putOp, if_pos (hkind rfl)]
    exact putLeaf_isSome hwf hagree
  | cons g gs ih =>
    intro kind t hwf _ hmap hagree
    simp only [putOp, if_pos (hmap (List.cons_ne_nil g gs))]
    refine putSub_isSome (fun v h => ?_) (fun kd t₁ hgood hagree₁ => ?_) hwf hagree
    · -- a leaf under `g`: its path `[]` is a proper prefix of `g :: gs`
      exact List.cons_ne_nil g gs (h.1 List.nil_prefix).symm
    · obtain ⟨hkd, hne, hwf₁⟩ := hgood
      have hagree' : ∀ op ∈ t₁.render kd, OpAgrees gs opKind op := fun op hop =>
        opAgrees_of_cons (ne_nil_of_mem_render hop) (hagree₁ op hop)
      -- the first entry of the child tells its kind
      obtain ⟨op', hop'⟩ := List.exists_mem_of_ne_nil _ (render_ne_nil hwf₁ hne)
      obtain ⟨g', kind', item, hg, hfresh⟩ := render_opOf hwf₁ hkd op' hop'
      obtain ⟨rfl, rfl, hne'⟩ := GraphOp_eq hg
      obtain ⟨h₁, h₂, h₃⟩ := hagree₁ op' hop'
      obtain ⟨a, p, hp⟩ := List.exists_cons_of_ne_nil hne'
      have hd : (Prod.map (List.cons g) id op').1.dropLast = g :: op'.1.dropLast := by
        simp [Prod.map, hp]
      rw [hd] at h₁ h₂ h₃
      refine ih hwf₁ (fun hgs => ?_) (fun hgs => ?_) hagree'
      · subst hgs
        by_cases hd' : op'.1.dropLast = []
        · rw [if_pos hd'] at hfresh
          rw [← hfresh]
          exact h₃ (by rw [hd'])
        · exact absurd (List.cons_injective (h₂ (List.cons_prefix_cons.mpr ⟨rfl, List.nil_prefix⟩))).symm hd'
      · by_cases hd' : op'.1.dropLast = []
        · rw [hd'] at h₁
          exact absurd (List.cons_injective (h₁ (List.cons_prefix_cons.mpr ⟨rfl, List.nil_prefix⟩))).symm hgs
        · rw [if_neg hd'] at hfresh
          exact hfresh.symm

end GraphTree

end Noms.Types
