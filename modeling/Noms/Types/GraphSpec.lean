import Noms.Types.GraphTree
import Mathlib

/-!
# What `GraphBuilder` builds

The intended value (`specRun`): start from an empty collection of the root's kind and apply the
calls in the order they were issued, each at its path: `Map.Set` (the last write to a key wins),
`Set.Insert` or `List.Append`, creating maps for the keys of the path that are not there yet. A
collection is its kind and its items in order: the items of a map or a set ascend by key, a list's
are in append order.

The op cache holds the rendering of a tree (`GraphTree`) whose collections are the intended ones
(`putOp_toColl`); a list's leaves are keyed by the append index, which only grows, so a new one
goes last (`ListBelow`). `Build` of the rendering gives the tree's collections back, so `Build`
returns the intended value (`Build_eq_specRun`) whenever the calls' graph paths do not conflict
(`PathsAgree`), each call has fewer than 255 graph keys, and `Number(idx)` grows with `idx`.
-/

namespace Noms.Types

open Noms.Lib

variable {V : Type}

/-! ## The intended value -/

/-- What a call does to the collection at its path. -/
inductive Update (V : Type) where
  | mapSet (k v : V)
  | setInsert (v : V)
  | listAppend (v : V)

def Update.kind : Update V → NomsKind
  | .mapSet .. => .MapKind
  | .setInsert _ => .SetKind
  | .listAppend _ => .ListKind

theorem Update.isCollKind_kind (u : Update V) : IsCollKind u.kind := by
  cases u
  · exact Or.inl rfl
  · exact Or.inr (Or.inl rfl)
  · exact Or.inr (Or.inr rfl)

/-- The leaf an update's operation stores: under the map key or the set element (any key for a
list), with the value. -/
def Update.Stores (key val : V) : Update V → Prop
  | .mapSet k v => key = k ∧ val = v
  | .setInsert x => key = x ∧ val = x
  | .listAppend x => val = x

/-- The key an item sorts under in a map or a set. -/
def Item.key : Item V → V
  | .value v => v
  | .entry k _ => k
  | .child k _ => k

variable [LinearOrder V]

/-- Insert-or-replace `item` under `key` among items in ascending key order; a collection under
the key is a conflict. -/
def putItem (key : V) (item : Item V) : List (Item V) → Option (List (Item V))
  | [] => some [item]
  | it :: rest =>
    if key < it.key then some (item :: it :: rest)
    else if key = it.key then (if it.isChild then none else some (item :: rest))
    else (putItem key item rest).map (it :: ·)

/-- Walk a map's items to the collection under `k`: `f` acts on it, `new` is the collection to add
when there is none, and a value under `k` is a conflict. -/
def descendItems (k : V) (f : Coll V → Option (Coll V)) (new : Option (Coll V)) :
    List (Item V) → Option (List (Item V))
  | [] => new.map fun c => [.child k c]
  | it :: rest =>
    if k < it.key then new.map fun c => .child k c :: it :: rest
    else if k = it.key then
      match it with
      | .child _ c => (f c).map fun c' => .child k c' :: rest
      | _ => none
    else (descendItems k f new rest).map (it :: ·)

namespace Coll

/-- `Map.Set`, `Set.Insert` or `List.Append` on a collection of the update's kind. -/
def update : Coll V → Update V → Option (Coll V)
  | .mk kind items, .mapSet k v =>
    if kind = .MapKind then (putItem k (.entry k v) items).map (.mk kind) else none
  | .mk kind items, .setInsert x =>
    if kind = .SetKind then (putItem x (.value x) items).map (.mk kind) else none
  | .mk kind items, .listAppend x =>
    if kind = .ListKind then some (.mk kind (items ++ [.value x])) else none

/-- The update at the collection under `path`, through maps, creating the missing ones. -/
def updateAt : Coll V → List V → Update V → Option (Coll V)
  | c, [], u => c.update u
  | .mk kind items, k :: ks, u =>
    if kind = .MapKind then
      (descendItems k (fun c => c.updateAt ks u)
        ((Coll.mk (if ks = [] then u.kind else .MapKind) []).updateAt ks u) items).map (.mk kind)
    else none

end Coll

namespace GraphCall

def keys : GraphCall V → List V
  | .MapSet keys _ _ => keys
  | .SetInsert keys _ => keys
  | .ListAppend keys _ => keys

def update : GraphCall V → Update V
  | .MapSet _ k v => .mapSet k v
  | .SetInsert _ v => .setInsert v
  | .ListAppend _ v => .listAppend v

end GraphCall

/-- The value the calls are meant to build: each applied in turn at its path, from an empty
collection of the root's kind. -/
def specRun (rootKind : NomsKind) (calls : List (GraphCall V)) : Option (Coll V) :=
  calls.foldlM (fun c call => c.updateAt call.keys call.update) (.mk rootKind [])

/-! ## The tree's collections are the intended ones -/

namespace GraphTree

/-- In the collections of kind `List`, every key is below `bound`. -/
def ListBelow (bound : V) (kind : NomsKind) : GraphTree V → Prop
  | nil => True
  | leaf k _ rest => (kind = .ListKind → k < bound) ∧ rest.ListBelow bound kind
  | sub k kd t rest => (kind = .ListKind → k < bound) ∧ t.ListBelow bound kd ∧ rest.ListBelow bound kind

theorem listBelow_mono {b b' : V} (hb : b ≤ b') {kind : NomsKind} {t : GraphTree V}
    (h : t.ListBelow b kind) : t.ListBelow b' kind := by
  induction t generalizing kind with
  | nil => trivial
  | leaf k v rest ih => exact ⟨fun hk => lt_of_lt_of_le (h.1 hk) hb, ih h.2⟩
  | sub k kd t rest iht ih => exact ⟨fun hk => lt_of_lt_of_le (h.1 hk) hb, iht h.2.1, ih h.2.2⟩

theorem keys_lt_of_listBelow {b : V} {t : GraphTree V} (h : t.ListBelow b .ListKind) :
    ∀ k ∈ t.keys, k < b := by
  induction t with
  | nil => simp [keys]
  | leaf k v rest ih =>
    intro x hx
    rcases List.mem_cons.mp hx with rfl | hx
    · exact h.1 rfl
    · exact ih h.2 x hx
  | sub k kd t rest _ ih =>
    intro x hx
    rcases List.mem_cons.mp hx with rfl | hx
    · exact h.1 rfl
    · exact ih h.2.2 x hx

theorem listBelow_putLeaf {b : V} {kind : NomsKind} {k v : V} (hk : kind = .ListKind → k < b)
    {t t' : GraphTree V} (h : t.ListBelow b kind) (hput : t.putLeaf k v = some t') :
    t'.ListBelow b kind := by
  induction t generalizing t' with
  | nil =>
    cases hput
    exact ⟨hk, trivial⟩
  | leaf k' v' rest ih =>
    simp only [putLeaf] at hput
    split_ifs at hput
    · cases hput
      exact ⟨hk, h⟩
    · cases hput
      exact ⟨hk, h.2⟩
    · obtain ⟨rest', hr, rfl⟩ := Option.map_eq_some_iff.mp hput
      exact ⟨h.1, ih h.2 hr⟩
  | sub k' kd t rest _ ih =>
    simp only [putLeaf] at hput
    split_ifs at hput
    · cases hput
      exact ⟨hk, h⟩
    · obtain ⟨rest', hr, rfl⟩ := Option.map_eq_some_iff.mp hput
      exact ⟨h.1, h.2.1, ih h.2.2 hr⟩

theorem listBelow_putSub {b : V} {kind : NomsKind} (hmap : kind = .MapKind) {g : V}
    {f : NomsKind → GraphTree V → Option (GraphTree V)} {new : NomsKind × GraphTree V}
    (hf : ∀ kd t₁ t₁', t₁.ListBelow b kd → f kd t₁ = some t₁' → t₁'.ListBelow b kd)
    (hnew : new.2.ListBelow b new.1) {t t' : GraphTree V} (h : t.ListBelow b kind)
    (hput : t.putSub g f new = some t') : t'.ListBelow b kind := by
  have hnl : kind = .ListKind → g < b := fun hl => absurd (hmap.symm.trans hl) (by decide)
  induction t generalizing t' with
  | nil =>
    cases hput
    exact ⟨hnl, hnew, trivial⟩
  | leaf k' v' rest ih =>
    simp only [putSub] at hput
    split_ifs at hput
    · cases hput
      exact ⟨hnl, hnew, h⟩
    · obtain ⟨rest', hr, rfl⟩ := Option.map_eq_some_iff.mp hput
      exact ⟨h.1, ih h.2 hr⟩
  | sub k' kd t rest _ ih =>
    simp only [putSub] at hput
    split_ifs at hput
    · cases hput
      exact ⟨hnl, hnew, h⟩
    · obtain ⟨t₁, ht₁, rfl⟩ := Option.map_eq_some_iff.mp hput
      exact ⟨h.1, hf kd t t₁ h.2.1 ht₁, h.2.2⟩
    · obtain ⟨rest', hr, rfl⟩ := Option.map_eq_some_iff.mp hput
      exact ⟨h.1, h.2.1, ih h.2.2 hr⟩

theorem listBelow_fresh {b : V} {opKind : NomsKind} {k v : V} (hk : opKind = .ListKind → k < b)
    (gs : List V) : (fresh opKind k v gs).2.ListBelow b (fresh opKind k v gs).1 := by
  induction gs with
  | nil => exact ⟨hk, trivial⟩
  | cons g gs ih => exact ⟨fun h => by simp [fresh] at h, ih, trivial⟩

/-- `putOp` keeps every list key below `b` when the key it adds to a list is. -/
theorem listBelow_putOp {b : V} {opKind : NomsKind} {k v : V} (hk : opKind = .ListKind → k < b)
    (path : List V) : ∀ {kind : NomsKind} {t t' : GraphTree V}, t.ListBelow b kind →
      t.putOp kind path opKind k v = some t' → t'.ListBelow b kind := by
  induction path with
  | nil =>
    intro kind t t' h hput
    simp only [putOp] at hput
    split_ifs at hput with hkind
    subst hkind
    exact listBelow_putLeaf hk h hput
  | cons g gs ih =>
    intro kind t t' h hput
    simp only [putOp] at hput
    split_ifs at hput with hmap
    exact listBelow_putSub hmap (fun kd t₁ t₁' h₁ hp₁ => ih h₁ hp₁) (listBelow_fresh hk gs) h hput

/-! ### The items of a map or a set -/

omit [LinearOrder V] in
theorem key_leafItem {kind : NomsKind} (hk : kind = .MapKind ∨ kind = .SetKind) (k v : V) :
    (leafItem kind k v).key = k := by
  rcases hk with rfl | rfl <;> rfl

omit [LinearOrder V] in
theorem isChild_leafItem (kind : NomsKind) (k v : V) : (leafItem kind k v).isChild = false := by
  unfold leafItem
  split <;> rfl

/-- In a map or a set, putting a leaf is putting its item. -/
theorem toItems_putLeaf {kind : NomsKind} (hk : kind = .MapKind ∨ kind = .SetKind) (k v : V)
    (t : GraphTree V) :
    (t.putLeaf k v).map (toItems kind) = putItem k (leafItem kind k v) (t.toItems kind) := by
  induction t with
  | nil => rfl
  | leaf k' v' rest ih =>
    by_cases hlt : k < k'
    · simp [putLeaf, putItem, toItems, key_leafItem hk, hlt]
    · by_cases heq : k = k'
      · subst heq
        simp [putLeaf, putItem, toItems, key_leafItem hk, isChild_leafItem]
      · simp only [putLeaf, putItem, toItems, key_leafItem hk, if_neg hlt, if_neg heq, ← ih]
        cases rest.putLeaf k v <;> rfl
  | sub k' kd t rest _ ih =>
    by_cases hlt : k < k'
    · simp [putLeaf, putItem, toItems, Item.key, hlt]
    · by_cases heq : k = k'
      · subst heq
        simp [putLeaf, putItem, toItems, Item.key, Item.isChild]
      · simp only [putLeaf, putItem, toItems, Item.key, if_neg hlt, if_neg heq, ← ih]
        cases rest.putLeaf k v <;> rfl

/-- In a list whose keys are all below `k`, putting a leaf under `k` appends its item. -/
theorem toItems_putLeaf_of_lt {kind : NomsKind} {k : V} (v : V) {t : GraphTree V}
    (h : ∀ k' ∈ t.keys, k' < k) :
    (t.putLeaf k v).map (toItems kind) = some (t.toItems kind ++ [leafItem kind k v]) := by
  induction t with
  | nil => rfl
  | leaf k' v' rest ih =>
    have hlt : k' < k := h k' List.mem_cons_self
    obtain ⟨r, hr, hitems⟩ := Option.map_eq_some_iff.mp (ih fun x hx => h x (List.mem_cons_of_mem _ hx))
    simp only [putLeaf, if_neg (not_lt_of_gt hlt), if_neg (ne_of_gt hlt), hr, Option.map_some,
      toItems, hitems, List.cons_append]
  | sub k' kd t rest _ ih =>
    have hlt : k' < k := h k' List.mem_cons_self
    obtain ⟨r, hr, hitems⟩ := Option.map_eq_some_iff.mp (ih fun x hx => h x (List.mem_cons_of_mem _ hx))
    simp only [putLeaf, if_neg (not_lt_of_gt hlt), if_neg (ne_of_gt hlt), hr, Option.map_some,
      toItems, hitems, List.cons_append]

/-- In a map, the walk to the child under `g` is the walk through the map's items. -/
theorem toItems_putSub {b : V} {c : Prop} {g : V} {F : NomsKind → GraphTree V → Option (GraphTree V)}
    {f : Coll V → Option (Coll V)} {new : NomsKind × GraphTree V}
    (hF : ∀ kd t₁, GoodChild kd t₁ → (c → t₁.ListBelow b kd) →
      (F kd t₁).map (toColl kd) = f (toColl kd t₁))
    {t : GraphTree V} (hwf : t.WF .MapKind) (hb : c → t.ListBelow b .MapKind) :
    (t.putSub g F new).map (toItems .MapKind) =
      descendItems g f (some (toColl new.1 new.2)) (t.toItems .MapKind) := by
  induction t with
  | nil => rfl
  | leaf k' v' rest ih =>
    have ih' := ih hwf.2 fun hc => (hb hc).2
    by_cases hlt : g < k'
    · simp [putSub, toItems, descendItems, key_leafItem (Or.inl rfl), hlt, toColl]
    · by_cases heq : g = k'
      · subst heq
        simp [putSub, toItems, descendItems, leafItem, Item.key]
      · simp only [putSub, toItems, descendItems, key_leafItem (Or.inl rfl), if_neg hlt,
          if_neg heq, ← ih']
        cases rest.putSub g F new <;> rfl
  | sub k' kd t rest _ ih =>
    have ih' := ih hwf.2.2.2.2.2 fun hc => (hb hc).2.2
    by_cases hlt : g < k'
    · simp [putSub, toItems, descendItems, Item.key, hlt, toColl]
    · by_cases heq : g = k'
      · subst heq
        have h := hF kd t ⟨hwf.2.1, hwf.2.2.1, hwf.2.2.2.1⟩ fun hc => (hb hc).2.1
        simp only [toColl] at h
        simp only [putSub, toItems, descendItems, Item.key, lt_irrefl, if_false, if_true, ← h]
        cases F kd t <;> rfl
      · simp only [putSub, toItems, descendItems, Item.key, if_neg hlt, if_neg heq, ← ih']
        cases rest.putSub g F new <;> rfl

/-- An update of an empty collection of its kind holds the stored leaf. -/
theorem update_empty {u : Update V} {key val : V} (hs : u.Stores key val) :
    (Coll.mk u.kind []).update u = some (.mk u.kind [leafItem u.kind key val]) := by
  cases u with
  | mapSet k v =>
    obtain ⟨rfl, rfl⟩ := hs
    rfl
  | setInsert x =>
    obtain ⟨rfl, rfl⟩ := hs
    rfl
  | listAppend x =>
    subst hs
    rfl

/-- A new path's child is what `updateAt` makes of the maps it creates down the path. -/
theorem updateAt_fresh {u : Update V} {key val : V} (hs : u.Stores key val) (gs : List V) :
    (Coll.mk (if gs = [] then u.kind else .MapKind) []).updateAt gs u =
      some (toColl (fresh u.kind key val gs).1 (fresh u.kind key val gs).2) := by
  induction gs with
  | nil => exact update_empty hs
  | cons g gs ih =>
    simp only [List.cons_ne_nil, if_false, Coll.updateAt, if_true, ih, descendItems]
    rfl

/-- `putOp` of an update's operation is the update of the tree's collection. -/
theorem putOp_toColl {u : Update V} {key val : V} (hs : u.Stores key val) (path : List V) :
    ∀ {kind : NomsKind} {t : GraphTree V}, t.WF kind →
      (u.kind = .ListKind → t.ListBelow key kind) →
      (t.putOp kind path u.kind key val).map (toColl kind) = (toColl kind t).updateAt path u := by
  induction path with
  | nil =>
    intro kind t hwf hb
    simp only [putOp, toColl, Coll.updateAt]
    cases u with
    | mapSet k v =>
      obtain ⟨rfl, rfl⟩ := hs
      by_cases hk : kind = .MapKind
      · subst hk
        simp only [Update.kind, if_true, Coll.update]
        rw [show (Item.entry key val) = leafItem .MapKind key val from rfl,
          ← toItems_putLeaf (Or.inl rfl), Option.map_map]
        rfl
      · simp [Update.kind, Coll.update, hk]
    | setInsert x =>
      obtain ⟨rfl, rfl⟩ := hs
      by_cases hk : kind = .SetKind
      · subst hk
        simp only [Update.kind, if_true, Coll.update]
        rw [show (Item.value val) = leafItem .SetKind val val from rfl,
          ← toItems_putLeaf (Or.inr rfl), Option.map_map]
        rfl
      · simp [Update.kind, Coll.update, hk]
    | listAppend x =>
      subst hs
      by_cases hk : kind = .ListKind
      · subst hk
        have hput : (t.putLeaf key val).map (toItems .ListKind) =
            some (t.toItems .ListKind ++ [leafItem .ListKind key val]) :=
          toItems_putLeaf_of_lt val (keys_lt_of_listBelow (hb rfl))
        obtain ⟨r, hr, hitems⟩ := Option.map_eq_some_iff.mp hput
        simp [Update.kind, hr, Coll.update, toColl, hitems, leafItem]
      · simp [Update.kind, Coll.update, hk]
  | cons g gs ih =>
    intro kind t hwf hb
    simp only [putOp, toColl, Coll.updateAt]
    by_cases hk : kind = .MapKind
    · subst hk
      have hF : ∀ kd t₁, GoodChild kd t₁ → (u.kind = .ListKind → t₁.ListBelow key kd) →
          (t₁.putOp kd gs u.kind key val).map (toColl kd) = (toColl kd t₁).updateAt gs u :=
        fun kd t₁ hgood hb₁ => ih hgood.2.2 hb₁
      rw [updateAt_fresh hs gs, ← toItems_putSub hF hwf hb, Option.map_map]
      rfl
    · simp [hk]

end GraphTree

/-! ## The calls on the op cache -/

namespace GraphCall

/-- The last key of the call's operation, `idx` being the list index an append draws. -/
def lastKey (number : Nat → V) (idx : Nat) : GraphCall V → V
  | .MapSet _ k _ => k
  | .SetInsert _ v => v
  | .ListAppend _ _ => number idx

def val : GraphCall V → V
  | .MapSet _ _ v => v
  | .SetInsert _ v => v
  | .ListAppend _ v => v

/-- `listIdx` after the call. -/
def nextIdx (idx : Nat) : GraphCall V → Nat
  | .ListAppend .. => idx + 1
  | _ => idx

omit [LinearOrder V] in
theorem stores (number : Nat → V) (idx : Nat) (c : GraphCall V) :
    c.update.Stores (c.lastKey number idx) c.val := by
  cases c <;> simp [update, lastKey, val, Update.Stores]

/-- Two calls whose graph paths do not conflict: the first's collection path is a proper prefix
of the other's only if equal (a path is never both a leaf collection and an intermediate map), and
on one path both act on one kind of collection. -/
def Agrees (c c' : GraphCall V) : Prop :=
  (c.keys <+: c'.keys → c.keys = c'.keys) ∧ (c.keys = c'.keys → c.update.kind = c'.update.kind)

instance (c c' : GraphCall V) : Decidable (c.Agrees c') := inferInstanceAs (Decidable (_ ∧ _))

end GraphCall

/-- The calls' graph paths do not conflict, and the root, of kind `rootKind`, is the collection of
the calls without graph keys and a map for the others. -/
structure PathsAgree (rootKind : NomsKind) (calls : List (GraphCall V)) : Prop where
  pairs : ∀ c ∈ calls, ∀ c' ∈ calls, c.Agrees c'
  root : ∀ c ∈ calls, (c.keys = [] → c.update.kind = rootKind) ∧ (c.keys ≠ [] → rootKind = .MapKind)

namespace GraphBuilder

/-- A call on a builder that is not built stores its operation: `Put` of its keys and its kind
and value, one more list index for an append. -/
theorem call_eq (number : Nat → V) {b : GraphBuilder V} {opc : OpCache V} (hoc : b.oc = some opc)
    (c : GraphCall V) (hlen : c.keys.length < 255) :
    b.call number c = some { b with oc := some ⟨SortedMap.put
      (c.keys ++ [c.lastKey number (opc.listIdx + 1)]) (c.update.kind, c.val) opc.ldb,
      c.nextIdx opc.listIdx⟩ } := by
  have hle : ¬ c.keys.length + 1 > 0xFF := by omega
  cases c <;> simp_all [call, MapSet, SetInsert, ListAppend, OpCache.GraphMapSet,
    OpCache.GraphSetInsert, OpCache.GraphListAppend, OpCache.insertLdbOp, GraphCall.keys,
    GraphCall.lastKey, GraphCall.update, GraphCall.val, GraphCall.nextIdx, Update.kind]

/-- `insertLdbOp` panics on more than 255 keys: a call with 255 graph keys or more. -/
theorem call_of_length (number : Nat → V) {b : GraphBuilder V} {opc : OpCache V}
    (hoc : b.oc = some opc) (c : GraphCall V) (hlen : 255 ≤ c.keys.length) : b.call number c = none := by
  have hgt : c.keys.length + 1 > 0xFF := by omega
  cases c <;> simp_all [call, MapSet, SetInsert, ListAppend, OpCache.GraphMapSet,
    OpCache.GraphSetInsert, OpCache.GraphListAppend, OpCache.insertLdbOp, GraphCall.keys]

end GraphBuilder

/-! ## Runs of calls -/

/-- The op cache holds the rendering of a well-formed tree, every list key below the next
append's. -/
structure CacheTree (number : Nat → V) (rootKind : NomsKind) (opc : OpCache V) (t : GraphTree V) :
    Prop where
  wf : t.WF rootKind
  ldb : opc.ldb = t.render rootKind
  below : t.ListBelow (number (opc.listIdx + 1)) rootKind

section Runs

variable {number : Nat → V} (hnum : StrictMono number) {rootKind : NomsKind}
include hnum

/-- One call keeps the cache a tree's rendering, and the tree's collection is updated as the
call intends. -/
theorem cacheTree_call {b : GraphBuilder V} {opc : OpCache V} (hoc : b.oc = some opc)
    {t : GraphTree V} (hc : CacheTree number rootKind opc t) (c : GraphCall V)
    (hlen : c.keys.length < 255) {t' : GraphTree V}
    (hput : t.putOp rootKind c.keys c.update.kind (c.lastKey number (opc.listIdx + 1)) c.val =
      some t') :
    ∃ b' opc', b.call number c = some b' ∧ b'.oc = some opc' ∧ b'.stack = b.stack ∧
      CacheTree number rootKind opc' t' ∧
      (t.toColl rootKind).updateAt c.keys c.update = some (t'.toColl rootKind) := by
  refine ⟨_, _, GraphBuilder.call_eq number hoc c hlen, rfl, rfl, ⟨?_, ?_, ?_⟩, ?_⟩
  · exact (GraphTree.wf_putOp c.update.isCollKind_kind c.keys hc.wf hput).1
  · rw [hc.ldb]
    exact (GraphTree.render_putOp c.keys hc.wf hput).symm
  · -- an append's key is below the next append's; the other calls add no list key
    have hstep : number (opc.listIdx + 1) ≤ number (c.nextIdx opc.listIdx + 1) := by
      cases c <;> simp [GraphCall.nextIdx, hnum.le_iff_le]
    refine GraphTree.listBelow_putOp (fun hl => ?_) c.keys (GraphTree.listBelow_mono hstep hc.below) hput
    cases c <;> simp_all [GraphCall.update, Update.kind, GraphCall.lastKey, GraphCall.nextIdx,
      hnum.lt_iff_lt]
  · have hb : c.update.kind = .ListKind →
        t.ListBelow (c.lastKey number (opc.listIdx + 1)) rootKind := by
      intro hl
      cases c <;> first | exact hc.below | simp [GraphCall.update, Update.kind] at hl
    rw [← GraphTree.putOp_toColl (c.stores number (opc.listIdx + 1)) c.keys hc.wf hb, hput]
    rfl

/-- Every entry of the cache was stored by one of `done`. -/
def FromCalls (done : List (GraphCall V)) (opc : OpCache V) : Prop :=
  ∀ e ∈ opc.ldb, ∃ c ∈ done, e.1.dropLast = c.keys ∧ e.2.1 = c.update.kind

/-- A run of calls whose paths agree with each other and with the ones before keeps the cache a
tree's rendering, and the tree's collection is the one the calls intend. -/
theorem calls_cacheTree : ∀ (calls done : List (GraphCall V)) {b : GraphBuilder V}
    {opc : OpCache V} {t : GraphTree V}, b.oc = some opc → CacheTree number rootKind opc t →
    FromCalls done opc → PathsAgree rootKind (done ++ calls) → (∀ c ∈ calls, c.keys.length < 255) →
    ∃ b' opc' t', b.calls number calls = some b' ∧ b'.oc = some opc' ∧ b'.stack = b.stack ∧
      CacheTree number rootKind opc' t' ∧
      calls.foldlM (fun c call => c.updateAt call.keys call.update) (t.toColl rootKind) =
        some (t'.toColl rootKind)
  | [], _, b, opc, t, hoc, hc, _, _, _ => ⟨b, opc, t, rfl, hoc, rfl, hc, rfl⟩
  | c :: calls, done, b, opc, t, hoc, hc, hfrom, hpaths, hlen => by
    have hmem : c ∈ done ++ c :: calls := by simp
    -- the call agrees with every entry stored so far, so its `putOp` succeeds
    have hagree : ∀ op ∈ t.render rootKind, GraphTree.OpAgrees c.keys c.update.kind op := by
      intro op hop
      rw [← hc.ldb] at hop
      obtain ⟨c', hc', hkeys, hkind⟩ := hfrom op hop
      have h₁ := hpaths.pairs c' (by simp [hc']) c hmem
      have h₂ := hpaths.pairs c hmem c' (by simp [hc'])
      refine ⟨fun h => ?_, fun h => ?_, fun h => ?_⟩
      · rw [hkeys] at h ⊢
        exact h₁.1 h
      · rw [hkeys] at h ⊢
        exact (h₂.1 h)
      · rw [hkind]
        rw [hkeys] at h
        exact h₁.2 h
    have hroot := hpaths.root c hmem
    have hsome : (t.putOp rootKind c.keys c.update.kind (c.lastKey number (opc.listIdx + 1))
        c.val).isSome :=
      GraphTree.putOp_isSome c.keys hc.wf (fun h => (hroot.1 h).symm) hroot.2 hagree
    obtain ⟨t₁, hput⟩ := Option.isSome_iff_exists.mp hsome
    have hlen₁ : c.keys.length < 255 := hlen c List.mem_cons_self
    obtain ⟨b₁, opc₁, hcall, hoc₁, hstack₁, hc₁, hspec₁⟩ := cacheTree_call hnum hoc hc c hlen₁ hput
    -- the new entry is the call's own
    have hfrom₁ : FromCalls (done ++ [c]) opc₁ := by
      rw [GraphBuilder.call_eq number hoc c hlen₁] at hcall
      cases hcall
      cases hoc₁
      intro e he
      rcases SortedMap.mem_put he with rfl | he
      · exact ⟨c, by simp, by simp, rfl⟩
      · obtain ⟨c', hc', h⟩ := hfrom e he
        exact ⟨c', by simp [hc'], h⟩
    have hpaths₁ : PathsAgree rootKind ((done ++ [c]) ++ calls) := by
      rw [List.append_assoc, List.singleton_append]
      exact hpaths
    obtain ⟨b', opc', t', hcalls, hoc', hstack', hc', hspec'⟩ := calls_cacheTree calls (done ++ [c])
      hoc₁ hc₁ hfrom₁ hpaths₁ fun c' h => hlen c' (List.mem_cons_of_mem _ h)
    refine ⟨b', opc', t', ?_, hoc', hstack'.trans hstack₁, hc', ?_⟩
    · simp only [GraphBuilder.calls, List.foldlM_cons, hcall, Option.bind_eq_bind, Option.bind_some]
      exact hcalls
    · simp only [List.foldlM_cons, hspec₁, Option.bind_eq_bind, Option.bind_some]
      exact hspec'

end Runs

/-- A map root with two map entries under one key (the second overwriting the first), a set and
a list appended to twice. -/
def sampleCalls : List (GraphCall Nat) :=
  [.MapSet [1] 2 3, .ListAppend [4] 7, .SetInsert [5, 6] 9, .ListAppend [4] 6, .MapSet [1] 2 8]

end Noms.Types
