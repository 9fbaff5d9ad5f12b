import Noms.Lib.SortedMap
import Mathlib.Logic.Relation
import Mathlib.Data.List.Sort

/-!
# Commits to a dataset (`database_common.go`, `commit.go`)

A database's one piece of mutable state is its root: the hash of the map from dataset IDs to
head commits. `doCommit(datasetID, commit, mergePolicy)` loops: it reads the root and its
datasets map (`getRootAndDatasets`), decides what to install as the dataset's head, and swaps
the root with `UpdateRoot(newRoot, currentRootHash)`, a compare-and-swap; if the root moved in
the meantime it starts over. The head it installs is the commit itself when the current head
is the most recent common ancestor of the two (`FindCommonAncestor`) and not the commit, else
a merge commit whose parents are the commit and the head, or it returns `ErrMergeNeeded`
without a merge policy. `doFastForward` checks the height of the new head against a `Dataset`
the caller holds and calls `doCommit` without a merge policy.

A commit is its parents and its value (`Commit`); a `Ref` to it is the commit itself, since
refs are equal exactly when the hashes of their targets are. A root is its datasets map. The
height a ref carries is a parameter. Each client is a `databaseCommon`: its cached root and
datasets map, and the `doCommit` call it is in, whose phases are the atomic steps of an
interleaving (`Action`): start, read the root, compute and swap, return.

`step_head`: in every step of every client, a dataset's head stays or moves to a commit of
which the old head is an ancestor. Nothing here rests on the heights being right:
`FindCommonAncestor` only ever returns a common ancestor (`FindCommonAncestor_sound`).
-/

namespace Noms.Datas

open Noms.Lib

/-- A commit: its parents and its value (`meta` is left out). -/
inductive Commit (V : Type)
  | mk (parents : List (Commit V)) (value : V)

namespace Commit

variable {V : Type}

/-- `c.Get(ParentsField)`. -/
def parents : Commit V → List (Commit V)
  | mk ps _ => ps

/-- `c.Get(ValueField)`. -/
def value : Commit V → V
  | mk _ v => v

section DecEq

variable [DecidableEq V]

mutual

/-- Equality of commits, which is equality of their hashes. -/
def decEq : (a b : Commit V) → Decidable (a = b)
  | mk ps v, mk qs w =>
    match decEqList ps qs, (inferInstance : Decidable (v = w)) with
    | isTrue hp, isTrue hv => isTrue (by subst hp; subst hv; rfl)
    | isFalse hp, _ => isFalse fun h => hp (by injection h)
    | _, isFalse hv => isFalse fun h => hv (by injection h)

/-- Equality of lists of commits. -/
def decEqList : (as bs : List (Commit V)) → Decidable (as = bs)
  | [], [] => isTrue rfl
  | [], b :: bs => isFalse (List.cons_ne_nil b bs).symm
  | a :: as, [] => isFalse (List.cons_ne_nil a as)
  | a :: as, b :: bs =>
    match decEq a b, decEqList as bs with
    | isTrue ha, isTrue hs => isTrue (by subst ha; subst hs; rfl)
    | isFalse ha, _ => isFalse fun h => ha (List.cons.inj h).1
    | _, isFalse hs => isFalse fun h => hs (List.cons.inj h).2

end

instance : DecidableEq (Commit V) := decEq

end DecEq

end Commit

variable {V : Type}

/-- `p` is a parent of `c`. -/
def HasParent (c p : Commit V) : Prop := p ∈ c.parents

/-- `a` is `c` or an ancestor of `c`. -/
def AncestorOrSelf (c a : Commit V) : Prop := Relation.ReflTransGen HasParent c a

/-- Every member of the queue `q` is `c` or an ancestor of `c`. -/
def Below (c : Commit V) (q : List (Commit V)) : Prop := ∀ r ∈ q, AncestorOrSelf c r

/-! ## `FindCommonAncestor` -/

section FindCommonAncestor

variable (height : Commit V → Nat)

/-- A `RefByHeight` after `sort.Sort`, the tallest first (Go keeps it at the end, `PeekEnd`). -/
def sortByHeight (q : List (Commit V)) : List (Commit V) :=
  q.insertionSort fun a b => height b ≤ height a

/-- `MaxHeight()`: the height of the zero `Ref` for an empty queue. -/
def maxHeight : List (Commit V) → Nat
  | [] => 0
  | r :: _ => height r

/-- `PopRefsOfHeight(h)`: the refs of height `h` at the top, and the rest of the queue. -/
def popRefsOfHeight (q : List (Commit V)) (h : Nat) : List (Commit V) × List (Commit V) :=
  (q.takeWhile fun r => height r = h, q.dropWhile fun r => height r = h)

/-- `parentsToQueue(refs, q)`: the parents of every popped commit join the queue. -/
def parentsToQueue (refs q : List (Commit V)) : List (Commit V) :=
  sortByHeight height (q ++ refs.flatMap Commit.parents)

variable [DecidableEq V]

/-- `findCommonRef(a, b)`: a ref of `a` that `b` holds too. Go scans a hash map, in no fixed
order; the model takes the first of `a`. -/
def findCommonRef (a b : List (Commit V)) : Option (Commit V) :=
  a.find? (· ∈ b)

/-- The loop of `FindCommonAncestor` for at most `fuel` turns: `some none` once a queue is
empty, `none` if the fuel runs out. -/
def findCommonAncestorLoop :
    Nat → List (Commit V) → List (Commit V) → Option (Option (Commit V))
  | 0, _, _ => none
  | fuel + 1, c1Q, c2Q =>
    if c1Q.isEmpty || c2Q.isEmpty then some none
    else
      let c1Ht := maxHeight height c1Q
      let c2Ht := maxHeight height c2Q
      if c1Ht = c2Ht then
        let c1 := popRefsOfHeight height c1Q c1Ht
        let c2 := popRefsOfHeight height c2Q c2Ht
        match findCommonRef c1.1 c2.1 with
        | some common => some (some common)
        | none =>
          findCommonAncestorLoop fuel (parentsToQueue height c1.1 c1.2)
            (parentsToQueue height c2.1 c2.2)
      else if c2Ht < c1Ht then
        let c1 := popRefsOfHeight height c1Q c1Ht
        findCommonAncestorLoop fuel (parentsToQueue height c1.1 c1.2) c2Q
      else
        let c2 := popRefsOfHeight height c2Q c2Ht
        findCommonAncestorLoop fuel c1Q (parentsToQueue height c2.1 c2.2)

/-- `FindCommonAncestor(c1, c2)`: the most recent common ancestor, `none` inside if there is
none. When a commit's parents are lower than it, every turn lowers the tallest height of a
queue, so the loop ends within `height c1 + height c2 + 1` turns. -/
def FindCommonAncestor (c1 c2 : Commit V) : Option (Option (Commit V)) :=
  findCommonAncestorLoop height (height c1 + height c2 + 1) [c1] [c2]

end FindCommonAncestor

/-! ## The queues hold ancestors only -/

section Sound

variable {height : Commit V → Nat} {c : Commit V}

theorem AncestorOrSelf.parent {a p : Commit V} (ha : AncestorOrSelf c a) (hp : p ∈ a.parents) :
    AncestorOrSelf c p :=
  Relation.ReflTransGen.tail ha hp

theorem AncestorOrSelf.trans {a b : Commit V} (hab : AncestorOrSelf c a)
    (hb : AncestorOrSelf a b) : AncestorOrSelf c b :=
  Relation.ReflTransGen.trans hab hb

theorem below_self (c : Commit V) : Below c [c] := by
  intro r hr
  rw [List.mem_singleton.mp hr]
  exact Relation.ReflTransGen.refl

theorem below_popRefsOfHeight (height : Commit V → Nat) {q : List (Commit V)} (hq : Below c q)
    (h : Nat) :
    Below c (popRefsOfHeight height q h).1 ∧ Below c (popRefsOfHeight height q h).2 :=
  ⟨fun r hr => hq r ((List.takeWhile_prefix _).subset hr),
    fun r hr => hq r ((List.dropWhile_suffix _).subset hr)⟩

theorem below_parentsToQueue {refs q : List (Commit V)} (hrefs : Below c refs)
    (hq : Below c q) : Below c (parentsToQueue height refs q) := by
  intro r hr
  rw [parentsToQueue, sortByHeight, (List.perm_insertionSort _ _).mem_iff, List.mem_append,
    List.mem_flatMap] at hr
  rcases hr with hr | ⟨a, ha, hp⟩
  · exact hq r hr
  · exact (hrefs a ha).parent hp

theorem findCommonRef_mem [DecidableEq V] {a b : List (Commit V)} {r : Commit V}
    (h : findCommonRef a b = some r) : r ∈ a ∧ r ∈ b :=
  ⟨List.mem_of_find?_eq_some h, by simpa using List.find?_some h⟩

variable [DecidableEq V]

/-- The loop returns only a commit both queues held: one of their starts' common ancestors,
whatever the heights. -/
theorem findCommonAncestorLoop_sound {c1 c2 : Commit V} :
    ∀ (fuel : Nat) (c1Q c2Q : List (Commit V)) {a : Commit V}, Below c1 c1Q → Below c2 c2Q →
      findCommonAncestorLoop height fuel c1Q c2Q = some (some a) →
      AncestorOrSelf c1 a ∧ AncestorOrSelf c2 a
  | 0, _, _, _, _, _, h => by simp [findCommonAncestorLoop] at h
  | fuel + 1, c1Q, c2Q, a, h1, h2, h => by
    simp only [findCommonAncestorLoop] at h
    split_ifs at h with hempty hht hlt
    · simp at h
    · -- equal heights: a common ref of the two popped levels, or one more turn
      have p1 := below_popRefsOfHeight height h1 (maxHeight height c1Q)
      have p2 := below_popRefsOfHeight height h2 (maxHeight height c1Q)
      rw [← hht] at h
      split at h
      · rename_i common hcommon
        obtain ⟨ha1, ha2⟩ := findCommonRef_mem hcommon
        cases h
        exact ⟨p1.1 _ ha1, p2.1 _ ha2⟩
      · exact findCommonAncestorLoop_sound fuel _ _ (below_parentsToQueue p1.1 p1.2)
          (below_parentsToQueue p2.1 p2.2) h
    · have p1 := below_popRefsOfHeight height h1 (maxHeight height c1Q)
      exact findCommonAncestorLoop_sound fuel _ _ (below_parentsToQueue p1.1 p1.2) h2 h
    · have p2 := below_popRefsOfHeight height h2 (maxHeight height c2Q)
      exact findCommonAncestorLoop_sound fuel _ _ h1 (below_parentsToQueue p2.1 p2.2) h

/-- `FindCommonAncestor` returns a common ancestor of its two commits, or none. -/
theorem FindCommonAncestor_sound {c1 c2 a : Commit V}
    (h : FindCommonAncestor height c1 c2 = some (some a)) :
    AncestorOrSelf c1 a ∧ AncestorOrSelf c2 a :=
  findCommonAncestorLoop_sound _ _ _ (below_self c1) (below_self c2) h

end Sound

/-! ## Clients of one database -/

/-- A database root: the datasets map, from dataset ID to head `Ref`, in key order. -/
abbrev DatasetsMap (ι V : Type) := List (ι × Commit V)

/-- The errors `doCommit` returns; `ErrOptimisticLockFailed` only restarts its loop. -/
inductive CommitError
  | ErrMergeNeeded
  | mergeConflict (msg : String)

/-- Where a `doCommit` call is. `read` holds what `getRootAndDatasets` returned: the root and
the datasets map, which is the root's when the root is not empty. -/
inductive Phase (ι V : Type)
  | start
  | read (currentRootHash : Option (DatasetsMap ι V)) (currentDatasets : DatasetsMap ι V)
      (consistent : ∀ m, currentRootHash = some m → currentDatasets = m)
  | done (err : Option CommitError)

/-- A `doCommit(datasetID, commit, mergePolicy)` call. A merge policy merges the commit's value,
the head's and the common ancestor's. -/
structure Call (ι V : Type) where
  datasetID : ι
  commit : Commit V
  mergePolicy : Option (V → V → V → Except String V)
  phase : Phase ι V

/-- A `databaseCommon`: its cached `rootHash` and `datasets` (`none` for `nil`), and its call. -/
structure Client (ι V : Type) where
  rootHash : Option (DatasetsMap ι V)
  datasets : Option (DatasetsMap ι V)
  call : Option (Call ι V)

/-- The root tracker, shared by the clients `ν`; `none` is the empty root hash. -/
structure World (ν ι V : Type) where
  root : Option (DatasetsMap ι V)
  clients : ν → Client ι V

namespace World

variable {ν ι : Type} [DecidableEq ν]

/-- The world with client `i` replaced. -/
def setClient (w : World ν ι V) (i : ν) (cl : Client ι V) : World ν ι V :=
  { w with clients := Function.update w.clients i cl }

/-- Client `i` in the call `call`. -/
def setCall (w : World ν ι V) (i : ν) (call : Call ι V) : World ν ι V :=
  w.setClient i { w.clients i with call := some call }

@[simp] theorem setClient_root (w : World ν ι V) (i : ν) (cl : Client ι V) :
    (w.setClient i cl).root = w.root := rfl

@[simp] theorem setCall_root (w : World ν ι V) (i : ν) (call : Call ι V) :
    (w.setCall i call).root = w.root := rfl

@[simp] theorem setCall_clients_self (w : World ν ι V) (i : ν) (call : Call ι V) :
    ((w.setCall i call).clients i).call = some call := by
  simp [setCall, setClient]

end World

variable {ν ι : Type} [LinearOrder ι] [DecidableEq V]

/-- `dbc.Datasets()`: the cached map, loaded on first use from `rootHash` (the empty map for
the empty root). -/
def Client.Datasets (cl : Client ι V) : DatasetsMap ι V × Client ι V :=
  match cl.datasets with
  | some d => (d, cl)
  | none => (cl.rootHash.getD [], { cl with datasets := some (cl.rootHash.getD []) })

/-- `getRootAndDatasets()` given `rt.Root()`: the datasets map, and the client with its cache. -/
def getRootAndDatasets (currentRootHash : Option (DatasetsMap ι V)) (cl : Client ι V) :
    DatasetsMap ι V × Client ι V :=
  match currentRootHash with
  -- `currentRootHash != currentDatasets.Hash() && !currentRootHash.IsEmpty()`: the root has
  -- been advanced, so the map is read from it
  | some m => if m ≠ cl.Datasets.1 then (m, cl.Datasets.2) else cl.Datasets
  | none => cl.Datasets

theorem getRootAndDatasets_consistent (root : Option (DatasetsMap ι V)) (cl : Client ι V) :
    ∀ m, root = some m → (getRootAndDatasets root cl).1 = m := by
  rintro m rfl
  simp only [getRootAndDatasets]
  split_ifs with hne
  · rfl
  · exact (not_not.mp hne).symm

/-- `NewCommit(merged, types.NewSet(commitRef, currentHeadRef), types.EmptyStruct)`; the set
holds one ref when the two are equal. -/
def mergeCommit (merged : V) (commitRef currentHeadRef : Commit V) : Commit V :=
  .mk (if commitRef = currentHeadRef then [commitRef] else [commitRef, currentHeadRef]) merged

variable (height : Commit V → Nat)

/-- The body of `doCommit`'s loop up to `tryUpdateRoot`: the ref it sets as the dataset's head,
or the error it returns; `none` when `FindCommonAncestor` does not return. -/
def commitTurn (call : Call ι V) (currentRootHash : Option (DatasetsMap ι V))
    (currentDatasets : DatasetsMap ι V) : Option (Except CommitError (Commit V)) :=
  match currentRootHash, currentDatasets.lookup call.datasetID with
  -- nothing in the DB yet, or the dataset's first commit: always fast-forward
  | none, _ | some _, none => some (.ok call.commit)
  | some _, some currentHeadRef =>
    (FindCommonAncestor height call.commit currentHeadRef).map fun
      | none => .error .ErrMergeNeeded
      | some ancestorRef =>
        -- the head is not an ancestor of the commit, or is the commit
        if currentHeadRef ≠ ancestorRef ∨ currentHeadRef = call.commit then
          match call.mergePolicy with
          | none => .error .ErrMergeNeeded
          | some mergePolicy =>
            match mergePolicy call.commit.value currentHeadRef.value ancestorRef.value with
            | .error msg => .error (.mergeConflict msg)
            | .ok merged => .ok (mergeCommit merged call.commit currentHeadRef)
        else .ok call.commit

theorem mem_mergeCommit_parents (merged : V) (commitRef currentHeadRef : Commit V) :
    commitRef ∈ (mergeCommit merged commitRef currentHeadRef).parents ∧
      currentHeadRef ∈ (mergeCommit merged commitRef currentHeadRef).parents := by
  by_cases h : commitRef = currentHeadRef
  · subst h
    simp [mergeCommit, Commit.parents]
  · simp [mergeCommit, Commit.parents, h]

/-- Over a head `h`, a turn installs the commit, of which `h` is an ancestor, or a merge commit
with the commit and `h` as parents. -/
theorem commitTurn_ok_of_head {call : Call ι V} {m D : DatasetsMap ι V} {h c' : Commit V}
    (hh : D.lookup call.datasetID = some h)
    (hc : commitTurn height call (some m) D = some (.ok c')) :
    AncestorOrSelf c' h ∧ (c' = call.commit ∨ (call.commit ∈ c'.parents ∧ h ∈ c'.parents)) := by
  simp only [commitTurn, hh, Option.map_eq_some_iff] at hc
  obtain ⟨found, hfind, hr⟩ := hc
  cases found with
  | none => cases hr
  | some ancestorRef =>
    simp only at hr
    split_ifs at hr with hmerge
    · -- the merge commit
      split at hr
      · cases hr
      · rename_i mergePolicy _
        cases hmerged : mergePolicy call.commit.value h.value ancestorRef.value with
        | error msg => simp [hmerged] at hr
        | ok merged =>
          simp only [hmerged, Except.ok.injEq] at hr
          subst hr
          have hp := mem_mergeCommit_parents merged call.commit h
          exact ⟨.single hp.2, .inr hp⟩
    · -- a fast-forward: the head is the common ancestor, so an ancestor of the commit
      cases hr
      have hanc : h = ancestorRef := by
        by_contra hne
        exact hmerge (.inl hne)
      subst hanc
      exact ⟨(FindCommonAncestor_sound hfind).1, .inl rfl⟩

/-- A turn installs the commit, or a merge commit with the commit and the head as parents. -/
theorem commitTurn_ok {call : Call ι V} {r : Option (DatasetsMap ι V)} {D : DatasetsMap ι V}
    {c' : Commit V} (hc : commitTurn height call r D = some (.ok c')) :
    c' = call.commit ∨
      (call.commit ∈ c'.parents ∧ ∀ h, D.lookup call.datasetID = some h → h ∈ c'.parents) := by
  cases r with
  | none =>
    simp only [commitTurn, Option.some.injEq, Except.ok.injEq] at hc
    exact .inl hc.symm
  | some m =>
    cases hl : D.lookup call.datasetID with
    | none =>
      simp only [commitTurn, hl, Option.some.injEq, Except.ok.injEq] at hc
      exact .inl hc.symm
    | some h =>
      rcases (commitTurn_ok_of_head height hl hc).2 with heq | ⟨hcm, hhm⟩
      · exact .inl heq
      · refine .inr ⟨hcm, fun h' hh' => ?_⟩
        cases hh'
        exact hhm

/-- What a client does next, in one atomic step. -/
inductive Action (ν ι V : Type)
  | commit (i : ν) (datasetID : ι) (commit : Commit V)
      (mergePolicy : Option (V → V → V → Except String V))
  | fastForward (i : ν) (datasetID : ι) (dsHeadRef : Option (Commit V)) (newHeadRef : Commit V)
  | read (i : ν)
  | attempt (i : ν)
  | finish (i : ν)

namespace World

variable [DecidableEq ν]

/-- The head of a dataset. -/
def head (w : World ν ι V) (datasetID : ι) : Option (Commit V) :=
  w.root.bind fun m => m.lookup datasetID

/-- One step; `none` when the action is not the client's next. -/
def step (w : World ν ι V) : Action ν ι V → Option (World ν ι V)
  | .commit i datasetID commit mergePolicy =>
    match (w.clients i).call with
    | some _ => none
    | none => some (w.setCall i ⟨datasetID, commit, mergePolicy, .start⟩)
  | .fastForward i datasetID dsHeadRef newHeadRef =>
    match (w.clients i).call with
    | some _ => none
    | none =>
      -- `doFastForward`'s two early returns change nothing
      if dsHeadRef = some newHeadRef then some w
      else if height newHeadRef ≤ (dsHeadRef.map height).getD 0 then some w
      else some (w.setCall i ⟨datasetID, newHeadRef, none, .start⟩)
  | .read i =>
    match (w.clients i).call with
    | some ⟨datasetID, commit, mergePolicy, .start⟩ =>
      let r := getRootAndDatasets w.root (w.clients i)
      some ((w.setClient i r.2).setCall i ⟨datasetID, commit, mergePolicy,
        .read w.root r.1 (getRootAndDatasets_consistent w.root (w.clients i))⟩)
    | _ => none
  | .attempt i =>
    match (w.clients i).call with
    | some ⟨datasetID, commit, mergePolicy, .read currentRootHash currentDatasets _⟩ =>
      match commitTurn height ⟨datasetID, commit, mergePolicy, .start⟩ currentRootHash
          currentDatasets with
      | none => none
      | some (.error e) => some (w.setCall i ⟨datasetID, commit, mergePolicy, .done (some e)⟩)
      | some (.ok commitRef) =>
        -- `tryUpdateRoot`: `UpdateRoot` swaps the root only if it is still the one read
        if w.root = currentRootHash then
          some ({ w with root := some (SortedMap.put datasetID commitRef currentDatasets) }.setCall
            i ⟨datasetID, commit, mergePolicy, .done none⟩)
        else some (w.setCall i ⟨datasetID, commit, mergePolicy, .start⟩)
    | _ => none
  | .finish i =>
    match (w.clients i).call with
    -- the deferred `dbc.rootHash, dbc.datasets = dbc.rt.Root(), nil`
    | some ⟨_, _, _, .done _⟩ => some (w.setClient i ⟨w.root, none, none⟩)
    | _ => none

/-- A step leaves the root, or swaps in what a client's turn computed from the root it read,
which is still the root, and that root's datasets map. -/
theorem step_root {w w' : World ν ι V} {a : Action ν ι V} (hs : w.step height a = some w') :
    w'.root = w.root ∨ ∃ (call : Call ι V) (D : DatasetsMap ι V) (c' : Commit V),
      (∀ m, w.root = some m → D = m) ∧ commitTurn height call w.root D = some (.ok c') ∧
      w'.root = some (SortedMap.put call.datasetID c' D) := by
  cases a with
  | commit i datasetID commit mergePolicy =>
    simp only [step] at hs
    split at hs
    · cases hs
    · cases hs; simp
  | fastForward i datasetID dsHeadRef newHeadRef =>
    simp only [step] at hs
    split at hs
    · cases hs
    · split_ifs at hs <;> cases hs <;> simp
  | read i =>
    simp only [step] at hs
    split at hs
    · cases hs; simp
    · cases hs
  | attempt i =>
    simp only [step] at hs
    split at hs
    · rename_i datasetID commit mergePolicy r D hcons _
      split at hs
      · cases hs
      · cases hs; simp
      · rename_i c' hturn
        split_ifs at hs with hroot
        · -- the swap
          cases hs
          subst hroot
          exact .inr ⟨⟨datasetID, commit, mergePolicy, .start⟩, D, c', hcons, hturn, rfl⟩
        · cases hs; simp
    · cases hs
  | finish i =>
    simp only [step] at hs
    split at hs
    · cases hs; simp
    · cases hs

/-- In every step of every client, a dataset's head stays, or moves to a commit of which the
old head is an ancestor. -/
theorem step_head {w w' : World ν ι V} {a : Action ν ι V} (hs : w.step height a = some w')
    {datasetID : ι} {h : Commit V} (hh : w.head datasetID = some h) :
    ∃ h', w'.head datasetID = some h' ∧ AncestorOrSelf h' h := by
  rcases step_root height hs with hroot | ⟨call, D, c', hcons, hturn, hroot'⟩
  · exact ⟨h, by rw [head, hroot]; exact hh, .refl⟩
  · obtain ⟨m, hm, hlook⟩ := Option.bind_eq_some_iff.mp hh
    obtain rfl : D = m := hcons m hm
    rw [hm] at hturn
    by_cases hid : datasetID = call.datasetID
    · subst hid
      exact ⟨c', by simp [head, hroot', SortedMap.lookup_put_self],
        (commitTurn_ok_of_head height hlook hturn).1⟩
    · exact ⟨h, by simp [head, hroot', SortedMap.lookup_put_of_ne hid, hlook], .refl⟩

/-- A call's turn that returns `nil` has swapped in its commit, or a merge commit whose parents
are its commit and the head it replaced. -/
theorem attempt_installs {w w' : World ν ι V} {i : ν} {call : Call ι V}
    (hcall : (w.clients i).call = some call) (hs : w.step height (.attempt i) = some w')
    (hnil : ((w'.clients i).call).map Call.phase = some (.done none)) :
    ∃ c', w'.head call.datasetID = some c' ∧
      (c' = call.commit ∨
        (call.commit ∈ c'.parents ∧ ∀ h, w.head call.datasetID = some h → h ∈ c'.parents)) := by
  obtain ⟨datasetID, commit, mergePolicy, phase⟩ := call
  cases phase with
  | start => simp [step, hcall] at hs
  | done err => simp [step, hcall] at hs
  | read r D hcons =>
    simp only [step, hcall] at hs
    split at hs
    · cases hs
    · -- an error is returned, not `nil`
      cases hs
      simp at hnil
    · rename_i c' hturn
      split_ifs at hs with hroot
      · cases hs
        refine ⟨c', by simp [head, SortedMap.lookup_put_self], ?_⟩
        rcases commitTurn_ok height hturn with heq | ⟨hcm, hhm⟩
        · exact .inl heq
        · refine .inr ⟨hcm, fun h hh => hhm h ?_⟩
          obtain ⟨m, hm, hlook⟩ := Option.bind_eq_some_iff.mp hh
          rw [hcons m (hroot ▸ hm)]
          exact hlook
      · -- the swap failed: the loop starts over
        cases hs
        simp at hnil

/-- Heads only move forward under `doCommit` and `doFastForward`, in every interleaving of any
number of clients: in each step a dataset's head stays or moves to a commit of which the old
head is an ancestor, and a call whose turn returns `nil` has installed its commit, or a merge
commit with its commit and the replaced head as parents. -/
theorem commit_heads_move_forward :
    (∀ (w w' : World ν ι V) (a : Action ν ι V), w.step height a = some w' →
      ∀ datasetID h, w.head datasetID = some h →
        ∃ h', w'.head datasetID = some h' ∧ AncestorOrSelf h' h) ∧
    (∀ (w w' : World ν ι V) (i : ν) (call : Call ι V), (w.clients i).call = some call →
      w.step height (.attempt i) = some w' →
      ((w'.clients i).call).map Call.phase = some (.done none) →
      ∃ c', w'.head call.datasetID = some c' ∧
        (c' = call.commit ∨
          (call.commit ∈ c'.parents ∧ ∀ h, w.head call.datasetID = some h → h ∈ c'.parents))) :=
  ⟨fun _ _ _ hs _ _ hh => step_head height hs hh,
    fun _ _ _ _ hcall hs hnil => attempt_installs height hcall hs hnil⟩

/-- One step of some client. -/
def Step (w w' : World ν ι V) : Prop := ∃ a, w.step height a = some w'

end World

/-- A database whose dataset `0` has the head `Commit.mk [] 0`, with one idle client. -/
def sampleWorld : World Unit Nat Nat := ⟨some [(0, .mk [] 0)], fun _ => ⟨none, none, none⟩⟩

end Noms.Datas
