import Noms.Types.GraphBuilder

/-!
# `Build`'s stack is the rightmost spine of a collection

The stack of open collections stands for one collection (`stackColl`): each element takes the
collection above it as its last child, under the upper element's key (`plug`), which is exactly
what popping everything does. In those terms one turn of `Build` appends the operation's item at
the end of the collection at its path, descending through the last child wherever the last child
carries the next key and starting a new child wherever it does not (`Coll.insertAt`). Pops do not
change the collection the stack stands for; `commonPrefixCount` stops at the first key where the
path leaves the stack's, and there the top's last child, just popped, has another key.

The one thing to keep between turns (`StackOk`) is that the top's last item is not a child: a
child only gets there by a pop, and every turn ends by appending the operation's item, which
`GraphOp` never makes a child. So for any sequence of operations, sorted or not, `Build` is
`insertAt` folded over them from the empty root (`Build_eq_foldlM`).
-/

namespace Noms.Types

variable {V : Type}

/-! ## Rightmost insertion -/

/-- The kinds `pushNewKeyOnStack` accepts. -/
def IsCollKind (kind : NomsKind) : Prop := kind = .MapKind ∨ kind = .SetKind ∨ kind = .ListKind

instance (kind : NomsKind) : Decidable (IsCollKind kind) := inferInstanceAs (Decidable (_ ∨ _))

theorem pushNewKeyOnStack_of_coll {kind : NomsKind} (h : IsCollKind kind)
    (stack : List (GraphStackElem V)) (key : V) :
    pushNewKeyOnStack stack key kind = some (⟨key, kind, []⟩ :: stack) := by
  rcases h with rfl | rfl | rfl <;> rfl

theorem pushNewKeyOnStack_of_not_coll {kind : NomsKind} (h : ¬ IsCollKind kind)
    (stack : List (GraphStackElem V)) (key : V) : pushNewKeyOnStack stack key kind = none := by
  cases kind <;> simp_all [IsCollKind, pushNewKeyOnStack]

def Item.isChild : Item V → Bool
  | .child _ _ => true
  | _ => false

theorem GraphOp_not_child [LinearOrder V] {op : LdbOp V} {keys : List V} {kind : NomsKind}
    {item : Item V} (h : GraphOp op = some (keys, kind, item)) : item.isChild = false := by
  unfold GraphOp at h
  split at h <;> simp only [Option.some.injEq, Prod.mk.injEq, reduceCtorEq] at h
  all_goals (obtain ⟨-, -, rfl⟩ := h; rfl)

variable [LinearOrder V]

/-- The last item, when it is a child under `k`. -/
def lastChild? (items : List (Item V)) (k : V) : Option (Coll V) :=
  match items.getLast? with
  | some (.child k' c) => if k' = k then some c else none
  | _ => none

@[simp] theorem lastChild?_nil (k : V) : lastChild? ([] : List (Item V)) k = none := rfl

@[simp] theorem lastChild?_append_child (items : List (Item V)) (k : V) (c : Coll V) :
    lastChild? (items ++ [.child k c]) k = some c := by
  simp [lastChild?]

theorem lastChild?_append_of_ne (items : List (Item V)) {k k' : V} (h : k ≠ k') (c : Coll V) :
    lastChild? (items ++ [.child k c]) k' = none := by
  simp [lastChild?, h]

theorem lastChild?_append_of_not_child (items : List (Item V)) {item : Item V}
    (h : item.isChild = false) (k : V) : lastChild? (items ++ [item]) k = none := by
  cases item <;> simp_all [lastChild?, Item.isChild]

namespace Coll

/-- Append `item` at the end of the collection at path `keys`, along the last children: the last
child under the next key is entered, and otherwise a new child is started, a map for an
intermediate key and a collection of the item's kind for the last. -/
def insertAt : Coll V → List V → NomsKind → Item V → Option (Coll V)
  | .mk kd items, [], kind, item => if kd ≠ kind then none else some (.mk kd (items ++ [item]))
  | .mk kd items, k :: ks, kind, item =>
    match lastChild? items k with
    | some c => (insertAt c ks kind item).map fun c' => .mk kd (items.dropLast ++ [.child k c'])
    | none =>
      let kind' := if ks = [] then kind else .MapKind
      if IsCollKind kind' then
        (insertAt (.mk kind' []) ks kind item).map fun c' => .mk kd (items ++ [.child k c'])
      else none

theorem insertAt_append_child (kd : NomsKind) (items : List (Item V)) (k : V) (c : Coll V)
    (ks : List V) (kind : NomsKind) (item : Item V) :
    (Coll.mk kd (items ++ [.child k c])).insertAt (k :: ks) kind item =
      (c.insertAt ks kind item).map fun c' => .mk kd (items ++ [.child k c']) := by
  simp [insertAt]

theorem insertAt_new_child {kd : NomsKind} {items : List (Item V)} {k : V}
    (h : lastChild? items k = none) (ks : List V) (kind : NomsKind) (item : Item V) :
    (Coll.mk kd items).insertAt (k :: ks) kind item =
      if IsCollKind (if ks = [] then kind else .MapKind) then
        ((Coll.mk (if ks = [] then kind else .MapKind) []).insertAt ks kind item).map
          fun c' => .mk kd (items ++ [.child k c'])
      else none := by
  simp only [insertAt, h]

end Coll

/-- One operation of the cache appended where its path says. -/
def insertOp (c : Coll V) (op : LdbOp V) : Option (Coll V) :=
  (GraphOp op).bind fun (keys, kind, item) => c.insertAt keys kind item

/-! ## The collection a stack stands for -/

/-- The stack `below`, with `c` on top under `key`: each element takes the collection above it as
its last child. -/
def plug (c : Coll V) (key : V) : List (GraphStackElem V) → Coll V
  | [] => c
  | p :: rest => plug (.mk p.kind (p.ch ++ [.child key c])) p.key rest

/-- The path from the root to the top of `below` with `key` on top. -/
def plugKeys (key : V) : List (GraphStackElem V) → List V
  | [] => []
  | p :: rest => plugKeys p.key rest ++ [key]

/-- The collection a stack stands for: everything popped into the root. -/
def stackColl : List (GraphStackElem V) → Option (Coll V)
  | [] => none
  | top :: below => some (plug top.done top.key below)

/-- Between two turns the top's last item is not a child. -/
def StackOk : List (GraphStackElem V) → Prop
  | [] => False
  | top :: _ => ∀ k, lastChild? top.ch k = none

omit [LinearOrder V] in
theorem length_plugKeys (key : V) (below : List (GraphStackElem V)) :
    (plugKeys key below).length = below.length := by
  induction below generalizing key with
  | nil => rfl
  | cons p rest ih => simp [plugKeys, ih]

omit [LinearOrder V] in
/-- `commonPrefixCount` reads the stack's path. -/
theorem stack_keys_eq_plugKeys (top : GraphStackElem V) (below : List (GraphStackElem V)) :
    ((top :: below).reverse.drop 1).map GraphStackElem.key = plugKeys top.key below := by
  induction below generalizing top with
  | nil => rfl
  | cons p rest ih =>
    have hne : 1 ≤ (p :: rest).reverse.length := by simp
    rw [List.reverse_cons, List.drop_append_of_le_length hne, List.map_append, ih]
    rfl

/-- Descending along the stack's path reaches its top collection. -/
theorem insertAt_plug (c : Coll V) (key : V) (below : List (GraphStackElem V)) (ks : List V)
    (kind : NomsKind) (item : Item V) :
    (plug c key below).insertAt (plugKeys key below ++ ks) kind item =
      (c.insertAt ks kind item).map (plug · key below) := by
  induction below generalizing c key ks with
  | nil => simp [plug, plugKeys]
  | cons p rest ih =>
    simp only [plug, plugKeys, List.append_assoc, List.singleton_append]
    rw [ih, Coll.insertAt_append_child, Option.map_map]
    rfl

/-! ## Pops, appends and pushes -/

/-- Popping `n + 1` elements leaves the collection as it was; the new top ends with the child
just popped, under the first key of the path cut off. -/
theorem popKeys_succ (n : Nat) (top : GraphStackElem V) (below : List (GraphStackElem V))
    (hn : n + 1 ≤ below.length) :
    ∃ t' below' a c more, popKeys (n + 1) (top :: below) = some (t' :: below') ∧
      plug t'.done t'.key below' = plug top.done top.key below ∧
      plugKeys top.key below = plugKeys t'.key below' ++ a :: more ∧ more.length = n ∧
      lastChild? t'.ch a = some c := by
  induction n generalizing top below with
  | zero =>
    obtain ⟨p, rest, rfl⟩ := List.exists_cons_of_length_pos hn
    exact ⟨_, rest, top.key, top.done, [], rfl, rfl, rfl, rfl, lastChild?_append_child _ _ _⟩
  | succ n ih =>
    obtain ⟨p, rest, rfl⟩ := List.exists_cons_of_length_pos (show 0 < below.length by omega)
    obtain ⟨t', below', a, c, more, hpop, hplug, hkeys, hlen, hlast⟩ :=
      ih { p with ch := p.ch ++ [.child top.key top.done] } rest
        (by simp only [List.length_cons] at hn; omega)
    refine ⟨t', below', a, c, more ++ [top.key], hpop, hplug, ?_, by simp [hlen], hlast⟩
    simp only [plugKeys] at hkeys ⊢
    rw [hkeys]
    simp

omit [LinearOrder V] in
/-- Popping everything above the root leaves the root holding the stack's collection. -/
theorem popKeys_all (top : GraphStackElem V) (below : List (GraphStackElem V)) :
    ∃ root, popKeys below.length (top :: below) = some [root] ∧
      root.done = plug top.done top.key below := by
  induction below generalizing top with
  | nil => exact ⟨top, rfl, rfl⟩
  | cons p rest ih => exact ih { p with ch := p.ch ++ [.child top.key top.done] }

theorem appendItem_stackColl (top : GraphStackElem V) (below : List (GraphStackElem V))
    (kind : NomsKind) (item : Item V) :
    (appendItemToCurrentTopOfStack (top :: below) kind item).bind stackColl =
      (top.done.insertAt [] kind item).map (plug · top.key below) := by
  by_cases h : top.kind = kind <;> simp [appendItemToCurrentTopOfStack, h, stackColl,
    GraphStackElem.done, Coll.insertAt]

theorem appendItem_stackOk {top : GraphStackElem V} {below : List (GraphStackElem V)}
    {kind : NomsKind} {item : Item V} (hitem : item.isChild = false)
    {stack : List (GraphStackElem V)}
    (h : appendItemToCurrentTopOfStack (top :: below) kind item = some stack) : StackOk stack := by
  by_cases hk : top.kind = kind <;> simp only [appendItemToCurrentTopOfStack, hk, ne_eq,
    not_true_eq_false, not_false_eq_true, if_true, if_false, reduceCtorEq,
    Option.some.injEq] at h
  subst h
  exact lastChild?_append_of_not_child _ hitem

/-- Pushing the rest of a path onto a top whose last child is not under its first key starts the
same new children that `insertAt` starts. -/
theorem pushKeys_stackColl {kind : NomsKind} {item : Item V} (ks : List V) :
    ∀ (k : V) (top : GraphStackElem V) (below : List (GraphStackElem V)),
      lastChild? top.ch k = none →
      (pushKeys kind item (top :: below) (k :: ks)).bind stackColl =
        (top.done.insertAt (k :: ks) kind item).map (plug · top.key below) := by
  induction ks with
  | nil =>
    intro k top below hlast
    rw [GraphStackElem.done, Coll.insertAt_new_child hlast]
    by_cases hc : IsCollKind kind
    · simp [pushKeys, pushNewKeyOnStack_of_coll hc, appendItemToCurrentTopOfStack, hc, stackColl,
        plug, Coll.insertAt, GraphStackElem.done]
    · simp [pushKeys, pushNewKeyOnStack_of_not_coll hc, hc]
  | cons k' ks ih =>
    intro k top below hlast
    have hmap : IsCollKind .MapKind := Or.inl rfl
    rw [GraphStackElem.done, Coll.insertAt_new_child hlast]
    simp only [pushKeys, pushNewKeyOnStack_of_coll hmap, Option.bind_some, reduceCtorEq, if_false,
      hmap, if_true]
    rw [ih k' ⟨k, .MapKind, []⟩ (top :: below) (lastChild?_nil k'), Option.map_map]
    rfl

theorem pushKeys_stackOk {kind : NomsKind} {item : Item V} (hitem : item.isChild = false)
    (k : V) (ks : List V) :
    ∀ {stack stack' : List (GraphStackElem V)}, pushKeys kind item stack (k :: ks) = some stack' →
      StackOk stack' := by
  induction ks generalizing k with
  | nil =>
    intro stack stack' h
    by_cases hc : IsCollKind kind
    · simp only [pushKeys, pushNewKeyOnStack_of_coll hc, Option.bind_some] at h
      exact appendItem_stackOk hitem h
    · simp [pushKeys, pushNewKeyOnStack_of_not_coll hc] at h
  | cons k' ks ih =>
    intro stack stack' h
    simp only [pushKeys, pushNewKeyOnStack_of_coll (Or.inl rfl), Option.bind_some] at h
    exact ih k' h

/-! ## Where a path leaves the stack's -/

/-- What `firstDiff` finds: one list is a prefix of the other, or they part at its index. -/
theorem firstDiff_cases (as bs : List V) :
    (firstDiff as bs = none ∧ (∃ t, bs = as ++ t) ∨ firstDiff as bs = none ∧ ∃ t, as = bs ++ t) ∨
      ∃ pre a b as' bs', a ≠ b ∧ as = pre ++ a :: as' ∧ bs = pre ++ b :: bs' ∧
        firstDiff as bs = some pre.length := by
  induction as generalizing bs with
  | nil => exact .inl (.inl ⟨by cases bs <;> rfl, bs, rfl⟩)
  | cons a as ih =>
    cases bs with
    | nil => exact .inl (.inr ⟨rfl, a :: as, rfl⟩)
    | cons b bs =>
      by_cases hab : a = b
      · subst hab
        rcases ih bs with (⟨h, t, rfl⟩ | ⟨h, t, rfl⟩) | ⟨pre, x, y, as', bs', hxy, rfl, rfl, h⟩
        · exact .inl (.inl ⟨by simp [firstDiff, h], t, rfl⟩)
        · exact .inl (.inr ⟨by simp [firstDiff, h], t, rfl⟩)
        · exact .inr ⟨a :: pre, x, y, as', bs', hxy, rfl, rfl, by simp [firstDiff, h]⟩
      · exact .inr ⟨[], a, b, as, bs, hab, rfl, rfl, by simp [firstDiff, hab]⟩

theorem commonPrefixCount_eq (top : GraphStackElem V) (below : List (GraphStackElem V))
    (keys : List V) :
    commonPrefixCount (top :: below) keys =
      match firstDiff (plugKeys top.key below) keys with
      | some i => some i
      | none =>
        if keys.length = (plugKeys top.key below).length then none
        else some (min keys.length (plugKeys top.key below).length) := by
  -- the statement's `match` is not the definition's, so both are reduced on the discriminant
  cases h : firstDiff (plugKeys top.key below) keys <;>
    simp only [commonPrefixCount, stack_keys_eq_plugKeys, h]

/-- The four ways a path meets the stack's path: equal, a proper prefix of it, a proper extension
of it, or parting from it after a common `pre`. -/
theorem commonPrefixCount_cases (top : GraphStackElem V) (below : List (GraphStackElem V))
    (keys : List V) :
    (commonPrefixCount (top :: below) keys = none ∧ keys = plugKeys top.key below) ∨
      (∃ a more, plugKeys top.key below = keys ++ a :: more ∧
        commonPrefixCount (top :: below) keys = some keys.length) ∨
      (∃ b ks, keys = plugKeys top.key below ++ b :: ks ∧
        commonPrefixCount (top :: below) keys = some (plugKeys top.key below).length) ∨
      ∃ pre a b more ks, a ≠ b ∧ plugKeys top.key below = pre ++ a :: more ∧
        keys = pre ++ b :: ks ∧ commonPrefixCount (top :: below) keys = some pre.length := by
  rw [commonPrefixCount_eq]
  rcases firstDiff_cases (plugKeys top.key below) keys with
    (⟨h, t, rfl⟩ | ⟨h, t, ht⟩) | ⟨pre, a, b, as', bs', hab, hP, rfl, h⟩
  · rw [h]
    cases t with
    | nil => exact .inl ⟨by simp, by simp⟩
    | cons b ks => exact .inr (.inr (.inl ⟨b, ks, rfl, by simp⟩))
  · rw [h]
    cases t with
    | nil => exact .inl ⟨by simp [ht], by simp [ht]⟩
    | cons a more => exact .inr (.inl ⟨a, more, ht, by simp [ht]⟩)
  · rw [h]
    exact .inr (.inr (.inr ⟨pre, a, b, as', bs', hab, hP, rfl, rfl⟩))

theorem lastChild?_eq_none_of_ne {items : List (Item V)} {a b : V} {c : Coll V}
    (h : lastChild? items a = some c) (hab : a ≠ b) : lastChild? items b = none := by
  cases hl : items.getLast? with
  | none => simp [lastChild?, hl]
  | some it =>
    cases it with
    | child k' c' =>
      simp only [lastChild?, hl, ite_eq_right_iff, reduceCtorEq, imp_false] at h ⊢
      by_cases hk : k' = a
      · exact hk ▸ hab
      · simp [hk] at h
    | value v => simp [lastChild?, hl]
    | entry k v => simp [lastChild?, hl]

omit [LinearOrder V] in
theorem appendItem_length {stack stack' : List (GraphStackElem V)} {kind : NomsKind}
    {item : Item V} (h : appendItemToCurrentTopOfStack stack kind item = some stack') :
    stack'.length = stack.length := by
  match stack, h with
  | top :: rest, h =>
    by_cases hk : top.kind = kind <;> simp [appendItemToCurrentTopOfStack, hk] at h
    rw [← h]
    rfl

/-! ## One turn, and a whole run -/

/-- After the pops, the item is appended on top when the path ends there, and otherwise the rest
of the path is pushed. -/
theorem buildStep_of_pops {stack s : List (GraphStackElem V)} {keys : List V} {idx : Nat}
    (hc : commonPrefixCount stack keys = some idx)
    (hpop : popKeys (stack.length - 1 - idx) stack = some s) (kind : NomsKind) (item : Item V) :
    buildStep stack (keys, kind, item) =
      if s.length - 1 = keys.length then appendItemToCurrentTopOfStack s kind item
      else pushKeys kind item s (keys.drop (s.length - 1)) := by
  simp only [buildStep, hc, hpop, Option.bind_eq_bind, Option.bind_some]
  split_ifs with h
  · cases ha : appendItemToCurrentTopOfStack s kind item with
    | none => rfl
    | some s' => simp [appendItem_length ha, h, pushKeys]
  · rfl

/-- What one turn does. The pops leave the collection as it was; then either the path ends at the
new top and the item is appended there, or the rest of the path is pushed onto a top whose last
child is not under its next key. -/
theorem buildStep_cases {top : GraphStackElem V} {below : List (GraphStackElem V)}
    (hok : StackOk (top :: below)) (keys : List V) (kind : NomsKind) (item : Item V) :
    ∃ t' below', plug t'.done t'.key below' = plug top.done top.key below ∧
      ((keys = plugKeys t'.key below' ∧
          buildStep (top :: below) (keys, kind, item) =
            appendItemToCurrentTopOfStack (t' :: below') kind item) ∨
        ∃ k ks, keys = plugKeys t'.key below' ++ k :: ks ∧ lastChild? t'.ch k = none ∧
          buildStep (top :: below) (keys, kind, item) = pushKeys kind item (t' :: below') (k :: ks)) := by
  have hlen := length_plugKeys top.key below
  rcases commonPrefixCount_cases top below keys with
    ⟨hc, rfl⟩ | ⟨a, more, hP, hc⟩ | ⟨b, ks, rfl, hc⟩ | ⟨pre, a, b, more, ks, hab, hP, rfl, hc⟩
  · -- the path is the stack's: the item goes on top
    exact ⟨top, below, rfl, .inl ⟨rfl, by simp only [buildStep, hc]⟩⟩
  · -- a proper prefix of the stack's path: pop down to it, then append
    have hb : below.length = keys.length + more.length + 1 := by
      rw [← hlen, hP]
      simp only [List.length_append, List.length_cons]
      omega
    have hn : (top :: below).length - 1 - keys.length = more.length + 1 := by
      simp only [List.length_cons]
      omega
    obtain ⟨t', below', a', c, more', hpop, hplug, hkeys, hmore, -⟩ :=
      popKeys_succ more.length top below (by omega)
    have hpre : keys = plugKeys t'.key below' :=
      (List.append_inj' (hP.symm.trans hkeys) (by simp [hmore])).1
    have hlen' : (t' :: below').length - 1 = keys.length := by simp [hpre, length_plugKeys]
    refine ⟨t', below', hplug, .inl ⟨hpre, ?_⟩⟩
    rw [buildStep_of_pops hc (hn ▸ hpop), if_pos hlen']
  · -- a proper extension: push the rest
    have hpop : popKeys ((top :: below).length - 1 - (plugKeys top.key below).length)
        (top :: below) = some (top :: below) := by simp [hlen, popKeys]
    refine ⟨top, below, rfl, .inr ⟨b, ks, rfl, hok b, ?_⟩⟩
    rw [buildStep_of_pops hc hpop, if_neg (by simp [hlen])]
    simp [hlen]
  · -- the paths part after `pre`: pop down to `pre`, whose last child is under `a`, and push
    have hb : below.length = pre.length + more.length + 1 := by
      rw [← hlen, hP]
      simp only [List.length_append, List.length_cons]
      omega
    have hn : (top :: below).length - 1 - pre.length = more.length + 1 := by
      simp only [List.length_cons]
      omega
    obtain ⟨t', below', a', c, more', hpop, hplug, hkeys, hmore, hlast⟩ :=
      popKeys_succ more.length top below (by omega)
    obtain ⟨hpre, ha⟩ := List.append_inj' (hP.symm.trans hkeys) (by simp [hmore])
    obtain ⟨rfl, -⟩ := List.cons.inj ha
    refine ⟨t', below', hplug, .inr ⟨b, ks, by rw [hpre], lastChild?_eq_none_of_ne hlast hab, ?_⟩⟩
    have hlen' : (t' :: below').length - 1 = pre.length := by simp [hpre, length_plugKeys]
    have hne : ¬ (t' :: below').length - 1 = (pre ++ b :: ks).length := by
      rw [hlen']
      simp
    rw [buildStep_of_pops hc (hn ▸ hpop), if_neg hne, hlen']
    simp

theorem stackOk_cons {stack : List (GraphStackElem V)} (hok : StackOk stack) :
    ∃ top below, stack = top :: below := by
  cases stack with
  | nil => exact absurd hok id
  | cons top below => exact ⟨top, below, rfl⟩

/-- One turn of `Build` appends the item where `insertAt` appends it. -/
theorem buildStep_stackColl {stack : List (GraphStackElem V)} (hok : StackOk stack) (keys : List V)
    (kind : NomsKind) (item : Item V) :
    (buildStep stack (keys, kind, item)).bind stackColl =
      (stackColl stack).bind (·.insertAt keys kind item) := by
  obtain ⟨top, below, rfl⟩ := stackOk_cons hok
  obtain ⟨t', below', hplug, ⟨rfl, h⟩ | ⟨k, ks, rfl, hlast, h⟩⟩ := buildStep_cases hok keys kind item
  · rw [h, appendItem_stackColl, stackColl, Option.bind_some, ← hplug,
      ← List.append_nil (plugKeys t'.key below'), insertAt_plug]
  · rw [h, pushKeys_stackColl ks k t' below' hlast, stackColl, Option.bind_some, ← hplug,
      insertAt_plug]

theorem buildStep_stackOk {stack stack' : List (GraphStackElem V)} (hok : StackOk stack)
    {keys : List V} {kind : NomsKind} {item : Item V} (hitem : item.isChild = false)
    (h : buildStep stack (keys, kind, item) = some stack') : StackOk stack' := by
  obtain ⟨top, below, rfl⟩ := stackOk_cons hok
  obtain ⟨t', below', -, ⟨-, hb⟩ | ⟨k, ks, -, -, hb⟩⟩ := buildStep_cases hok keys kind item
  · rw [hb] at h
    exact appendItem_stackOk hitem h
  · rw [hb] at h
    exact pushKeys_stackOk hitem k ks h

/-- `Build`'s loop over any operations, sorted or not, stands for `insertOp` folded over them. -/
theorem foldlM_buildStep (ops : List (LdbOp V)) :
    ∀ {stack : List (GraphStackElem V)}, StackOk stack →
      (ops.foldlM (fun stack op => (GraphOp op).bind (buildStep stack)) stack).bind stackColl =
        (stackColl stack).bind (fun c => ops.foldlM insertOp c) := by
  induction ops with
  | nil => intro stack _; simp
  | cons op ops ih =>
    intro stack hok
    simp only [List.foldlM_cons, Option.bind_eq_bind]
    cases hg : GraphOp op with
    | none => cases stackColl stack <;> simp [insertOp, hg]
    | some x =>
      obtain ⟨keys, kind, item⟩ := x
      have hstep := buildStep_stackColl hok keys kind item
      have hins : ∀ c, insertOp c op = c.insertAt keys kind item := fun c => by simp [insertOp, hg]
      simp only [Option.bind_some, hins]
      rw [← Option.bind_assoc, ← hstep]
      cases hb : buildStep stack (keys, kind, item) with
      | none => rfl
      | some s' => exact ih (buildStep_stackOk hok (GraphOp_not_child hg) hb)

/-- `Build` returns the root's collection after `insertOp` of every operation of the cache, in
the cache's order. -/
theorem Build_eq_foldlM {b : GraphBuilder V} {opc : OpCache V} (hoc : b.oc = some opc)
    (hok : StackOk b.stack) :
    b.Build.map Prod.snd = (stackColl b.stack).bind (fun c => opc.ldb.foldlM insertOp c) := by
  rw [← foldlM_buildStep opc.ldb hok]
  simp only [GraphBuilder.Build, hoc, Option.bind_eq_bind, Option.bind_some]
  cases opc.ldb.foldlM (fun stack op => (GraphOp op).bind (buildStep stack)) b.stack with
  | none => rfl
  | some stack =>
    cases stack with
    | nil => rfl
    | cons top below =>
      obtain ⟨root, hpop, hroot⟩ := popKeys_all top below
      simp [hpop, stackColl, hroot]

end Noms.Types
