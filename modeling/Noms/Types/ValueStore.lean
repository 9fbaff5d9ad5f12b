import Noms.Lib.ContentStore

/-!
# Validating writes (`value_store.go`, `validating_batching_sink.go`)

A `ValueStore` writes values to a chunk store and checks each write: every ref of the value must
point to a chunk the store knows, of the type the ref names. It knows a chunk from its `cache`,
filled by its own writes (`presentChunk`), by the values it reads (`hintedChunk`, hinted by the
chunk itself) and by the refs inside those values (`hintedChunk`, hinted by the chunk that holds
the ref). `WriteValue` never reads to check (`checkChunksInCache(v, false)`); a
`ValidatingBatchingSink`, which puts the chunks a client sends, reads a ref's target when its
cache does not know it (`ensureChunksInCache`), and marks each chunk it enqueues as known before
the chunk is put: `PutMany` takes the batch when it is full, and `Flush` takes what is left.

Here a value is what validation reads of it: its type and its refs (`Val`); a chunk is its
value, under the hash `hashOf` gives it. The store a `ValueStore` writes to is a
`BatchStoreAdaptor`, whose `SchedulePut` is `Put`. A chunk store's `PutMany` takes the chunks in
order until one it cannot take, and returns the hashes of that one and the rest as its
`BackpressureError` (`putMany` with the number it takes).

A call that panics is `none`. The caches' claims are `Sound`: every entry names a chunk that is
stored, or for a sink stored once its batch is put, with the entry's type. Every call keeps
that, and a check that passes then proves that the value's refs are there (`Sound.checkChunksInCache`).
-/

namespace Noms.Types

open Noms.Lib.ContentStore (put putAll Addressed Sub)

/-- A decoded value as validation reads it: its type, and for each ref it holds (`WalkRefs`) the
target hash and the target type the ref's type names (`getTargetType`). -/
structure Val (H T : Type) where
  type : T
  refs : List (H × T)

/-- A chunk store's contents, by hash. -/
abbrev Chunks (H T : Type) := H → Option (Val H T)

/-- A `chunkCacheEntry`: a chunk's type, and the chunk a ref to it was read in (`hintedChunk`),
or none for a chunk this store wrote (`presentChunk`). Every entry is `Present()`:
`absentChunk` is never stored, since `ReadValue` replaces it for every value it decodes. -/
structure CacheEntry (H T : Type) where
  type : T
  hint : Option H

/-- A `ValueStore`'s caches. `valueCache` keeps a read miss as `nil` (`some none`). -/
structure ValueStore (H T : Type) where
  cache : H → Option (CacheEntry H T)
  valueCache : H → Option (Option (Val H T))

namespace ValueStore

variable {H T : Type} [DecidableEq H]

/-- `NewValueStore(bs)`. -/
def empty : ValueStore H T := ⟨fun _ => none, fun _ => none⟩

/-- `set(r, entry)`. -/
def set (vs : ValueStore H T) (r : H) (entry : CacheEntry H T) : ValueStore H T :=
  { vs with cache := Function.update vs.cache r (some entry) }

/-- `isPresent(r)`. -/
def isPresent (vs : ValueStore H T) (r : H) : Bool := (vs.cache r).isSome

/-- `checkAndSet(r, entry)`: an entry with a hint is kept. -/
def checkAndSet (vs : ValueStore H T) (r : H) (entry : CacheEntry H T) : ValueStore H T :=
  match vs.cache r with
  | some cur => if cur.hint = none then vs.set r entry else vs
  | none => vs.set r entry

/-- The callback of `cacheChunks(v, r)` on one ref: `r` becomes the hint of its target unless
the target has a hint of another chunk. -/
def cacheChunk (r : H) (vs : ValueStore H T) (reachable : H × T) : ValueStore H T :=
  match vs.cache reachable.1 with
  | some cur =>
    if cur.hint = none ∨ cur.hint = some reachable.1 then vs.set reachable.1 ⟨reachable.2, some r⟩
    else vs
  | none => vs.set reachable.1 ⟨reachable.2, some r⟩

/-- `cacheChunks(v, r)`. -/
def cacheChunks (vs : ValueStore H T) (v : Val H T) (r : H) : ValueStore H T :=
  v.refs.foldl (cacheChunk r) vs

/-- `ReadValue(h)` from the chunks `cs`: the caches after, and the value. -/
def ReadValue (cs : Chunks H T) (vs : ValueStore H T) (h : H) : ValueStore H T × Option (Val H T) :=
  match vs.valueCache h with
  | some v => (vs, v)
  | none =>
    match cs h with
    | none => ({ vs with valueCache := Function.update vs.valueCache h (some none) }, none)
    | some v =>
      let vs := { vs with valueCache := Function.update vs.valueCache h (some (some v)) }
      -- `h` is trivially a hint for `v`, kept only where no hint is cached
      ((vs.cacheChunks v h).checkAndSet h ⟨v.type, some h⟩, some v)

/-- The entry `collectHints` goes on with for a ref's target: the cached one, or with
`readValues` the one `ReadValue` leaves. `none` is Go's panic: "Attempted to write Value
containing Ref to non-existent object", or the nil entry a cached read leaves. -/
def collectEntry (cs : Chunks H T) (readValues : Bool) (vs : ValueStore H T) (t : H) :
    Option (ValueStore H T × CacheEntry H T) :=
  match vs.cache t with
  | some entry => some (vs, entry)
  | none =>
    if readValues then
      match vs.ReadValue cs t with
      | (vs', some _) => (vs'.cache t).map fun entry => (vs', entry)
      | (_, none) => none
    else none

variable [DecidableEq T]

/-- `checkChunksInCache(v, readValues)` on the refs of `v`: the caches after and the hints, or a
panic, also for a ref whose target has another type than the ref names. -/
def checkChunksInCache (cs : Chunks H T) (readValues : Bool) :
    ValueStore H T → List (H × T) → Option (ValueStore H T × List H)
  | vs, [] => some (vs, [])
  | vs, reachable :: refs =>
    match vs.collectEntry cs readValues reachable.1 with
    | none => none
    | some (vs, entry) =>
      if entry.type = reachable.2 then
        (checkChunksInCache cs readValues vs refs).map fun r => (r.1, entry.hint.toList ++ r.2)
      else none

/-- `WriteValue(v)` into `cs` through a `BatchStoreAdaptor`: the chunks and the caches after. The
chunks `EncodeValue` writes for `v`'s children are written by `WriteValue` calls of their own,
before this one. -/
def WriteValue (hashOf : Val H T → H) (cs : Chunks H T) (vs : ValueStore H T) (v : Val H T) :
    Option (Chunks H T × ValueStore H T) :=
  let hash := hashOf v
  if vs.isPresent hash then some (cs, vs)
  else
    -- `chunkHintsFromCache`; the adaptor's `SchedulePut` ignores the hints
    (vs.checkChunksInCache cs false v.refs).map fun r =>
      (put hashOf cs v,
        { r.1.set hash ⟨v.type, none⟩ with valueCache := Function.update r.1.valueCache hash none })

end ValueStore

/-- `batchSize`. -/
def batchSize : Nat := 100

variable {H T : Type} [DecidableEq H]

/-- `PutMany(chunks)` into a store that takes the first `n` chunks: the chunks after, and the
hashes of the chunks refused (the `BackpressureError`). -/
def putMany (hashOf : Val H T → H) (cs : Chunks H T) (n : Nat) (chunks : List (Val H T)) :
    Chunks H T × List H :=
  (putAll hashOf cs (chunks.take n), (chunks.drop n).map hashOf)

theorem putMany_fst (hashOf : Val H T → H) (cs : Chunks H T) (n : Nat) (chunks : List (Val H T)) :
    (putMany hashOf cs n chunks).1 = putAll hashOf cs (chunks.take n) := rfl

/-- A `ValidatingBatchingSink`: its `ValueStore`'s caches over the chunk store, and the chunks
enqueued since the last `PutMany`. -/
structure ValidatingBatchingSink (H T : Type) where
  vs : ValueStore H T
  batch : List (Val H T)

namespace ValidatingBatchingSink

/-- `NewValidatingBatchingSink(cs)`. -/
def new : ValidatingBatchingSink H T := ⟨ValueStore.empty, []⟩

/-- `Prepare(hints)`: the hinted chunks read, one after another. -/
def Prepare (cs : Chunks H T) (vbs : ValidatingBatchingSink H T) (hints : List H) :
    ValidatingBatchingSink H T :=
  hints.foldl (fun vbs hint => { vbs with vs := (vbs.vs.ReadValue cs hint).1 }) vbs

/-- `DecodeUnqueued(c)`: nothing for a chunk the cache holds as present. Decoding a chunk gives
back a value of the chunk's hash, so the hash check passes. -/
def DecodeUnqueued (hashOf : Val H T → H) (vbs : ValidatingBatchingSink H T) (c : Val H T) :
    Option (Val H T) :=
  if vbs.vs.isPresent (hashOf c) then none else some c

variable [DecidableEq T]

/-- `Enqueue(c, v)`, the store taking `n` chunks of a full batch: the chunks after, the sink, and
the `BackpressureError`. -/
def Enqueue (hashOf : Val H T → H) (cs : Chunks H T) (vbs : ValidatingBatchingSink H T)
    (c : Val H T) (n : Nat) : Option (Chunks H T × ValidatingBatchingSink H T × List H) :=
  (vbs.vs.checkChunksInCache cs true c.refs).map fun r =>
    let vs := r.1.set (hashOf c) ⟨c.type, some (hashOf c)⟩
    let batch := vbs.batch ++ [c]
    if batch.length = batchSize then
      let p := putMany hashOf cs n batch
      (p.1, ⟨vs, []⟩, p.2)
    else (cs, ⟨vs, batch⟩, [])

end ValidatingBatchingSink

/-- `Flush()`, the store taking `n` chunks. -/
def ValidatingBatchingSink.Flush (hashOf : Val H T → H) (cs : Chunks H T)
    (vbs : ValidatingBatchingSink H T) (n : Nat) :
    Chunks H T × ValidatingBatchingSink H T × List H :=
  if vbs.batch = [] then (cs, vbs, [])
  else
    let p := putMany hashOf cs n vbs.batch
    (p.1, { vbs with batch := [] }, p.2)

/-! ## What the caches claim -/

section Sound

variable (hashOf : Val H T → H)

/-- A chunk of type `ty` is under `h`. -/
def Stored (cs : Chunks H T) (h : H) (ty : T) : Prop := ∃ v, cs h = some v ∧ v.type = ty

/-- Ref-complete and type-correct: every ref of a stored chunk targets a stored chunk of the type
the ref names. -/
def Complete (cs : Chunks H T) : Prop := ∀ h v, cs h = some v → ∀ r ∈ v.refs, Stored cs r.1 r.2

/-- Put in order into `cs`, each chunk of the batch finds its refs stored. -/
def RefsFirst : Chunks H T → List (Val H T) → Prop
  | _, [] => True
  | cs, c :: batch => (∀ r ∈ c.refs, Stored cs r.1 r.2) ∧ RefsFirst (put hashOf cs c) batch

/-- What a value store's caches claim of the chunks `av`, as it reads from `cs`: an entry's
chunk is in `av` with the entry's type, and a cached value is what `cs` has under its hash. -/
structure ValueStore.Sound (cs av : Chunks H T) (vs : ValueStore H T) : Prop where
  cache : ∀ h e, vs.cache h = some e → Stored av h e.type
  valueCache : ∀ h v, vs.valueCache h = some (some v) → cs h = some v

variable {hashOf}

omit [DecidableEq H] in
theorem Stored.mono {cs cs' : Chunks H T} (hsub : Sub cs cs') {h : H} {ty : T}
    (hst : Stored cs h ty) : Stored cs' h ty := by
  obtain ⟨v, hv, hty⟩ := hst
  exact ⟨v, hsub h v hv, hty⟩

theorem stored_put_self (cs : Chunks H T) (v : Val H T) : Stored (put hashOf cs v) (hashOf v) v.type :=
  ⟨v, Noms.Lib.ContentStore.put_self cs v, rfl⟩

section Injective

variable (hinj : Function.Injective hashOf)
include hinj

/-- A chunk whose refs are stored keeps a complete store complete. -/
theorem Complete.put {cs : Chunks H T} (ha : Addressed hashOf cs) (hc : Complete cs) {v : Val H T}
    (hv : ∀ r ∈ v.refs, Stored cs r.1 r.2) : Complete (put hashOf cs v) := by
  have hsub := ha.sub_put hinj v
  intro h w hw r hr
  by_cases hh : h = hashOf v
  · subst hh
    rw [Noms.Lib.ContentStore.put_self, Option.some.injEq] at hw
    subst hw
    exact (hv r hr).mono hsub
  · rw [Noms.Lib.ContentStore.put_of_ne hh] at hw
    exact (hc h w hw r hr).mono hsub

/-- Any first part of a batch whose refs come first keeps a complete store complete. -/
theorem RefsFirst.complete {cs : Chunks H T} {batch : List (Val H T)} (ha : Addressed hashOf cs)
    (hc : Complete cs) (hb : RefsFirst hashOf cs batch) (n : Nat) :
    Complete (putAll hashOf cs (batch.take n)) := by
  induction batch generalizing cs n with
  | nil => simpa using hc
  | cons c batch ih =>
    cases n with
    | zero => exact hc
    | succ n =>
      rw [List.take_succ_cons, Noms.Lib.ContentStore.putAll_cons]
      exact ih (ha.put c) (hc.put hinj ha hb.1) hb.2 n

end Injective

theorem RefsFirst.mono {cs cs' : Chunks H T} (hsub : Sub cs cs') {batch : List (Val H T)}
    (hb : RefsFirst hashOf cs batch) : RefsFirst hashOf cs' batch := by
  induction batch generalizing cs cs' with
  | nil => trivial
  | cons c batch ih =>
    exact ⟨fun r hr => (hb.1 r hr).mono hsub, ih (hsub.put c) hb.2⟩

theorem RefsFirst.snoc {cs : Chunks H T} {batch : List (Val H T)} (hb : RefsFirst hashOf cs batch)
    {c : Val H T} (hc : ∀ r ∈ c.refs, Stored (putAll hashOf cs batch) r.1 r.2) :
    RefsFirst hashOf cs (batch ++ [c]) := by
  induction batch generalizing cs with
  | nil => exact ⟨hc, trivial⟩
  | cons b batch ih => exact ⟨hb.1, ih hb.2 hc⟩

namespace ValueStore.Sound

variable {cs av : Chunks H T} {vs : ValueStore H T}

omit [DecidableEq H] in
theorem mono {cs' av' : Chunks H T} (hs : Sound cs av vs) (hcs : Sub cs cs') (hav : Sub av av') :
    Sound cs' av' vs where
  cache h e he := (hs.cache h e he).mono hav
  valueCache h v hv := hcs h v (hs.valueCache h v hv)

theorem set (hs : Sound cs av vs) {r : H} {e : CacheEntry H T} (he : Stored av r e.type) :
    Sound cs av (vs.set r e) where
  cache h e' h' := by
    by_cases hh : h = r
    · subst hh
      simp only [ValueStore.set, Function.update_self, Option.some.injEq] at h'
      exact h' ▸ he
    · simp only [ValueStore.set, Function.update_of_ne hh] at h'
      exact hs.cache h e' h'
  valueCache := hs.valueCache

theorem checkAndSet (hs : Sound cs av vs) {r : H} {e : CacheEntry H T} (he : Stored av r e.type) :
    Sound cs av (vs.checkAndSet r e) := by
  unfold ValueStore.checkAndSet
  split
  · split
    · exact hs.set he
    · exact hs
  · exact hs.set he

/-- Reading a value whose refs are all in `av` keeps the caches sound. -/
theorem cacheChunks (hs : Sound cs av vs) {v : Val H T} (hv : ∀ r ∈ v.refs, Stored av r.1 r.2)
    (h : H) : Sound cs av (vs.cacheChunks v h) := by
  unfold ValueStore.cacheChunks
  revert hv
  generalize v.refs = refs
  intro hv
  induction refs generalizing vs with
  | nil => exact hs
  | cons r refs ih =>
    have hr := hv r List.mem_cons_self
    refine ih ?_ (fun r' hr' => hv r' (List.mem_cons_of_mem _ hr'))
    unfold ValueStore.cacheChunk
    split
    · split
      · exact hs.set hr
      · exact hs
    · exact hs.set hr

/-- A `valueCache` write of what `cs` holds, of a miss, or a drop. -/
theorem updateValue (hs : Sound cs av vs) (h : H) {x : Option (Option (Val H T))}
    (hx : ∀ v, x = some (some v) → cs h = some v) :
    Sound cs av { vs with valueCache := Function.update vs.valueCache h x } where
  cache := hs.cache
  valueCache h' v hv := by
    dsimp only at hv
    by_cases hh : h' = h
    · subst hh
      rw [Function.update_self] at hv
      exact hx v hv
    · rw [Function.update_of_ne hh] at hv
      exact hs.valueCache h' v hv

section Read

variable (hsub : Sub cs av) (hc : Complete cs)
include hsub hc

/-- `ReadValue` from a complete store keeps the caches sound, and what it returns is stored. -/
theorem ReadValue (hs : Sound cs av vs) (h : H) :
    Sound cs av (vs.ReadValue cs h).1 ∧ ∀ v, (vs.ReadValue cs h).2 = some v → cs h = some v := by
  unfold ValueStore.ReadValue
  split
  · rename_i r hr
    exact ⟨hs, fun v hv => hs.valueCache h v (hv ▸ hr)⟩
  · split
    · exact ⟨hs.updateValue h (by simp), by simp⟩
    · rename_i v hv
      have hs' := hs.updateValue h (x := some (some v)) (by simpa using hv)
      have hrefs : ∀ r ∈ v.refs, Stored av r.1 r.2 := fun r hr => (hc h v hv r hr).mono hsub
      refine ⟨(hs'.cacheChunks hrefs h).checkAndSet ⟨v, hsub h v hv, rfl⟩, ?_⟩
      intro w hw
      simp only [Option.some.injEq] at hw
      exact hw ▸ hv

/-- The entry `collectHints` goes on with names a chunk of `av` of the entry's type. -/
theorem collectEntry (hs : Sound cs av vs) {rv : Bool} {t : H} {vs' : ValueStore H T}
    {e : CacheEntry H T} (he : vs.collectEntry cs rv t = some (vs', e)) :
    Sound cs av vs' ∧ Stored av t e.type := by
  unfold ValueStore.collectEntry at he
  split at he
  · rename_i e' he'
    simp only [Option.some.injEq, Prod.mk.injEq] at he
    obtain ⟨rfl, rfl⟩ := he
    exact ⟨hs, hs.cache t _ he'⟩
  · split at he
    · split at he
      · rename_i vs₁ w hread
        have hs₁ := (hs.ReadValue hsub hc t).1
        rw [hread] at hs₁
        cases hvs : vs₁.cache t with
        | none => simp [hvs] at he
        | some e' =>
          simp only [hvs, Option.map_some, Option.some.injEq, Prod.mk.injEq] at he
          obtain ⟨rfl, rfl⟩ := he
          exact ⟨hs₁, hs₁.cache t e' hvs⟩
      · cases he
    · cases he

variable [DecidableEq T]

/-- A check that passes keeps the caches sound, and finds every ref's target in `av` with the
type the ref names. -/
theorem checkChunksInCache (hs : Sound cs av vs) {rv : Bool} {refs : List (H × T)}
    {vs' : ValueStore H T} {hints : List H} (h : vs.checkChunksInCache cs rv refs = some (vs', hints)) :
    Sound cs av vs' ∧ ∀ r ∈ refs, Stored av r.1 r.2 := by
  induction refs generalizing vs vs' hints with
  | nil =>
    simp only [ValueStore.checkChunksInCache, Option.some.injEq, Prod.mk.injEq] at h
    obtain ⟨rfl, -⟩ := h
    exact ⟨hs, by simp⟩
  | cons r refs ih =>
    unfold ValueStore.checkChunksInCache at h
    split at h
    · cases h
    · rename_i vs₁ e he
      obtain ⟨hs₁, hst⟩ := hs.collectEntry hsub hc he
      split at h
      · rename_i hty
        obtain ⟨⟨vs₂, hints₂⟩, h₂, hvs⟩ := Option.map_eq_some_iff.mp h
        obtain ⟨rfl, -⟩ := Prod.mk.injEq _ _ _ _ ▸ hvs
        obtain ⟨hs₂, hrefs⟩ := ih hs₁ h₂
        refine ⟨hs₂, fun r' hr' => ?_⟩
        rcases List.mem_cons.mp hr' with rfl | hr'
        · exact hty ▸ hst
        · exact hrefs r' hr'
      · cases h

end Read

end ValueStore.Sound

/-! ## The calls -/

variable (hashOf) in
/-- `cs'` is a complete store of chunks under their own hashes that holds all `cs` holds. -/
structure Extends (cs cs' : Chunks H T) : Prop where
  addressed : Addressed hashOf cs'
  complete : Complete cs'
  sub : Sub cs cs'

variable (hashOf) in
/-- What holds of a sink between calls: its caches are sound of the chunks stored once its batch
is put, the batch puts each chunk's refs first, and it is not full. -/
structure ValidatingBatchingSink.Ok (cs : Chunks H T) (vbs : ValidatingBatchingSink H T) : Prop where
  sound : vbs.vs.Sound cs (putAll hashOf cs vbs.batch)
  refsFirst : RefsFirst hashOf cs vbs.batch
  short : vbs.batch.length < batchSize

/-- A sink stays `Ok` as the store grows under it. -/
theorem ValidatingBatchingSink.Ok.mono {cs cs' : Chunks H T} {vbs : ValidatingBatchingSink H T}
    (hok : vbs.Ok hashOf cs) (hsub : Sub cs cs') : vbs.Ok hashOf cs' where
  sound := hok.sound.mono hsub (hsub.putAll _)
  refsFirst := hok.refsFirst.mono hsub
  short := hok.short

variable (hinj : Function.Injective hashOf)
include hinj

omit [DecidableEq H] hinj in
theorem Extends.refl {cs : Chunks H T} (ha : Addressed hashOf cs) (hc : Complete cs) :
    Extends hashOf cs cs := ⟨ha, hc, Sub.refl cs⟩

/-- Putting the first `n` chunks of a batch whose refs come first. -/
theorem RefsFirst.extends_putAll {cs : Chunks H T} {batch : List (Val H T)}
    (ha : Addressed hashOf cs) (hc : Complete cs) (hb : RefsFirst hashOf cs batch) (n : Nat) :
    Extends hashOf cs (putAll hashOf cs (batch.take n)) :=
  ⟨ha.putAll _, hb.complete hinj ha hc n, ha.sub_putAll hinj _⟩

/-- `Prepare` reads, which keep a sink's caches sound. -/
theorem ValidatingBatchingSink.Prepare_ok {cs : Chunks H T} {vbs : ValidatingBatchingSink H T}
    (ha : Addressed hashOf cs) (hc : Complete cs) (hok : vbs.Ok hashOf cs) (hints : List H) :
    (vbs.Prepare cs hints).Ok hashOf cs := by
  unfold ValidatingBatchingSink.Prepare
  induction hints generalizing vbs with
  | nil => exact hok
  | cons hint hints ih =>
    refine ih ⟨?_, hok.refsFirst, hok.short⟩
    exact (hok.sound.ReadValue (ha.sub_putAll hinj _) hc hint).1

/-- A `Flush` extends the store; when the store takes the whole batch, the sink stays `Ok`. -/
theorem ValidatingBatchingSink.Flush_spec {cs cs' : Chunks H T}
    {vbs vbs' : ValidatingBatchingSink H T} {n : Nat} {err : List H}
    (ha : Addressed hashOf cs) (hc : Complete cs) (hok : vbs.Ok hashOf cs)
    (hf : vbs.Flush hashOf cs n = (cs', vbs', err)) :
    Extends hashOf cs cs' ∧ (batchSize ≤ n → vbs'.Ok hashOf cs') := by
  unfold ValidatingBatchingSink.Flush at hf
  split at hf
  · obtain ⟨rfl, rfl, rfl⟩ := hf
    exact ⟨Extends.refl ha hc, fun _ => hok⟩
  · obtain ⟨rfl, rfl, rfl⟩ := hf
    have hext := hok.refsFirst.extends_putAll hinj ha hc n
    refine ⟨hext, fun hn => ⟨?_, trivial, by simp [batchSize]⟩⟩
    have htake : vbs.batch.take n = vbs.batch :=
      List.take_of_length_le (by have := hok.short; omega)
    rw [htake] at hext
    rw [putMany_fst, htake]
    exact hok.sound.mono hext.sub (Sub.refl _)

variable [DecidableEq T]

/-- A `WriteValue` that returns extends the store and keeps the caches sound. -/
theorem ValueStore.WriteValue_spec {cs cs' : Chunks H T} {vs vs' : ValueStore H T} {v : Val H T}
    (ha : Addressed hashOf cs) (hc : Complete cs) (hs : vs.Sound cs cs)
    (hw : vs.WriteValue hashOf cs v = some (cs', vs')) :
    Extends hashOf cs cs' ∧ vs'.Sound cs' cs' := by
  unfold ValueStore.WriteValue at hw
  dsimp only at hw
  split at hw
  -- a chunk the cache holds is not written again
  · obtain ⟨rfl, rfl⟩ := Prod.mk.injEq _ _ _ _ ▸ Option.some.inj hw
    exact ⟨Extends.refl ha hc, hs⟩
  · obtain ⟨⟨vs₁, hints⟩, hchk, hw⟩ := Option.map_eq_some_iff.mp hw
    obtain ⟨rfl, rfl⟩ := Prod.mk.injEq _ _ _ _ ▸ hw
    obtain ⟨hs₁, hrefs⟩ := hs.checkChunksInCache (Sub.refl cs) hc hchk
    have hsub := ha.sub_put hinj v
    refine ⟨⟨ha.put v, hc.put hinj ha hrefs, hsub⟩, ?_⟩
    exact ((hs₁.mono hsub hsub).set (stored_put_self cs v)).updateValue _ (by simp)

/-- An `Enqueue` that returns extends the store, and leaves a batch that puts refs first. When
the store takes every chunk of a full batch, the sink stays `Ok`. -/
theorem ValidatingBatchingSink.Enqueue_spec {cs cs' : Chunks H T}
    {vbs vbs' : ValidatingBatchingSink H T} {c : Val H T} {n : Nat} {err : List H}
    (ha : Addressed hashOf cs) (hc : Complete cs) (hok : vbs.Ok hashOf cs)
    (he : vbs.Enqueue hashOf cs c n = some (cs', vbs', err)) :
    Extends hashOf cs cs' ∧ RefsFirst hashOf cs' vbs'.batch ∧
      (batchSize ≤ n → vbs'.Ok hashOf cs') := by
  unfold ValidatingBatchingSink.Enqueue at he
  obtain ⟨⟨vs₁, hints⟩, hchk, he⟩ := Option.map_eq_some_iff.mp he
  obtain ⟨hs₁, hrefs⟩ := hok.sound.checkChunksInCache (ha.sub_putAll hinj _) hc hchk
  -- the enqueued chunk joins the batch, with its refs found before it
  have hb₁ : RefsFirst hashOf cs (vbs.batch ++ [c]) := hok.refsFirst.snoc hrefs
  have hsub₁ : Sub (putAll hashOf cs vbs.batch) (putAll hashOf cs (vbs.batch ++ [c])) := by
    rw [Noms.Lib.ContentStore.putAll_append]
    exact (ha.putAll _).sub_putAll hinj [c]
  have hc₁ : Stored (putAll hashOf cs (vbs.batch ++ [c])) (hashOf c) c.type :=
    ⟨c, ha.putAll_key hinj (List.mem_append_right _ (List.mem_singleton_self c)), rfl⟩
  have hs₂ := (hs₁.mono (Sub.refl cs) hsub₁).set hc₁ (e := ⟨c.type, some (hashOf c)⟩)
  dsimp only at he
  split at he
  -- a full batch goes to `PutMany`
  · rename_i hfull
    obtain ⟨rfl, rfl, rfl⟩ := he
    have hext := hb₁.extends_putAll hinj ha hc n
    refine ⟨hext, trivial, fun hn => ⟨?_, trivial, by simp [batchSize]⟩⟩
    have htake : (vbs.batch ++ [c]).take n = vbs.batch ++ [c] := List.take_of_length_le (by omega)
    rw [htake] at hext
    rw [putMany_fst, htake]
    exact hs₂.mono hext.sub (Sub.refl _)
  · rename_i hfull
    obtain ⟨rfl, rfl, rfl⟩ := he
    have hshort := hok.short
    have hlen : (vbs.batch ++ [c]).length = vbs.batch.length + 1 := by simp
    refine ⟨Extends.refl ha hc, hb₁, fun _ => ⟨hs₂, hb₁, ?_⟩⟩
    show (vbs.batch ++ [c]).length < batchSize
    omega

/-- `WriteValue` panics on a value with a ref whose target is not stored with the type the ref
names: the check finds no entry for it, or one of another type, and a value the cache holds
as present is stored, so its refs are. -/
theorem ValueStore.WriteValue_eq_none {cs : Chunks H T} {vs : ValueStore H T} {v : Val H T}
    (ha : Addressed hashOf cs) (hc : Complete cs) (hs : vs.Sound cs cs) {r : H × T}
    (hr : r ∈ v.refs) (hmiss : ¬Stored cs r.1 r.2) : vs.WriteValue hashOf cs v = none := by
  unfold ValueStore.WriteValue
  dsimp only
  split
  · rename_i hpres
    obtain ⟨e, he⟩ := Option.isSome_iff_exists.mp hpres
    obtain ⟨w, hw, -⟩ := hs.cache _ e he
    have hwv : w = v := hinj (ha _ w hw)
    subst hwv
    exact absurd (hc _ w hw r hr) hmiss
  · cases hchk : vs.checkChunksInCache cs false v.refs with
    | none => rfl
    | some p => exact absurd ((hs.checkChunksInCache (Sub.refl cs) hc hchk).2 r hr) hmiss

/-- `Enqueue` panics on a chunk with a ref whose target is neither stored nor enqueued before it
in this sink's batch with the type the ref names. -/
theorem ValidatingBatchingSink.Enqueue_eq_none {cs : Chunks H T}
    {vbs : ValidatingBatchingSink H T} {c : Val H T} (n : Nat) (ha : Addressed hashOf cs)
    (hc : Complete cs) (hok : vbs.Ok hashOf cs) {r : H × T} (hr : r ∈ c.refs)
    (hmiss : ¬Stored (putAll hashOf cs vbs.batch) r.1 r.2) : vbs.Enqueue hashOf cs c n = none := by
  unfold ValidatingBatchingSink.Enqueue
  cases hchk : vbs.vs.checkChunksInCache cs true c.refs with
  | none => rfl
  | some p =>
    exact absurd ((hok.sound.checkChunksInCache (ha.sub_putAll hinj _) hc hchk).2 r hr) hmiss

end Sound

end Noms.Types
