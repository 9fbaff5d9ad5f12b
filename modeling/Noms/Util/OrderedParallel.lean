import Noms.Lib.Schedule
import Noms.Lib.MinQueue
import Noms.Lib.ListSlots
import Mathlib

/-!
# Ordered parallel map (`util/orderedparallel`)

`New(input, fn, parallelism)` maps `fn` over a stream on `parallelism` goroutines and sends the
results on `out` in the order of the input. A producer goroutine numbers the values it reads from
`input` (`inCount`), sends them on the unbuffered channel `wq`, and closes it at the end. A worker
applies `fn` to each value it receives and, holding the mutex, pushes the result on a heap ordered
by number and sends from the heap on `out` while the least number on it is `outCount`, the next
one due. Once `wq` is closed each worker takes the mutex a last time, and the one that finds
`outCount == inCount` closes `out`, adding one to `outCount` so that no other worker closes it.

The goroutines run as an interleaving. `Pool` is the state of all of them, an `Event` is one step
of one goroutine (a rendezvous on `wq` is one event of the producer and a worker), and `step` is
`none` where the event is not enabled. The consumer of `out` always receives, so a send on `out`
is part of the step that makes it. The heap is `container/heap` through its contract
(`Noms.Lib.MinQueue`); its `Peek` reads order `0` on the empty heap, as the zero `workItem` the
source returns. Closing a closed channel, sending on one and popping the empty heap panic
(`panicked`), and after a panic nothing runs.

Every schedule from `Pool.init` keeps `Pool.Inv`: each number that was dispatched and not yet sent
is held in exactly one place, by a worker or on the heap (`holding_eq`); the values sent are `fn`
of the first inputs, in order (`out_eq`); and `out` stays open while a worker has not exited
(`open_until_exit`). So no schedule panics, `out` delivers `fn` of the inputs in order and is
closed only once all of them are sent, a schedule that can go no further has closed it, and a
measure that every step lowers bounds the length of every schedule.
-/

namespace Noms.Util

open Noms.Lib

/-- A `workItem`: a value and its number in the input. -/
structure WorkItem (δ : Type) where
  order : Nat
  data : δ

/-- Where the producer goroutine is. -/
inductive ProducerPc (β : Type) where
  /-- at `for in := range input` -/
  | receiving
  /-- at `wq <- workItem{inCount, in}` -/
  | sending (x : β)
  /-- at `inCount++` -/
  | incrementing
  /-- at `close(wq)` -/
  | closing
  | exited

/-- Where a worker goroutine is. -/
inductive WorkerPc (β γ : Type) where
  /-- at `for item := range wq` -/
  | receiving
  /-- at `item.data = fn(item.data)` -/
  | processing (item : WorkItem β)
  /-- at `insertAndProcessHeap(item)`, before `mu.Lock()` -/
  | inserting (item : WorkItem γ)
  /-- holding `mu`, at the test of `for outHeap.Peek().order == outCount` -/
  | draining
  /-- after the `range` loop, before `mu.Lock()` -/
  | exiting
  | exited

/-- The state of `New`'s goroutines and of the variables they share; `holder` is the worker that
holds `mu`, and `out` the values the consumer has received. -/
structure Pool (β γ : Type) where
  inCount : Nat
  producer : ProducerPc β
  wqClosed : Bool
  workers : List (WorkerPc β γ)
  holder : Option Nat
  outHeap : List (WorkItem γ)
  outCount : Nat
  out : List γ
  outClosed : Bool
  panicked : Bool

/-- One step of one goroutine; `i` is a worker. -/
inductive Event where
  /-- the producer receives from `input`, a value or the close -/
  | receiveInput
  /-- the producer sends on `wq` and worker `i` receives -/
  | dispatch (i : Nat)
  | increment
  | closeWq
  /-- worker `i` reads the closed `wq` and leaves its loop -/
  | finishRange (i : Nat)
  | process (i : Nat)
  /-- worker `i` takes `mu` and pushes its item -/
  | insert (i : Nat)
  /-- worker `i` tests the heap: it pops and sends on `out`, or leaves and releases `mu` -/
  | drain (i : Nat)
  /-- worker `i` takes `mu`, closes `out` if `outCount == inCount`, and releases `mu` -/
  | exitCheck (i : Nat)

section Step

variable {β γ : Type}

/-- `outHeap.Peek().order`: the least order, and `0` on the empty heap. -/
def peekOrder (h : List (WorkItem γ)) : Nat :=
  match extractMin WorkItem.order h with
  | some (top, _) => top.order
  | none => 0

/-- The state once `New(input, fn, parallelism)` has started its goroutines. -/
def Pool.init (parallelism : Nat) : Pool β γ where
  inCount := 0
  producer := .receiving
  wqClosed := false
  workers := List.replicate parallelism .receiving
  holder := none
  outHeap := []
  outCount := 0
  out := []
  outClosed := false
  panicked := false

variable (input : List β) (fn : β → γ)

/-- One event, on the input stream `input`; `none` where it is not enabled. -/
def step (s : Pool β γ) (e : Event) : Option (Pool β γ) :=
  if s.panicked then none
  else
    match e with
    | .receiveInput =>
      match s.producer with
      | .receiving =>
        some { s with
          producer := match input[s.inCount]? with
            | some x => .sending x
            | none => .closing }
      | _ => none
    | .dispatch i =>
      match s.producer, s.workers[i]? with
      | .sending x, some .receiving =>
        some { s with
          producer := .incrementing
          workers := s.workers.set i (.processing ⟨s.inCount, x⟩) }
      | _, _ => none
    | .increment =>
      match s.producer with
      | .incrementing => some { s with producer := .receiving, inCount := s.inCount + 1 }
      | _ => none
    | .closeWq =>
      match s.producer with
      | .closing => some { s with producer := .exited, wqClosed := true }
      | _ => none
    | .finishRange i =>
      match s.workers[i]? with
      | some .receiving =>
        if s.wqClosed then some { s with workers := s.workers.set i .exiting } else none
      | _ => none
    | .process i =>
      match s.workers[i]? with
      | some (.processing item) =>
        some { s with workers := s.workers.set i (.inserting ⟨item.order, fn item.data⟩) }
      | _ => none
    | .insert i =>
      match s.workers[i]? with
      | some (.inserting item) =>
        if s.holder = none then
          some { s with
            holder := some i
            outHeap := s.outHeap ++ [item]
            workers := s.workers.set i .draining }
        else none
      | _ => none
    | .drain i =>
      match s.workers[i]? with
      | some .draining =>
        if peekOrder s.outHeap = s.outCount then
          match extractMin WorkItem.order s.outHeap with
          | some (top, rest) =>
            some { s with
              outHeap := rest
              out := s.out ++ [top.data]
              outCount := s.outCount + 1
              panicked := s.outClosed }
          | none => some { s with panicked := true }
        else some { s with holder := none, workers := s.workers.set i .receiving }
      | _ => none
    | .exitCheck i =>
      match s.workers[i]? with
      | some .exiting =>
        if s.holder = none then
          if s.outCount = s.inCount then
            some { s with
              outCount := s.outCount + 1
              outClosed := true
              panicked := s.outClosed
              workers := s.workers.set i .exited }
          else some { s with workers := s.workers.set i .exited }
        else none
      | _ => none

/-! ## What each event does -/

variable {input fn} {s s' : Pool β γ} {i : Nat}

theorem step_receiveInput (h : step input fn s .receiveInput = some s') :
    s.producer = .receiving ∧
      s' = { s with
        producer := match input[s.inCount]? with
          | some x => .sending x
          | none => .closing } := by
  unfold step at h
  split at h
  · cases h
  · dsimp only at h
    split at h
    · exact ⟨‹_›, (Option.some.inj h).symm⟩
    · cases h

theorem step_dispatch (h : step input fn s (.dispatch i) = some s') :
    ∃ x, s.producer = .sending x ∧ s.workers[i]? = some .receiving ∧
      s' = { s with
        producer := .incrementing
        workers := s.workers.set i (.processing ⟨s.inCount, x⟩) } := by
  unfold step at h
  split at h
  · cases h
  · dsimp only at h
    split at h
    · rename_i x hp hw
      exact ⟨x, hp, hw, (Option.some.inj h).symm⟩
    · cases h

theorem step_increment (h : step input fn s .increment = some s') :
    s.producer = .incrementing ∧
      s' = { s with producer := .receiving, inCount := s.inCount + 1 } := by
  unfold step at h
  split at h
  · cases h
  · dsimp only at h
    split at h
    · exact ⟨‹_›, (Option.some.inj h).symm⟩
    · cases h

theorem step_closeWq (h : step input fn s .closeWq = some s') :
    s.producer = .closing ∧ s' = { s with producer := .exited, wqClosed := true } := by
  unfold step at h
  split at h
  · cases h
  · dsimp only at h
    split at h
    · exact ⟨‹_›, (Option.some.inj h).symm⟩
    · cases h

theorem step_finishRange (h : step input fn s (.finishRange i) = some s') :
    s.workers[i]? = some .receiving ∧ s.wqClosed = true ∧
      s' = { s with workers := s.workers.set i .exiting } := by
  unfold step at h
  split at h
  · cases h
  · dsimp only at h
    split at h
    · split at h
      · exact ⟨‹_›, ‹_›, (Option.some.inj h).symm⟩
      · cases h
    · cases h

theorem step_process (h : step input fn s (.process i) = some s') :
    ∃ item, s.workers[i]? = some (.processing item) ∧
      s' = { s with workers := s.workers.set i (.inserting ⟨item.order, fn item.data⟩) } := by
  unfold step at h
  split at h
  · cases h
  · dsimp only at h
    split at h
    · rename_i item hw
      exact ⟨item, hw, (Option.some.inj h).symm⟩
    · cases h

theorem step_insert (h : step input fn s (.insert i) = some s') :
    ∃ item, s.workers[i]? = some (.inserting item) ∧ s.holder = none ∧
      s' = { s with
        holder := some i
        outHeap := s.outHeap ++ [item]
        workers := s.workers.set i .draining } := by
  unfold step at h
  split at h
  · cases h
  · dsimp only at h
    split at h
    · rename_i item hw
      split at h
      · exact ⟨item, hw, ‹_›, (Option.some.inj h).symm⟩
      · cases h
    · cases h

/-- `drain` pops the least item and sends it, pops the empty heap, or releases the mutex. -/
theorem step_drain (h : step input fn s (.drain i) = some s') :
    s.workers[i]? = some .draining ∧
      ((∃ top rest, peekOrder s.outHeap = s.outCount ∧
          extractMin WorkItem.order s.outHeap = some (top, rest) ∧
          s' = { s with
            outHeap := rest
            out := s.out ++ [top.data]
            outCount := s.outCount + 1
            panicked := s.outClosed }) ∨
        (peekOrder s.outHeap = s.outCount ∧ extractMin WorkItem.order s.outHeap = none) ∨
        (peekOrder s.outHeap ≠ s.outCount ∧
          s' = { s with holder := none, workers := s.workers.set i .receiving })) := by
  unfold step at h
  split at h
  · cases h
  · dsimp only at h
    split at h
    · rename_i hw
      refine ⟨hw, ?_⟩
      split at h
      · rename_i hpeek
        split at h
        · rename_i top rest hmin
          exact .inl ⟨top, rest, hpeek, hmin, (Option.some.inj h).symm⟩
        · exact .inr (.inl ⟨hpeek, ‹_›⟩)
      · exact .inr (.inr ⟨‹_›, (Option.some.inj h).symm⟩)
    · cases h

/-- `exitCheck` closes `out` when `outCount == inCount`, and only exits otherwise. -/
theorem step_exitCheck (h : step input fn s (.exitCheck i) = some s') :
    s.workers[i]? = some .exiting ∧ s.holder = none ∧
      ((s.outCount = s.inCount ∧
          s' = { s with
            outCount := s.outCount + 1
            outClosed := true
            panicked := s.outClosed
            workers := s.workers.set i .exited }) ∨
        (s.outCount ≠ s.inCount ∧ s' = { s with workers := s.workers.set i .exited })) := by
  unfold step at h
  split at h
  · cases h
  · dsimp only at h
    split at h
    · rename_i hw
      split at h
      · rename_i hfree
        split at h
        · exact ⟨hw, hfree, .inl ⟨‹_›, (Option.some.inj h).symm⟩⟩
        · exact ⟨hw, hfree, .inr ⟨‹_›, (Option.some.inj h).symm⟩⟩
      · cases h
    · cases h

end Step

/-! ## The invariant -/

section Inv

variable {β γ : Type}

/-- The number of the item a worker holds while it processes or inserts it. -/
def WorkerPc.order? : WorkerPc β γ → Option Nat
  | .processing item => some item.order
  | .inserting item => some item.order
  | _ => none

/-- How many places hold the item numbered `k`: the workers and the entries of the heap. -/
def Pool.holding (s : Pool β γ) (k : Nat) : Nat :=
  s.workers.countP (fun w => w.order? == some k) + s.outHeap.countP (fun it => it.order == k)

/-- How many values the producer has sent on `wq`: `inCount`, and one more between a send and
its `inCount++`. -/
def Pool.dispatched (s : Pool β γ) : Nat :=
  match s.producer with
  | .incrementing => s.inCount + 1
  | _ => s.inCount

/-- What the producer's place says of `inCount`. -/
def ProducerPc.Ok (input : List β) (inCount : Nat) : ProducerPc β → Prop
  | .receiving => inCount ≤ input.length
  | .sending x => input[inCount]? = some x
  | .incrementing => inCount < input.length
  | .closing => inCount = input.length
  | .exited => inCount = input.length

/-- What a worker's place says: the item it processes is the input at its number, the item it
inserts is `fn` of that input, and it has left its loop only if `wq` is closed. -/
def WorkerPc.Ok (input : List β) (fn : β → γ) (wqClosed : Bool) : WorkerPc β γ → Prop
  | .processing item => input[item.order]? = some item.data
  | .inserting item => (input.map fn)[item.order]? = some item.data
  | .exiting => wqClosed = true
  | .exited => wqClosed = true
  | _ => True

/-- The invariant of every schedule from `Pool.init`. -/
structure Pool.Inv (input : List β) (fn : β → γ) (s : Pool β γ) : Prop where
  not_panicked : s.panicked = false
  producer_ok : s.producer.Ok input s.inCount
  wqClosed_iff : s.wqClosed = true ↔ s.producer = .exited
  workers_ok : ∀ w ∈ s.workers, w.Ok input fn s.wqClosed
  heap_ok : ∀ it ∈ s.outHeap, (input.map fn)[it.order]? = some it.data
  /-- the mutex is held by the worker that drains -/
  draining_iff : ∀ j, s.workers[j]? = some .draining ↔ s.holder = some j
  /-- each dispatched item not yet sent is in one place, and no other item is anywhere -/
  holding_eq : ∀ k, s.holding k = if s.outCount ≤ k ∧ k < s.dispatched then 1 else 0
  out_eq : s.out = (input.map fn).take s.outCount
  outCount_le : s.outClosed = false → s.outCount ≤ s.dispatched
  outClosed_eq : s.outClosed = true → s.outCount = input.length + 1 ∧ s.producer = .exited
  /-- with the mutex free, the next item due is not on the heap -/
  unlocked_ready : s.holder = none → ∀ it ∈ s.outHeap, it.order ≠ s.outCount
  locked_ready : s.holder ≠ none → s.outHeap ≠ [] ∨ 0 < s.outCount
  open_until_exit : s.outClosed = false → ∃ w ∈ s.workers, w ≠ .exited

variable {input : List β} {fn : β → γ} {s : Pool β γ} {i : Nat} {w w' : WorkerPc β γ}

theorem WorkerPc.Ok.mono {b b' : Bool} (h : w.Ok input fn b) (hb : b = true → b' = true) :
    w.Ok input fn b' := by
  cases w with
  | exiting => exact hb h
  | exited => exact hb h
  | _ => exact h

theorem peekOrder_of_extractMin {h : List (WorkItem γ)} {top : WorkItem γ}
    {rest : List (WorkItem γ)}
    (hmin : extractMin WorkItem.order h = some (top, rest)) : peekOrder h = top.order := by
  simp [peekOrder, hmin]

theorem peekOrder_nil : peekOrder ([] : List (WorkItem γ)) = 0 := rfl

/-- A worker moved to a place with the same item keeps the count of every item. -/
theorem countP_order_set {ws : List (WorkerPc β γ)} (hi : ws[i]? = some w) (v' : WorkerPc β γ)
    (horder : v'.order? = w.order?) (k : Nat) :
    (ws.set i v').countP (fun v => v.order? == some k) =
      ws.countP (fun v => v.order? == some k) := by
  have hset := countP_set_add (fun v : WorkerPc β γ => v.order? == some k) v' hi
  simp only [horder] at hset
  omega

namespace Pool.Inv

theorem dispatched_le (hs : s.Inv input fn) : s.dispatched ≤ input.length := by
  have h := hs.producer_ok
  unfold Pool.dispatched
  cases hp : s.producer with
  | receiving => rw [hp] at h; exact h
  | sending x => rw [hp] at h; exact Nat.le_of_lt (List.getElem?_eq_some_iff.mp h).1
  | incrementing => rw [hp] at h; exact h
  | closing => rw [hp] at h; exact Nat.le_of_eq h
  | exited => rw [hp] at h; exact Nat.le_of_eq h

theorem outClosed_of_not_exited (hs : s.Inv input fn) (hp : s.producer ≠ .exited) :
    s.outClosed = false := by
  cases hc : s.outClosed with
  | false => rfl
  | true => exact absurd (hs.outClosed_eq hc).2 hp

/-- An item on the heap is dispatched and not yet sent. -/
theorem bounds_of_mem_heap (hs : s.Inv input fn) {it : WorkItem γ} (hit : it ∈ s.outHeap) :
    s.outCount ≤ it.order ∧ it.order < s.dispatched := by
  have hpos : 0 < s.holding it.order := by
    have : 0 < s.outHeap.countP (fun it' => it'.order == it.order) :=
      List.countP_pos_iff.mpr ⟨it, hit, by simp⟩
    unfold Pool.holding
    omega
  rw [hs.holding_eq] at hpos
  split at hpos
  · assumption
  · omega

/-- A worker that has left its loop saw `wq` closed, after the producer read all the input. -/
theorem closed_of_exiting (hs : s.Inv input fn) (hi : s.workers[i]? = some .exiting) :
    s.wqClosed = true ∧ s.producer = .exited ∧ s.inCount = input.length ∧
      s.dispatched = input.length := by
  have hwq : s.wqClosed = true := hs.workers_ok _ (List.mem_of_getElem? hi)
  have hp : s.producer = .exited := hs.wqClosed_iff.mp hwq
  have hc : s.inCount = input.length := by
    have h := hs.producer_ok
    rw [hp] at h
    exact h
  refine ⟨hwq, hp, hc, ?_⟩
  simp [Pool.dispatched, hp, hc]

theorem draining_iff_setWorker (hs : s.Inv input fn) (hi : s.workers[i]? = some w)
    (hw : w ≠ .draining) (hw' : w' ≠ .draining) (j : Nat) :
    (s.workers.set i w')[j]? = some .draining ↔ s.holder = some j := by
  rw [getElem?_set_of_getElem? hi j]
  split
  · rename_i hij
    subst hij
    rw [← hs.draining_iff i, hi]
    simp [hw, hw']
  · exact hs.draining_iff j

/-! ### The producer's steps -/

/-- The producer's steps change its place, `inCount` and `wq` only. -/
theorem producer_frame (hs : s.Inv input fn) (hopen : s.outClosed = false) {P : ProducerPc β}
    {c : Nat} {b : Bool} (hwq : s.wqClosed = true → b = true)
    (hd : ({ s with producer := P, inCount := c, wqClosed := b } : Pool β γ).dispatched =
      s.dispatched)
    (hprod : P.Ok input c) (hwqiff : b = true ↔ P = .exited) :
    ({ s with producer := P, inCount := c, wqClosed := b } : Pool β γ).Inv input fn where
  not_panicked := hs.not_panicked
  producer_ok := hprod
  wqClosed_iff := hwqiff
  workers_ok := fun v hv => (hs.workers_ok v hv).mono hwq
  heap_ok := hs.heap_ok
  draining_iff := hs.draining_iff
  holding_eq := by
    rw [hd]
    exact hs.holding_eq
  out_eq := hs.out_eq
  outCount_le := by
    rw [hd]
    exact hs.outCount_le
  outClosed_eq := fun h => absurd (hopen.symm.trans h) Bool.false_ne_true
  unlocked_ready := hs.unlocked_ready
  locked_ready := hs.locked_ready
  open_until_exit := hs.open_until_exit

theorem receiveInput {s' : Pool β γ} (hs : s.Inv input fn)
    (h : step input fn s .receiveInput = some s') : s'.Inv input fn := by
  obtain ⟨hp, rfl⟩ := step_receiveInput h
  have hle : s.inCount ≤ input.length := by
    have h := hs.producer_ok
    rw [hp] at h
    exact h
  have hwq : s.wqClosed = false := by
    cases hc : s.wqClosed with
    | false => rfl
    | true => simp [hs.wqClosed_iff.mp hc] at hp
  have hopen : s.outClosed = false := hs.outClosed_of_not_exited (by simp [hp])
  -- the producer reads the value numbered `inCount`, or the close of `input`
  cases hx : input[s.inCount]? with
  | none =>
    have hc : s.inCount = input.length := le_antisymm hle (List.getElem?_eq_none_iff.mp hx)
    refine hs.producer_frame hopen (by simp [hwq]) ?_ hc (by simp [hwq])
    simp [Pool.dispatched, hp]
  | some x =>
    refine hs.producer_frame hopen (by simp [hwq]) ?_ hx (by simp [hwq])
    simp [Pool.dispatched, hp]

theorem increment {s' : Pool β γ} (hs : s.Inv input fn)
    (h : step input fn s .increment = some s') :
    s'.Inv input fn := by
  obtain ⟨hp, rfl⟩ := step_increment h
  have hlt : s.inCount < input.length := by
    have h := hs.producer_ok
    rw [hp] at h
    exact h
  have hwq : s.wqClosed = false := by
    cases hc : s.wqClosed with
    | false => rfl
    | true => simp [hs.wqClosed_iff.mp hc] at hp
  refine hs.producer_frame (hs.outClosed_of_not_exited (by simp [hp])) (by simp [hwq]) ?_
    (show s.inCount + 1 ≤ input.length by omega) (by simp [hwq])
  simp [Pool.dispatched, hp]

theorem closeWq {s' : Pool β γ} (hs : s.Inv input fn) (h : step input fn s .closeWq = some s') :
    s'.Inv input fn := by
  obtain ⟨hp, rfl⟩ := step_closeWq h
  have hc : s.inCount = input.length := by
    have h := hs.producer_ok
    rw [hp] at h
    exact h
  refine hs.producer_frame (hs.outClosed_of_not_exited (by simp [hp])) (fun _ => rfl) ?_ hc
    (iff_of_true rfl rfl)
  simp [Pool.dispatched, hp]

/-! ### The workers' steps -/

/-- A worker moved to a place with the same item, neither place draining, keeps the invariant
when some worker is left that has not exited. -/
theorem worker_frame (hs : s.Inv input fn) (hi : s.workers[i]? = some w)
    (horder : w'.order? = w.order?) (hw : w ≠ .draining) (hw' : w' ≠ .draining)
    (hok : w'.Ok input fn s.wqClosed)
    (hopen : s.outClosed = false → ∃ v ∈ s.workers.set i w', v ≠ .exited) :
    ({ s with workers := s.workers.set i w' } : Pool β γ).Inv input fn where
  not_panicked := hs.not_panicked
  producer_ok := hs.producer_ok
  wqClosed_iff := hs.wqClosed_iff
  workers_ok := fun v hv => by
    rcases List.mem_or_eq_of_mem_set hv with hv | rfl
    · exact hs.workers_ok v hv
    · exact hok
  heap_ok := hs.heap_ok
  draining_iff := hs.draining_iff_setWorker hi hw hw'
  holding_eq := fun k => by
    simp only [Pool.holding, countP_order_set hi w' horder]
    exact hs.holding_eq k
  out_eq := hs.out_eq
  outCount_le := hs.outCount_le
  outClosed_eq := hs.outClosed_eq
  unlocked_ready := hs.unlocked_ready
  locked_ready := hs.locked_ready
  open_until_exit := hopen

theorem finishRange {s' : Pool β γ} (hs : s.Inv input fn)
    (h : step input fn s (.finishRange i) = some s') : s'.Inv input fn := by
  obtain ⟨hi, hwq, rfl⟩ := step_finishRange h
  exact hs.worker_frame hi rfl (by simp) (by simp) hwq
    (fun _ => ⟨_, mem_set_of_getElem? hi, by simp⟩)

theorem process {s' : Pool β γ} (hs : s.Inv input fn)
    (h : step input fn s (.process i) = some s') : s'.Inv input fn := by
  obtain ⟨item, hi, rfl⟩ := step_process h
  have hin : input[item.order]? = some item.data := hs.workers_ok _ (List.mem_of_getElem? hi)
  have hok : (input.map fn)[item.order]? = some (fn item.data) := by simp [hin]
  exact hs.worker_frame hi rfl (by simp) (by simp) hok
    (fun _ => ⟨_, mem_set_of_getElem? hi, by simp⟩)

/-- A value sent on `wq` is the input numbered `inCount`, and the first item of that number. -/
theorem dispatch {s' : Pool β γ} (hs : s.Inv input fn)
    (h : step input fn s (.dispatch i) = some s') : s'.Inv input fn := by
  obtain ⟨x, hp, hi, rfl⟩ := step_dispatch h
  have hx : input[s.inCount]? = some x := by
    have h := hs.producer_ok
    rw [hp] at h
    exact h
  have hwq : s.wqClosed = false := by
    cases hc : s.wqClosed with
    | false => rfl
    | true => simp [hs.wqClosed_iff.mp hc] at hp
  have hopen : s.outClosed = false := hs.outClosed_of_not_exited (by simp [hp])
  have hd : s.dispatched = s.inCount := by simp [Pool.dispatched, hp]
  have hle : s.outCount ≤ s.inCount := hd ▸ hs.outCount_le hopen
  -- the worker's new item is one more holder of the number `inCount`
  have hcount : ∀ k, (s.workers.set i (.processing ⟨s.inCount, x⟩)).countP
      (fun v => v.order? == some k) =
      s.workers.countP (fun v => v.order? == some k) + if s.inCount = k then 1 else 0 := by
    intro k
    have hset := countP_set_add (fun v : WorkerPc β γ => v.order? == some k)
      (.processing ⟨s.inCount, x⟩) hi
    by_cases hk : s.inCount = k
    · simp [WorkerPc.order?, hk] at hset ⊢
      omega
    · simp [WorkerPc.order?, hk] at hset ⊢
      omega
  exact {
    not_panicked := hs.not_panicked
    producer_ok := (List.getElem?_eq_some_iff.mp hx).1
    wqClosed_iff := by simp [hwq]
    workers_ok := fun v hv => by
      rcases List.mem_or_eq_of_mem_set hv with hv | rfl
      · exact hs.workers_ok v hv
      · exact hx
    heap_ok := hs.heap_ok
    draining_iff := hs.draining_iff_setWorker hi (by simp) (by simp)
    holding_eq := fun k => by
      have h0 := hs.holding_eq k
      rw [hd] at h0
      show Pool.holding _ k = if s.outCount ≤ k ∧ k < s.inCount + 1 then 1 else 0
      simp only [Pool.holding, hcount] at h0 ⊢
      by_cases hk : s.inCount = k
      · -- the item just dispatched, held by the worker only
        subst hk
        rw [if_neg (by omega)] at h0
        rw [if_pos rfl, if_pos ⟨hle, Nat.lt_succ_self _⟩]
        omega
      · rw [if_neg hk]
        split at h0 <;> split <;> omega
    out_eq := hs.out_eq
    outCount_le := fun _ => by
      simp only [Pool.dispatched]
      omega
    outClosed_eq := fun h => absurd (hopen.symm.trans h) Bool.false_ne_true
    unlocked_ready := hs.unlocked_ready
    locked_ready := hs.locked_ready
    open_until_exit := fun _ => ⟨_, mem_set_of_getElem? hi, by simp⟩ }

/-- A worker takes the free mutex and moves its item to the heap. -/
theorem insert {s' : Pool β γ} (hs : s.Inv input fn)
    (h : step input fn s (.insert i) = some s') : s'.Inv input fn := by
  obtain ⟨item, hi, hfree, rfl⟩ := step_insert h
  have hok : (input.map fn)[item.order]? = some item.data :=
    hs.workers_ok _ (List.mem_of_getElem? hi)
  -- the item leaves the worker for the heap
  have hcount : ∀ k, (s.workers.set i .draining).countP (fun v => v.order? == some k) +
      (if item.order = k then 1 else 0) = s.workers.countP (fun v => v.order? == some k) := by
    intro k
    have hset := countP_set_add (fun v : WorkerPc β γ => v.order? == some k) .draining hi
    by_cases hk : item.order = k
    · simp [WorkerPc.order?, hk] at hset ⊢
      omega
    · simp [WorkerPc.order?, hk] at hset ⊢
      omega
  exact {
    not_panicked := hs.not_panicked
    producer_ok := hs.producer_ok
    wqClosed_iff := hs.wqClosed_iff
    workers_ok := fun v hv => by
      rcases List.mem_or_eq_of_mem_set hv with hv | rfl
      · exact hs.workers_ok v hv
      · trivial
    heap_ok := fun it hit =>
      (List.mem_append.mp hit).elim (hs.heap_ok it) (fun h => (List.mem_singleton.mp h) ▸ hok)
    draining_iff := fun j => by
      rw [getElem?_set_of_getElem? hi j]
      split
      · rename_i hij
        simp [hij]
      · rename_i hij
        rw [hs.draining_iff j, hfree]
        simp [hij]
    holding_eq := fun k => by
      have h0 := hs.holding_eq k
      have hk := hcount k
      show Pool.holding _ k = if s.outCount ≤ k ∧ k < s.dispatched then 1 else 0
      simp only [Pool.holding, List.countP_append, List.countP_singleton, beq_iff_eq] at h0 hk ⊢
      omega
    out_eq := hs.out_eq
    outCount_le := hs.outCount_le
    outClosed_eq := hs.outClosed_eq
    unlocked_ready := fun h => absurd h (by simp)
    locked_ready := fun _ => .inl (by simp)
    open_until_exit := fun _ => ⟨_, mem_set_of_getElem? hi, by simp⟩ }

/-- The least item on the heap is the next one due: it is `fn` of that input, and sending it
keeps the invariant. -/
theorem pop (hs : s.Inv input fn) (hi : s.workers[i]? = some .draining)
    (hpeek : peekOrder s.outHeap = s.outCount) {top : WorkItem γ} {rest : List (WorkItem γ)}
    (hmin : extractMin WorkItem.order s.outHeap = some (top, rest)) :
    ({ s with
        outHeap := rest
        out := s.out ++ [top.data]
        outCount := s.outCount + 1
        panicked := s.outClosed } : Pool β γ).Inv input fn := by
  have htop : top.order = s.outCount := (peekOrder_of_extractMin hmin).symm.trans hpeek
  have hmem : top ∈ s.outHeap := mem_of_extractMin hmin
  have hbound := hs.bounds_of_mem_heap hmem
  have hlen := hs.dispatched_le
  have hopen : s.outClosed = false := by
    cases hc : s.outClosed with
    | false => rfl
    | true =>
      have := (hs.outClosed_eq hc).1
      omega
  have hdata : (input.map fn)[s.outCount]? = some top.data := htop ▸ hs.heap_ok top hmem
  have hperm := extractMin_perm hmin
  -- the heap loses the one item numbered `outCount`
  have hcount : ∀ k, rest.countP (fun it => it.order == k) + (if s.outCount = k then 1 else 0) =
      s.outHeap.countP (fun it => it.order == k) := by
    intro k
    rw [hperm.countP_eq, List.countP_cons, htop]
    by_cases hk : s.outCount = k <;> simp [hk]
  have hheld : s.holder = some i := (hs.draining_iff i).mp hi
  exact {
    not_panicked := hopen
    producer_ok := hs.producer_ok
    wqClosed_iff := hs.wqClosed_iff
    workers_ok := hs.workers_ok
    heap_ok := fun it hit => hs.heap_ok it (hperm.symm.subset (List.mem_cons_of_mem _ hit))
    draining_iff := hs.draining_iff
    holding_eq := fun k => by
      have h0 := hs.holding_eq k
      have hk := hcount k
      show Pool.holding _ k = if s.outCount + 1 ≤ k ∧ k < s.dispatched then 1 else 0
      simp only [Pool.holding] at h0 ⊢
      by_cases hdue : s.outCount = k
      · -- the item sent, which was on the heap only
        subst hdue
        rw [if_pos ⟨le_refl _, htop ▸ hbound.2⟩] at h0
        rw [if_pos rfl] at hk
        rw [if_neg (by omega)]
        omega
      · rw [if_neg hdue] at hk
        split at h0 <;> split <;> omega
    out_eq := by
      rw [hs.out_eq, List.take_add_one, hdata]
      rfl
    outCount_le := fun _ => by
      show s.outCount + 1 ≤ s.dispatched
      omega
    outClosed_eq := fun h => absurd (hopen.symm.trans h) Bool.false_ne_true
    unlocked_ready := fun h => absurd (hheld.symm.trans h) (by simp)
    locked_ready := fun _ => .inr (Nat.succ_pos _)
    open_until_exit := hs.open_until_exit }

/-- The heap is never popped empty: a worker drains only holding the mutex, after a push or a
send. -/
theorem not_pop_empty (hs : s.Inv input fn) (hi : s.workers[i]? = some .draining)
    (hpeek : peekOrder s.outHeap = s.outCount)
    (hnone : extractMin WorkItem.order s.outHeap = none) : False := by
  have hnil : s.outHeap = [] := extractMin_eq_none_iff.mp hnone
  have hheld : s.holder ≠ none := by
    rw [(hs.draining_iff i).mp hi]
    simp
  rw [hnil, peekOrder_nil] at hpeek
  rcases hs.locked_ready hheld with h | h
  · exact h hnil
  · omega

/-- A worker leaves the drain loop when the least item is not the one due; the item due is then
nowhere on the heap. -/
theorem unlock (hs : s.Inv input fn) (hi : s.workers[i]? = some .draining)
    (hpeek : peekOrder s.outHeap ≠ s.outCount) :
    ({ s with holder := none, workers := s.workers.set i .receiving } : Pool β γ).Inv input fn
    where
  not_panicked := hs.not_panicked
  producer_ok := hs.producer_ok
  wqClosed_iff := hs.wqClosed_iff
  workers_ok := fun v hv => by
    rcases List.mem_or_eq_of_mem_set hv with hv | rfl
    · exact hs.workers_ok v hv
    · trivial
  heap_ok := hs.heap_ok
  draining_iff := fun j => by
    rw [getElem?_set_of_getElem? hi j]
    split
    · simp
    · rename_i hij
      rw [hs.draining_iff j, (hs.draining_iff i).mp hi]
      simp [hij]
  holding_eq := fun k => by
    show Pool.holding _ k = if s.outCount ≤ k ∧ k < s.dispatched then 1 else 0
    simp only [Pool.holding, countP_order_set hi .receiving rfl]
    exact hs.holding_eq k
  out_eq := hs.out_eq
  outCount_le := hs.outCount_le
  outClosed_eq := hs.outClosed_eq
  unlocked_ready := fun _ it hit hdue => by
    change it.order = s.outCount at hdue
    cases hmin : extractMin WorkItem.order s.outHeap with
    | none =>
      rw [extractMin_eq_none_iff] at hmin
      rw [hmin] at hit
      exact List.not_mem_nil hit
    | some p =>
      obtain ⟨top, rest⟩ := p
      have hle := extractMin_le hmin hit
      have hb := (hs.bounds_of_mem_heap (mem_of_extractMin hmin)).1
      have htop := peekOrder_of_extractMin hmin
      omega
  locked_ready := fun h => absurd rfl h
  open_until_exit := fun _ => ⟨_, mem_set_of_getElem? hi, by simp⟩

theorem drain {s' : Pool β γ} (hs : s.Inv input fn)
    (h : step input fn s (.drain i) = some s') : s'.Inv input fn := by
  obtain ⟨hi, ⟨top, rest, hpeek, hmin, rfl⟩ | ⟨hpeek, hnone⟩ | ⟨hpeek, rfl⟩⟩ :=
    step_drain h
  · exact hs.pop hi hpeek hmin
  · exact (hs.not_pop_empty hi hpeek hnone).elim
  · exact hs.unlock hi hpeek

/-- The last worker to leave finds every item sent: were `outCount` short of `inCount`, the item
due would be on the heap with the mutex free. -/
theorem exists_not_exited (hs : s.Inv input fn) (hi : s.workers[i]? = some .exiting)
    (hfree : s.holder = none) (hne : s.outCount ≠ s.inCount) (hopen : s.outClosed = false) :
    ∃ v ∈ s.workers.set i .exited, v ≠ .exited := by
  obtain ⟨-, -, hc, hd⟩ := hs.closed_of_exiting hi
  by_contra hsome
  have hall : ∀ v ∈ s.workers.set i .exited, v = .exited := fun v hv => by
    by_contra hne
    exact hsome ⟨v, hv, hne⟩
  -- no worker holds an item, so the item due is on the heap
  have hnone : ∀ v ∈ s.workers, v.order? = none := by
    intro v hv
    rcases mem_set_or hi hv with rfl | hv'
    · rfl
    · rw [hall v hv']
      rfl
  have hlt : s.outCount < s.dispatched := by
    have := hs.outCount_le hopen
    omega
  have hheld := hs.holding_eq s.outCount
  rw [if_pos ⟨le_refl _, hlt⟩] at hheld
  have hw0 : s.workers.countP (fun v => v.order? == some s.outCount) = 0 :=
    List.countP_eq_zero.mpr (fun v hv => by simp [hnone v hv])
  have hpos : 0 < s.outHeap.countP (fun it => it.order == s.outCount) := by
    unfold Pool.holding at hheld
    omega
  obtain ⟨it, hit, hord⟩ := List.countP_pos_iff.mp hpos
  exact hs.unlocked_ready hfree it hit (by simpa using hord)

/-- The worker that finds `outCount == inCount` closes `out`, after every value was sent. -/
theorem closeOut (hs : s.Inv input fn) (hi : s.workers[i]? = some .exiting)
    (hfree : s.holder = none) (hdue : s.outCount = s.inCount) :
    ({ s with
        outCount := s.outCount + 1
        outClosed := true
        panicked := s.outClosed
        workers := s.workers.set i .exited } : Pool β γ).Inv input fn := by
  obtain ⟨hwq, hp, hc, hd⟩ := hs.closed_of_exiting hi
  have hopen : s.outClosed = false := by
    cases h : s.outClosed with
    | false => rfl
    | true =>
      have := (hs.outClosed_eq h).1
      omega
  have hempty : ∀ it ∈ s.outHeap, False := fun it hit => by
    have := hs.bounds_of_mem_heap hit
    omega
  exact {
    not_panicked := hopen
    producer_ok := hs.producer_ok
    wqClosed_iff := hs.wqClosed_iff
    workers_ok := fun v hv => by
      rcases List.mem_or_eq_of_mem_set hv with hv | rfl
      · exact hs.workers_ok v hv
      · exact hwq
    heap_ok := hs.heap_ok
    draining_iff := hs.draining_iff_setWorker hi (by simp) (by simp)
    holding_eq := fun k => by
      have h0 := hs.holding_eq k
      rw [if_neg (by omega)] at h0
      show Pool.holding _ k = if s.outCount + 1 ≤ k ∧ k < s.dispatched then 1 else 0
      rw [if_neg (by omega)]
      simp only [Pool.holding, countP_order_set hi .exited rfl] at h0 ⊢
      exact h0
    out_eq := by
      rw [hs.out_eq, hdue, hc, List.take_of_length_le (by simp),
        List.take_of_length_le (by simp)]
    outCount_le := fun h => absurd h (by simp)
    outClosed_eq := fun _ => ⟨by
      show s.outCount + 1 = input.length + 1
      omega, hp⟩
    unlocked_ready := fun _ it hit => (hempty it hit).elim
    locked_ready := fun h => absurd hfree h
    open_until_exit := fun h => absurd h (by simp) }

theorem exitCheck {s' : Pool β γ} (hs : s.Inv input fn)
    (h : step input fn s (.exitCheck i) = some s') : s'.Inv input fn := by
  obtain ⟨hi, hfree, ⟨hdue, rfl⟩ | ⟨hne, rfl⟩⟩ := step_exitCheck h
  · exact hs.closeOut hi hfree hdue
  · exact hs.worker_frame hi rfl (by simp) (by simp) (hs.closed_of_exiting hi).1
      (hs.exists_not_exited hi hfree hne)

/-- Every event keeps the invariant. -/
theorem step_inv {s' : Pool β γ} {e : Event} (hs : s.Inv input fn)
    (h : step input fn s e = some s') : s'.Inv input fn := by
  cases e with
  | receiveInput => exact hs.receiveInput h
  | dispatch i => exact hs.dispatch h
  | increment => exact hs.increment h
  | closeWq => exact hs.closeWq h
  | finishRange i => exact hs.finishRange h
  | process i => exact hs.process h
  | insert i => exact hs.insert h
  | drain i => exact hs.drain h
  | exitCheck i => exact hs.exitCheck h

end Pool.Inv

end Inv

/-! ## Every schedule -/

section Runs

variable {β γ : Type} {input : List β} {fn : β → γ} {s s' : Pool β γ} {i : Nat}
  {w : WorkerPc β γ}

theorem Pool.init_inv {parallelism : Nat} (hp : 1 ≤ parallelism) :
    (Pool.init parallelism : Pool β γ).Inv input fn where
  not_panicked := rfl
  producer_ok := Nat.zero_le _
  wqClosed_iff := by simp [Pool.init]
  workers_ok := fun v hv => by
    rw [(List.mem_replicate.mp hv).2]
    trivial
  heap_ok := fun _ hit => absurd hit List.not_mem_nil
  draining_iff := fun j => by
    simp [Pool.init, List.getElem?_replicate]
  holding_eq := fun k => by
    simp [Pool.holding, Pool.init, Pool.dispatched, WorkerPc.order?]
  out_eq := rfl
  outCount_le := fun _ => Nat.zero_le _
  outClosed_eq := fun h => absurd h (by simp [Pool.init])
  unlocked_ready := fun _ _ hit => absurd hit List.not_mem_nil
  locked_ready := fun h => absurd rfl h
  open_until_exit := fun _ => ⟨.receiving, List.mem_replicate.mpr ⟨by omega, rfl⟩, by simp⟩

/-- The invariant holds after every schedule. -/
theorem Pool.inv_of_run {parallelism : Nat} (hp : 1 ≤ parallelism) {es : List Event}
    (h : runEvents (step input fn) (Pool.init parallelism) es = some s) : s.Inv input fn :=
  runEvents_invariant (fun _ _ _ hs hstep => hs.step_inv hstep) (Pool.init_inv hp) h

/-- A worker that has not exited can take a step, or the worker holding the mutex can. -/
theorem Pool.Inv.enabled (hs : s.Inv input fn) (hi : s.workers[i]? = some w)
    (hw : w ≠ .exited) : ∃ e, (step input fn s e).isSome := by
  have hnp := hs.not_panicked
  -- the holder of the mutex can always test the heap
  have hdrain : ∀ j, s.holder = some j → (step input fn s (.drain j)).isSome := by
    intro j hj
    have hj' := (hs.draining_iff j).mpr hj
    simp only [step, hnp, hj', Bool.false_eq_true, if_false]
    split
    · split <;> rfl
    · rfl
  cases w with
  | receiving =>
    cases hwq : s.wqClosed with
    | true => exact ⟨.finishRange i, by simp [step, hnp, hi, hwq]⟩
    | false =>
      -- the producer is not done, so it can step or is sending to this worker
      cases hp : s.producer with
      | receiving => exact ⟨.receiveInput, by simp [step, hnp, hp]⟩
      | sending x => exact ⟨.dispatch i, by simp [step, hnp, hp, hi]⟩
      | incrementing => exact ⟨.increment, by simp [step, hnp, hp]⟩
      | closing => exact ⟨.closeWq, by simp [step, hnp, hp]⟩
      | exited => simp [hs.wqClosed_iff.mpr hp] at hwq
  | processing item => exact ⟨.process i, by simp [step, hnp, hi]⟩
  | inserting item =>
    cases hh : s.holder with
    | none => exact ⟨.insert i, by simp [step, hnp, hi, hh]⟩
    | some j => exact ⟨.drain j, hdrain j hh⟩
  | draining => exact ⟨.drain i, hdrain i ((hs.draining_iff i).mp hi)⟩
  | exiting =>
    cases hh : s.holder with
    | none =>
      refine ⟨.exitCheck i, ?_⟩
      simp only [step, hnp, hi, hh, Bool.false_eq_true, if_false, if_true]
      split <;> rfl
    | some j => exact ⟨.drain j, hdrain j hh⟩
  | exited => exact absurd rfl hw

/-- A schedule that can go no further has closed `out`. -/
theorem Pool.Inv.outClosed_of_stuck (hs : s.Inv input fn) (hstuck : Stuck (step input fn) s) :
    s.outClosed = true := by
  cases hc : s.outClosed with
  | true => rfl
  | false =>
    obtain ⟨v, hv, hne⟩ := hs.open_until_exit hc
    obtain ⟨j, hj⟩ := List.mem_iff_getElem?.mp hv
    obtain ⟨e, he⟩ := hs.enabled hj hne
    rw [hstuck e] at he
    exact absurd he (by simp)

/-- Once `out` is closed, the consumer has received `fn` of every input. -/
theorem Pool.Inv.out_of_outClosed (hs : s.Inv input fn) (hc : s.outClosed = true) :
    s.out = input.map fn := by
  rw [hs.out_eq, (hs.outClosed_eq hc).1, List.take_of_length_le (by simp)]

/-! ### Every schedule is finite -/

/-- The producer's steps still to take: three for each value left to read, two to close `wq`. -/
def ProducerPc.rank (n inCount : Nat) : ProducerPc β → Nat
  | .receiving => 3 * (n - inCount) + 2
  | .sending _ => 3 * (n - inCount) + 1
  | .incrementing => 3 * (n - inCount)
  | .closing => 1
  | .exited => 0

/-- A worker's steps still to take on the item it holds, and to leave. -/
def WorkerPc.rank : WorkerPc β γ → Nat
  | .receiving => 2
  | .processing _ => 5
  | .inserting _ => 4
  | .draining => 3
  | .exiting => 1
  | .exited => 0

/-- A measure every step lowers: the values still to dispatch (each worth a worker's round),
the producer's and the workers' steps, and the values still to send. -/
def Pool.rank (n : Nat) (s : Pool β γ) : Nat :=
  10 * (n - s.dispatched) + s.producer.rank n s.inCount + (s.workers.map WorkerPc.rank).sum +
    (n + 1 - s.outCount)

theorem Pool.Inv.outCount_le_succ (hs : s.Inv input fn) : s.outCount ≤ input.length + 1 := by
  have hd := hs.dispatched_le
  cases hc : s.outClosed with
  | false =>
    have := hs.outCount_le hc
    omega
  | true => exact Nat.le_of_eq (hs.outClosed_eq hc).1

/-- A worker's step that leaves the rest of the state and lowers its own rank lowers the
measure. -/
theorem Pool.rank_setWorker_lt {n : Nat} (hi : s.workers[i]? = some w) {v' : WorkerPc β γ}
    (hlt : v'.rank < w.rank) :
    Pool.rank n ({ s with workers := s.workers.set i v' } : Pool β γ) < s.rank n := by
  have hsum := sum_map_set_add WorkerPc.rank v' hi
  simp only [Pool.rank, Pool.dispatched] at hsum ⊢
  omega

/-- Every event lowers the measure. -/
theorem Pool.Inv.rank_lt {e : Event} (hs : s.Inv input fn) (h : step input fn s e = some s') :
    s'.rank input.length < s.rank input.length := by
  have hd := hs.dispatched_le
  have hout := hs.outCount_le_succ
  cases e with
  | receiveInput =>
    obtain ⟨hp, rfl⟩ := step_receiveInput h
    have hle : s.inCount ≤ input.length := by
      have h := hs.producer_ok
      rw [hp] at h
      exact h
    cases hx : input[s.inCount]? with
    | none =>
      have hc : s.inCount = input.length := le_antisymm hle (List.getElem?_eq_none_iff.mp hx)
      simp only [Pool.rank, Pool.dispatched, hp, ProducerPc.rank]
      omega
    | some x =>
      simp only [Pool.rank, Pool.dispatched, hp, ProducerPc.rank]
      omega
  | dispatch i =>
    obtain ⟨x, hp, hi, rfl⟩ := step_dispatch h
    have hlt : s.inCount < input.length := by
      have h := hs.producer_ok
      rw [hp] at h
      exact (List.getElem?_eq_some_iff.mp h).1
    have hsum := sum_map_set_add WorkerPc.rank (.processing ⟨s.inCount, x⟩) hi
    simp only [Pool.rank, Pool.dispatched, hp, ProducerPc.rank, WorkerPc.rank] at hsum ⊢
    omega
  | increment =>
    obtain ⟨hp, rfl⟩ := step_increment h
    have hlt : s.inCount < input.length := by
      have h := hs.producer_ok
      rw [hp] at h
      exact h
    simp only [Pool.rank, Pool.dispatched, hp, ProducerPc.rank]
    omega
  | closeWq =>
    obtain ⟨hp, rfl⟩ := step_closeWq h
    simp only [Pool.rank, Pool.dispatched, hp, ProducerPc.rank]
    omega
  | finishRange i =>
    obtain ⟨hi, -, rfl⟩ := step_finishRange h
    exact Pool.rank_setWorker_lt hi (by simp [WorkerPc.rank])
  | process i =>
    obtain ⟨item, hi, rfl⟩ := step_process h
    exact Pool.rank_setWorker_lt hi (by simp [WorkerPc.rank])
  | insert i =>
    obtain ⟨item, hi, -, rfl⟩ := step_insert h
    have hsum := sum_map_set_add WorkerPc.rank .draining hi
    simp only [Pool.rank, Pool.dispatched, WorkerPc.rank] at hsum ⊢
    omega
  | drain i =>
    obtain ⟨hi, ⟨top, rest, hpeek, hmin, rfl⟩ | ⟨hpeek, hnone⟩ | ⟨hpeek, rfl⟩⟩ :=
      step_drain h
    · -- a send: one value fewer to send
      have hb := hs.bounds_of_mem_heap (mem_of_extractMin hmin)
      show 10 * (input.length - s.dispatched) + s.producer.rank input.length s.inCount +
          (s.workers.map WorkerPc.rank).sum + (input.length + 1 - (s.outCount + 1)) <
        s.rank input.length
      unfold Pool.rank
      omega
    · exact (hs.not_pop_empty hi hpeek hnone).elim
    · have hsum := sum_map_set_add WorkerPc.rank .receiving hi
      simp only [Pool.rank, Pool.dispatched, WorkerPc.rank] at hsum ⊢
      omega
  | exitCheck i =>
    obtain ⟨hi, -, ⟨hdue, rfl⟩ | ⟨-, rfl⟩⟩ := step_exitCheck h
    · have hsum := sum_map_set_add WorkerPc.rank .exited hi
      have hc := (hs.closed_of_exiting hi).2.2.2
      simp only [Pool.rank, Pool.dispatched, WorkerPc.rank] at hsum hc ⊢
      omega
    · exact Pool.rank_setWorker_lt hi (by simp [WorkerPc.rank])

theorem Pool.rank_init (n parallelism : Nat) :
    (Pool.init parallelism : Pool β γ).rank n = 14 * n + 2 * parallelism + 3 := by
  simp only [Pool.rank, Pool.init, Pool.dispatched, ProducerPc.rank, List.map_replicate,
    WorkerPc.rank, List.sum_replicate_nat]
  omega

end Runs

end Noms.Util
