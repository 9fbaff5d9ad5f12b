import Noms.Lib.Schedule
import Mathlib.Data.List.Sort

/-!
# Multipart upload of a table (`s3_table_persister.go`)

`Compact` writes a memtable's table to S3 in parts. `uploadParts` cuts the data into
`getNumParts` parts of `partSize` bytes, the last taking the rest, and starts one goroutine per
part. Each checks `done`, uploads its part, and reports on the unbuffered channel `sent` (an
etag) or `failed` (an error); once every part goroutine has returned, one more goroutine closes
`sent` and then `failed`. The collecting loop receives until it reads the closed `sent`, closing
`done` at each error it receives so that the other parts stop, and closes `done` itself after the
loop when no part failed.

The parts cover the data in order (`flatten_parts`); each but the last has `partSize` bytes, and
the last has at least that many when there are several (`length_part`).

The goroutines run as an interleaving. `Upload` is the state of them all, an `Event` is one step
of one goroutine (a rendezvous on a channel is one event, shared by sender and receiver), and
`Upload.step` is `none` where the event is not enabled. Closing a closed channel panics, and a
second error received closes `done` again: with two parts whose uploads began before the first
error was received, some schedule panics (`two_failures_panic`).
-/

namespace Noms.Nbs

open Noms.Lib

/-- `getNumParts(dataLen, partSize)`. -/
def getNumParts (dataLen partSize : Nat) : Nat :=
  if dataLen / partSize = 0 then 1 else dataLen / partSize

/-! ## The parts -/

section Parts

variable {α : Type}

/-- The bytes `sendPart(partNum)` uploads, `data[start:end]`; the last part runs to the end. -/
def partData (data : List α) (partSize numParts partNum : Nat) : List α :=
  let start := (partNum - 1) * partSize
  let stop := if partNum = numParts then data.length else partNum * partSize
  (data.take stop).drop start

theorem getNumParts_pos (dataLen partSize : Nat) : 0 < getNumParts dataLen partSize := by
  unfold getNumParts
  split
  · exact Nat.one_pos
  · exact Nat.pos_of_ne_zero ‹_›

/-- Every part but a single one lies within the data. -/
theorem getNumParts_mul_le {dataLen partSize : Nat} (h : getNumParts dataLen partSize ≠ 1) :
    getNumParts dataLen partSize * partSize ≤ dataLen := by
  unfold getNumParts at h ⊢
  split at h
  · exact absurd rfl h
  · rw [if_neg ‹_›]
    exact Nat.div_mul_le_self dataLen partSize

/-- Consecutive slices of width `w` make up the first `m` of them. -/
theorem flatten_slices (l : List α) (w m : Nat) :
    ((List.range m).map fun i => (l.take ((i + 1) * w)).drop (i * w)).flatten = l.take (m * w) := by
  induction m with
  | zero => simp
  | succ m ih =>
    rw [List.range_succ, List.map_append, List.flatten_append, ih, List.map_singleton,
      List.flatten_singleton]
    -- the first `m` slices are a prefix of the first `m + 1`
    have hpre : l.take (m * w) = (l.take ((m + 1) * w)).take (m * w) := by
      rw [List.take_take, Nat.min_eq_left (Nat.mul_le_mul_right w (Nat.le_succ m))]
    rw [hpre, List.take_append_drop]

/-- The parts, in order, are the data. -/
theorem flatten_parts (data : List α) (partSize : Nat) :
    ((List.range (getNumParts data.length partSize)).map fun i =>
      partData data partSize (getNumParts data.length partSize) (i + 1)).flatten = data := by
  set n := getNumParts data.length partSize with hn
  obtain ⟨m, hm⟩ : ∃ m, n = m + 1 := Nat.exists_eq_succ_of_ne_zero (getNumParts_pos _ _).ne'
  -- every part before the last is a slice of width `partSize`
  have hfirst : ((List.range m).map fun i => partData data partSize n (i + 1)) =
      (List.range m).map fun i => (data.take ((i + 1) * partSize)).drop (i * partSize) := by
    refine List.map_congr_left fun i hi => ?_
    have hne : i + 1 ≠ n := by simp at hi; omega
    simp [partData, hne]
  rw [hm, List.range_succ, List.map_append, List.flatten_append, ← hm, hfirst, flatten_slices,
    List.map_singleton, List.flatten_singleton]
  simp only [partData, hm, if_true, List.take_length, Nat.add_sub_cancel]
  exact List.take_append_drop _ _

/-- The part of index `k` starts at `k * partSize`, and ends `partSize` later, or, for the last
part, at the end of the data. -/
theorem partData_eq {data : List α} {partSize numParts k : Nat} :
    partData data partSize numParts (k + 1) =
      if k + 1 = numParts then data.drop (k * partSize)
      else (data.take ((k + 1) * partSize)).drop (k * partSize) := by
  unfold partData
  split
  · rename_i hlast
    subst hlast
    simp
  · simp

/-- Each part but the last has `partSize` bytes; the last has the rest, at least `partSize` when
there are several parts. -/
theorem length_part {data : List α} {partSize k : Nat} (hk : k < getNumParts data.length partSize)
    (hsome : getNumParts data.length partSize ≠ 1) :
    partSize ≤ (partData data partSize (getNumParts data.length partSize) (k + 1)).length ∧
      (k + 1 < getNumParts data.length partSize →
        (partData data partSize (getNumParts data.length partSize) (k + 1)).length = partSize) := by
  set n := getNumParts data.length partSize
  -- the part ends within the data: `(k + 1) * partSize ≤ n * partSize ≤ data.length`
  have hend : (k + 1) * partSize ≤ data.length :=
    Nat.le_trans (Nat.mul_le_mul_right _ hk) (getNumParts_mul_le hsome)
  have hwidth : (k + 1) * partSize = k * partSize + partSize := by rw [Nat.add_mul, Nat.one_mul]
  rw [partData_eq]
  refine ⟨?_, fun hlt => ?_⟩
  · split
    · rw [List.length_drop]
      omega
    · rw [List.length_drop, List.length_take, Nat.min_eq_left hend]
      omega
  · rw [if_neg (Nat.ne_of_lt hlt), List.length_drop, List.length_take, Nat.min_eq_left hend]
    omega

end Parts

/-! ## The goroutines -/

/-- Where the goroutine of one part is. -/
inductive PartPc (E T : Type) where
  /-- before `select { case <-done: return; default: }` -/
  | start
  /-- inside `UploadPart` -/
  | uploading
  /-- blocked on `failed <- err` -/
  | failing (err : E)
  /-- blocked on `select { case sent <- part: case <-done: }` -/
  | sending (etag : T)
  /-- returned, after `wg.Done()` -/
  | exited
deriving DecidableEq

/-- The goroutine has returned. -/
def PartPc.isExited {E T : Type} : PartPc E T → Bool
  | .exited => true
  | _ => false

/-- The state of `uploadParts` and the goroutines it started: the part of index `i` is part
number `i + 1`. `completed` is `multipartUpload.Parts` in the order received. -/
structure Upload (E T : Type) where
  parts : List (PartPc E T)
  doneClosed : Bool
  sentClosed : Bool
  failedClosed : Bool
  collecting : Bool
  completed : List (Nat × T)
  lastFailure : Option E
  panicked : Bool
  returned : Option (List (Nat × T) × Option E)
deriving DecidableEq

/-- One step of one goroutine. -/
inductive Event where
  /-- part `i + 1` tests `done` -/
  | checkDone (i : Nat)
  /-- `UploadPart` of part `i + 1` returns its outcome -/
  | uploadPart (i : Nat)
  /-- the collector receives the error of part `i + 1` -/
  | receiveFailure (i : Nat)
  /-- the collector receives the etag of part `i + 1` -/
  | receivePart (i : Nat)
  /-- part `i + 1` takes the `<-done` case instead of sending -/
  | abandon (i : Nat)
  /-- after `wg.Wait()`: `close(sent)` -/
  | closeSent
  /-- then `close(failed)` -/
  | closeFailed
  /-- the collector reads `nil` from the closed `failed` -/
  | receiveClosedFailed
  /-- the collector reads the closed `sent`, leaves the loop and returns -/
  | receiveClosedSent
deriving DecidableEq

section Run

variable {E T : Type}

/-- `sort.Sort(partsByPartNum(multipartUpload.Parts))`. -/
def sortParts (ps : List (Nat × T)) : List (Nat × T) :=
  ps.insertionSort fun a b => a.1 < b.1

/-- The state once `uploadParts` has started its goroutines. -/
def Upload.init (numParts : Nat) : Upload E T where
  parts := List.replicate numParts .start
  doneClosed := false
  sentClosed := false
  failedClosed := false
  collecting := true
  completed := []
  lastFailure := none
  panicked := false
  returned := none

variable (outcome : Nat → Except E T)

/-- One event, under the outcome of each part's `UploadPart` (by part number); `none` where the
event is not enabled. Closing a closed `done` panics, and after a panic nothing runs. -/
def Upload.step (s : Upload E T) (e : Event) : Option (Upload E T) :=
  if s.panicked then none
  else
    match e with
    | .checkDone i =>
      match s.parts[i]? with
      | some .start =>
        some { s with parts := s.parts.set i (if s.doneClosed then .exited else .uploading) }
      | _ => none
    | .uploadPart i =>
      match s.parts[i]? with
      | some .uploading =>
        some { s with
          parts := s.parts.set i
            (match outcome (i + 1) with
              | .error err => .failing err
              | .ok etag => .sending etag) }
      | _ => none
    | .receiveFailure i =>
      match s.parts[i]? with
      | some (.failing err) =>
        if s.collecting then
          some { s with
            parts := s.parts.set i .exited
            lastFailure := some err
            doneClosed := true
            panicked := s.doneClosed }
        else none
      | _ => none
    | .receivePart i =>
      match s.parts[i]? with
      | some (.sending etag) =>
        if s.collecting then
          some { s with
            parts := s.parts.set i .exited
            completed := s.completed ++ [(i + 1, etag)] }
        else none
      | _ => none
    | .abandon i =>
      match s.parts[i]? with
      | some (.sending _) =>
        if s.doneClosed then some { s with parts := s.parts.set i .exited } else none
      | _ => none
    | .closeSent =>
      if s.parts.all PartPc.isExited ∧ !s.sentClosed then some { s with sentClosed := true }
      else none
    | .closeFailed =>
      if s.sentClosed ∧ !s.failedClosed then some { s with failedClosed := true } else none
    | .receiveClosedFailed => if s.collecting ∧ s.failedClosed then some s else none
    | .receiveClosedSent =>
      if s.collecting ∧ s.sentClosed then
        if s.lastFailure.isNone ∧ s.doneClosed then
          some { s with collecting := false, panicked := true }
        else
          some { s with
            collecting := false
            doneClosed := true
            returned := some (sortParts s.completed, s.lastFailure) }
      else none

/-- Two parts fail after both passed the check of `done`: the collector receives the first error
and closes `done`, then receives the second and closes `done` again, which panics. -/
theorem two_failures_panic {α : Type} {data : List α} {partSize i j : Nat} (hij : i ≠ j)
    (hi : i < getNumParts data.length partSize) (hj : j < getNumParts data.length partSize)
    {ei ej : E} (hoi : outcome (i + 1) = .error ei) (hoj : outcome (j + 1) = .error ej) :
    ∃ s, runEvents (Upload.step outcome) (Upload.init (getNumParts data.length partSize))
        [.checkDone i, .checkDone j, .uploadPart i, .uploadPart j, .receiveFailure i,
          .receiveFailure j] = some s ∧ s.panicked = true := by
  have hji : j ≠ i := Ne.symm hij
  simp [runEvents, Upload.step, Upload.init, hi, hj, hij, hji, hoi, hoj]

end Run

theorem two_failures_panic_two_bytes :
    (0 : Nat) ≠ 1 ∧ 0 < getNumParts [(0 : UInt8), 0].length 1 ∧
      1 < getNumParts [(0 : UInt8), 0].length 1 ∧
      (fun _ => .error "timeout" : Nat → Except String String) (0 + 1) = .error "timeout" ∧
      (fun _ => .error "timeout" : Nat → Except String String) (1 + 1) = .error "timeout" ∧
      ∃ s, runEvents (Upload.step (fun _ => .error "timeout" : Nat → Except String String))
          (Upload.init (getNumParts [(0 : UInt8), 0].length 1))
          [.checkDone 0, .checkDone 1, .uploadPart 0, .uploadPart 1, .receiveFailure 0,
            .receiveFailure 1] = some s ∧ s.panicked = true :=
  ⟨by decide, by decide, by decide, rfl, rfl,
    @two_failures_panic String String (fun _ => .error "timeout") UInt8 [0, 0] 1 0 1
      (by decide) (by decide) (by decide) "timeout" "timeout" rfl rfl⟩

end Noms.Nbs
