import Noms.Nbs.SourceLayers

/-!
# The store over whole runs

A run of a store is any sequence of client calls (`Put`, `PutMany`, `UpdateRoot`, and `Flush`,
which is `UpdateRoot` of the current root) interleaved with compactions finishing (`Op`). `run`
executes one such sequence and collects the chunks the calls accepted; `run_reflTransGen` ties
it to the transition system `Step`.

Throughout a run the store answers as a list of pairs (`view`): its memtable's chunks, then the
layers its sources answer as. `Get` is a lookup in that list and `Has` a membership test
(`Sound.Get_eq`, `Sound.Has_eq`). Every call and every compaction lets the list only grow
(`Grows`): no address is lost, and every pair was there before or was put by the call. Over a
whole run from a new store this gives the visibility of every accepted chunk, and, with chunks
addressed by the hash of their data, that `Get` answers with data of the requested hash
(`run_visible`). Once flushed, with every compaction finished, no address is held twice, and
`Count` is the number of distinct addresses put (`run_flush_count`).

The memtables must fit a table (`FitsTables`); this holds for the default 512MB memtable when
snappy's output stays within the `uint32` record length.
-/

namespace Noms.Nbs

open Noms.Lib

/-- Everything `addChunk` does to the memtable's pairs: at most the new chunk is added, and it is
there when the memtable accepts it. -/
theorem MemTable.addChunk_grows {mt mt' : MemTable} {h : Addr} {data : List UInt8} {ok : Bool}
    (hadd : mt.addChunk h data = some (ok, mt')) :
    Grows mt.chunks mt'.chunks [(h, data)] ∧ (ok = true → h ∈ mt'.chunks.map Prod.fst) ∧
      (ok = false → mt' = mt) ∧ mt'.maxData = mt.maxData := by
  obtain ⟨-, hmax, hcases⟩ := mt.addChunk_eq_some hadd
  rcases hcases with ⟨hh, rfl, rfl⟩ | ⟨-, -, rfl, rfl⟩ | ⟨-, rfl, hchunks⟩
  · exact ⟨Grows.refl _ _, fun _ => hh, fun h => absurd h (by decide), hmax⟩
  · exact ⟨Grows.refl _ _, fun h => absurd h (by decide), fun _ => rfl, hmax⟩
  · refine ⟨⟨fun k hk => ?_, fun p hp => ?_⟩, fun _ => ?_, fun h => absurd h (by decide), hmax⟩
    · rw [hchunks, List.map_append]
      exact List.mem_append_left _ hk
    · rw [hchunks] at hp
      exact List.mem_append.mp hp
    · rw [hchunks, List.map_append]
      exact List.mem_append_right _ List.mem_cons_self

namespace NomsBlockStore

variable {L : TableLib}

/-- The memtable's chunks; none without a memtable. -/
def memChunks (s : NomsBlockStore) : List (Addr × List UInt8) :=
  (s.mt.map MemTable.chunks).getD []

/-- What the store answers with when its sources answer as `contents`: the memtable's chunks,
then the sources' layers, newest first. -/
def view (s : NomsBlockStore) (contents : List (List (Addr × List UInt8))) :
    List (Addr × List UInt8) :=
  s.memChunks ++ contents.flatten

/-- The store's sources answer as `contents`, and every memtable has the store's size. -/
structure Sound (L : TableLib) (s : NomsBlockStore) (contents : List (List (Addr × List UInt8))) :
    Prop where
  answers : Answers L s.mtSize s.tables.chunkSources contents
  mt_max : ∀ mt, s.mt = some mt → mt.maxData = s.mtSize

theorem sound_newNomsBlockStore (memTableSize : Nat) :
    Sound L (newNomsBlockStore memTableSize) [] :=
  ⟨.nil, fun _ hmt => by cases hmt⟩

namespace Sound

variable {s : NomsBlockStore} {contents : List (List (Addr × List UInt8))}

/-! ## Reads -/

theorem Get_eq (hs : Sound L s contents) (hL : L.Lawful) (h : Addr) :
    s.Get L h = some ((s.view contents).lookup h) := by
  have hget := ChunkSources.get_of_holds hL hs.answers.holds h
  unfold Get view memChunks
  cases hmt : s.mt with
  | none => simpa using hget
  | some mt =>
    simp only [Option.bind_some, Option.map_some, Option.getD_some, List.lookup_append]
    cases hl : mt.chunks.lookup h with
    | some data =>
      rw [show mt.get h = some data from hl]
      rfl
    | none =>
      rw [show mt.get h = none from hl, hget]
      rfl

theorem Has_eq (hs : Sound L s contents) (hL : L.Lawful) (h : Addr) :
    s.Has h = some (decide (h ∈ (s.view contents).map Prod.fst)) := by
  have hhas := ChunkSources.has_of_holds hL hs.answers.holds h
  unfold Has view memChunks
  cases hmt : s.mt with
  | none => simpa using hhas
  | some mt =>
    simp only [Option.map_some, Option.getD_some, List.map_append, List.mem_append]
    by_cases hm : h ∈ mt.chunks.map Prod.fst
    · rw [if_pos ((MemTable.has_iff mt).mpr hm)]
      simp [hm]
    · rw [if_neg (fun hh => hm ((MemTable.has_iff mt).mp hh)), hhas]
      simp [hm]

/-! ## One call or compaction at a time -/

/-- `addChunk` adds at most the new chunk, and only when it is accepted, and then the chunk is
there. A memtable that the chunk does not fit is prepended to the sources, compacting. -/
theorem addChunk (hs : Sound L s contents) {h : Addr} {data : List UInt8} {ok : Bool}
    {s' : NomsBlockStore} (hadd : s.addChunk h data = some (ok, s')) :
    ∃ contents', Sound L s' contents' ∧
      Grows (s.view contents) (s'.view contents') (if ok then [(h, data)] else []) ∧
      (ok = true → h ∈ (s'.view contents').map Prod.fst) ∧ s'.mtSize = s.mtSize := by
  have hmax₀ : (s.mt.getD (MemTable.newMemTable s.mtSize)).maxData = s.mtSize := by
    cases hmt : s.mt with
    | none => rfl
    | some mt => exact hs.mt_max mt hmt
  have hmem₀ : s.memChunks = (s.mt.getD (MemTable.newMemTable s.mtSize)).chunks := by
    unfold memChunks
    cases s.mt <;> rfl
  simp only [NomsBlockStore.addChunk, Option.bind_eq_bind] at hadd
  obtain ⟨⟨ok₁, mt₁⟩, hadd₁, hadd⟩ := Option.bind_eq_some_iff.mp hadd
  obtain ⟨hg₁, hok₁, hsame₁, hmax₁⟩ := MemTable.addChunk_grows hadd₁
  cases ok₁ with
  | true =>
    -- the chunk went to the memtable
    simp only [if_true, Option.some.injEq, Prod.mk.injEq] at hadd
    obtain ⟨rfl, rfl⟩ := hadd
    refine ⟨contents, ⟨hs.answers, fun mt hmt => ?_⟩, ?_, fun _ => ?_, rfl⟩
    · cases hmt
      exact hmax₁.trans hmax₀
    · rw [if_pos rfl, view, view, hmem₀]
      exact hg₁.append_right _
    · show h ∈ (mt₁.chunks ++ contents.flatten).map Prod.fst
      rw [List.map_append]
      exact List.mem_append_left _ (hok₁ rfl)
  | false =>
    -- the memtable is full: it starts compacting, and a new one takes the chunk if it fits
    have hmt₁ := hsame₁ rfl
    simp only [Bool.false_eq_true, if_false] at hadd
    obtain ⟨⟨ok₂, mt₂⟩, hadd₂, hadd⟩ := Option.bind_eq_some_iff.mp hadd
    obtain ⟨hg₂, hok₂, hsame₂, hmax₂⟩ := MemTable.addChunk_grows hadd₂
    simp only [Option.some.injEq, Prod.mk.injEq] at hadd
    obtain ⟨rfl, rfl⟩ := hadd
    refine ⟨mt₁.chunks :: contents, ⟨?_, fun mt hmt => ?_⟩, ?_, fun hok => ?_, rfl⟩
    · rw [hmt₁]
      exact .compacting hmax₀ hs.answers
    · cases hmt
      exact hmax₂
    · have hnew : Grows [] mt₂.chunks (if ok₂ then [(h, data)] else []) := by
        cases ok₂ with
        | true => exact hg₂
        | false => rw [hsame₂ rfl]; exact Grows.refl _ _
      have hg := hnew.append_right (mt₁.chunks ++ contents.flatten)
      rw [List.nil_append] at hg
      rw [view, view, hmem₀, ← hmt₁, List.flatten_cons]
      exact hg
    · show h ∈ (mt₂.chunks ++ (mt₁.chunks :: contents).flatten).map Prod.fst
      rw [List.map_append]
      exact List.mem_append_left _ (hok₂ hok)

theorem Put (hs : Sound L s contents) {c : Chunk} {s' : NomsBlockStore} (hput : s.Put c = some s') :
    ∃ contents', Sound L s' contents' ∧
      Grows (s.view contents) (s'.view contents') [(c.r, c.data)] ∧
      c.r ∈ (s'.view contents').map Prod.fst ∧ s'.mtSize = s.mtSize := by
  simp only [NomsBlockStore.Put, Option.bind_eq_bind] at hput
  obtain ⟨⟨ok, s₁⟩, hadd, hput⟩ := Option.bind_eq_some_iff.mp hput
  obtain ⟨contents', hs₁, hg, hok, hsize⟩ := hs.addChunk hadd
  cases ok with
  | false => cases hput
  | true =>
    cases hput
    exact ⟨contents', ⟨hs₁.answers, hs₁.mt_max⟩, hg, hok rfl, hsize⟩

/-- `PutMany` accepts a prefix of the chunks, the first `n`, and returns the hashes of the rest. -/
theorem PutMany (hs : Sound L s contents) {chunx : List Chunk} {s' : NomsBlockStore}
    {errs : List Addr} (hput : s.PutMany chunx = some (s', errs)) :
    ∃ contents' n, Sound L s' contents' ∧ n ≤ chunx.length ∧ errs = (chunx.drop n).map Chunk.r ∧
      Grows (s.view contents) (s'.view contents') ((chunx.take n).map fun c => (c.r, c.data)) ∧
      (∀ c ∈ chunx.take n, c.r ∈ (s'.view contents').map Prod.fst) ∧ s'.mtSize = s.mtSize := by
  induction chunx generalizing s contents with
  | nil =>
    cases hput
    exact ⟨contents, 0, hs, le_rfl, rfl, Grows.refl _ _, fun c hc => absurd hc (by simp), rfl⟩
  | cons c chunx ih =>
    simp only [NomsBlockStore.PutMany, Option.bind_eq_bind] at hput
    obtain ⟨⟨ok, s₁⟩, hadd, hput⟩ := Option.bind_eq_some_iff.mp hput
    obtain ⟨contents₁, hs₁, hg₁, hok₁, hsize₁⟩ := hs.addChunk hadd
    cases ok with
    | false =>
      -- refused: nothing of this call is accepted
      simp only [Bool.false_eq_true, if_false, Option.some.injEq, Prod.mk.injEq] at hput
      obtain ⟨rfl, rfl⟩ := hput
      exact ⟨contents₁, 0, hs₁, Nat.zero_le _, rfl, hg₁, fun c hc => absurd hc (by simp), hsize₁⟩
    | true =>
      simp only [if_true] at hput hg₁
      obtain ⟨contents', n, hs', hn, herrs, hg, hmem, hsize⟩ :=
        ih (s := { s₁ with putCount := s₁.putCount + 1 }) ⟨hs₁.answers, hs₁.mt_max⟩ hput
      refine ⟨contents', n + 1, hs', Nat.succ_le_succ hn, herrs, ?_, fun c' hc' => ?_,
        hsize.trans hsize₁⟩
      · exact hg₁.trans hg
      · rcases List.mem_cons.mp hc' with rfl | hc'
        · exact hg.keys_mem _ (hok₁ rfl)
        · exact hmem c' hc'

section Compaction

variable (hL : L.Lawful) (hb : FitsTables L s.mtSize)
include hL hb

/-- `UpdateRoot` moves the memtable to the sources when it holds chunks, and finishes every
compaction: afterwards neither the memtable nor a compacting source holds a chunk. -/
theorem UpdateRoot (hs : Sound L s contents) {current last : Addr} {s' : NomsBlockStore}
    {ok : Bool} (hu : s.UpdateRoot L current last = some (s', ok)) :
    ∃ contents', Sound L s' contents' ∧ Grows (s.view contents) (s'.view contents') [] ∧
      s'.mtSize = s.mtSize ∧ (∀ mt, s'.mt = some mt → mt.chunks = []) ∧
      ∀ mt, ChunkSource.compacting mt ∈ s'.tables.chunkSources → mt.chunks = [] := by
  -- the store after the memtable is moved, if it is: the same pairs, and no chunk left in it
  obtain ⟨s₁, contents₁, hs₁, hview₁, hsize₁, hmt₁, hu⟩ : ∃ s₁ contents₁, Sound L s₁ contents₁ ∧
      s₁.view contents₁ = s.view contents ∧ s₁.mtSize = s.mtSize ∧
      (∀ mt, s₁.mt = some mt → mt.chunks = []) ∧
      (s₁.tables.finishCompactions L).bind
        (fun tables => some ({ s₁ with tables := tables, root := current }, true)) = some (s', ok) := by
    simp only [NomsBlockStore.UpdateRoot, Option.bind_eq_bind] at hu
    obtain ⟨-, -, hu⟩ := Option.bind_eq_some_iff.mp hu
    cases hmt : s.mt with
    | none =>
      refine ⟨s, contents, hs, rfl, rfl, ?_, by simpa only [hmt] using hu⟩
      intro mt h
      rw [hmt] at h
      cases h
    | some mt =>
      by_cases hcount : mt.count > 0
      · simp only [hmt, hcount, if_true] at hu
        refine ⟨{ s with mt := none, tables := s.tables.Prepend mt }, mt.chunks :: contents,
          ⟨.compacting (hs.mt_max mt hmt) hs.answers, ?_⟩, ?_, rfl, ?_, hu⟩
        · intro _ h
          cases h
        · simp [view, memChunks, hmt]
        · intro _ h
          cases h
      · have hnil : mt.chunks = [] := (MemTable.count_eq_zero_iff hb (hs.mt_max mt hmt)).mp
          (Nat.eq_zero_of_not_pos hcount)
        refine ⟨s, contents, hs, rfl, rfl, ?_, by simpa only [hmt, hcount, if_false] using hu⟩
        intro mt' h
        rw [hmt] at h
        cases h
        exact hnil
  simp only [TableSet.finishCompactions] at hu
  obtain ⟨tables, htables, hu⟩ := Option.bind_eq_some_iff.mp hu
  obtain ⟨css', hf, rfl⟩ := Option.map_eq_some_iff.mp htables
  simp only [Option.some.injEq, Prod.mk.injEq] at hu
  obtain ⟨rfl, rfl⟩ := hu
  obtain ⟨contents', h', hg, hnil⟩ :=
    hs₁.answers.finishCompactionsFrom hL (hsize₁ ▸ hb) hf
  refine ⟨contents', ⟨h', hs₁.mt_max⟩, ?_, hsize₁, hmt₁, hnil⟩
  rw [← hview₁]
  exact hg.append_left _

/-- A compaction finishing keeps the pairs the store answers with, and their addresses. -/
theorem compactAt (hs : Sound L s contents) {i : Nat} {ts : TableSet}
    (hc : s.tables.compactAt L i = some ts) :
    ∃ contents', Sound L { s with tables := ts } contents' ∧
      Grows (s.view contents) ({ s with tables := ts }.view contents') [] := by
  simp only [TableSet.compactAt, Option.bind_eq_bind] at hc
  obtain ⟨x, hi, hc⟩ := Option.bind_eq_some_iff.mp hc
  cases x with
  | compacting mt =>
    obtain ⟨cs, hcs, hc⟩ := Option.bind_eq_some_iff.mp hc
    cases hc
    obtain ⟨contents', h', hg⟩ := hs.answers.set_compact hL hb hi hcs
    exact ⟨contents', ⟨h', hs.mt_max⟩, hg.append_left _⟩
  | table tr => cases hc
  | empty => cases hc

end Compaction

end Sound

end NomsBlockStore

/-! ## Runs -/

/-- What a client or a compaction goroutine does to a store. -/
inductive Op
  | put (c : Chunk)
  | putMany (chunx : List Chunk)
  | updateRoot (current last : Addr)
  | compact (i : Nat)

/-- The store after `op`, and the chunks `op` accepted. -/
def Op.apply (L : TableLib) (s : NomsBlockStore) : Op → Option (NomsBlockStore × List Chunk)
  | .put c => (s.Put c).map fun s' => (s', [c])
  | .putMany chunx =>
    (s.PutMany chunx).map fun (s', errs) => (s', chunx.take (chunx.length - errs.length))
  | .updateRoot current last => (s.UpdateRoot L current last).map fun (s', _) => (s', [])
  | .compact i => (s.tables.compactAt L i).map fun ts => ({ s with tables := ts }, [])

/-- Run `ops` in order; the chunks the calls accepted, in order. -/
def run (L : TableLib) (s : NomsBlockStore) : List Op → Option (NomsBlockStore × List Chunk)
  | [] => some (s, [])
  | op :: ops => do
    let (s', acc) ← op.apply L s
    let (s'', acc') ← run L s' ops
    some (s'', acc ++ acc')

variable {L : TableLib}

/-- The steps of the transition system are the operations. -/
theorem step_iff_apply {s s' : NomsBlockStore} :
    Step L s s' ↔ ∃ (op : Op) (acc : List Chunk), op.apply L s = some (s', acc) := by
  constructor
  · rintro (⟨c, h⟩ | ⟨chunx, errs, h⟩ | ⟨current, last, ok, h⟩ | ⟨i, h⟩)
    · exact ⟨.put c, [c], by simp [Op.apply, h]⟩
    · exact ⟨.putMany chunx, _, by simp [Op.apply, h]; rfl⟩
    · exact ⟨.updateRoot current last, [], by simp [Op.apply, h]⟩
    · exact ⟨.compact i, [], by simp [Op.apply, h]⟩
  · rintro ⟨op, acc, h⟩
    cases op with
    | put c =>
      obtain ⟨s₁, h₁, heq⟩ := Option.map_eq_some_iff.mp h
      cases heq
      exact .put c h₁
    | putMany chunx =>
      obtain ⟨⟨s₁, errs⟩, h₁, heq⟩ := Option.map_eq_some_iff.mp h
      cases heq
      exact .putMany chunx errs h₁
    | updateRoot current last =>
      obtain ⟨⟨s₁, ok⟩, h₁, heq⟩ := Option.map_eq_some_iff.mp h
      cases heq
      exact .updateRoot current last ok h₁
    | compact i =>
      obtain ⟨ts, h₁, heq⟩ := Option.map_eq_some_iff.mp h
      cases heq
      exact .compact i h₁

theorem run_reflTransGen {s s' : NomsBlockStore} {ops : List Op} {acc : List Chunk}
    (hrun : run L s ops = some (s', acc)) : Relation.ReflTransGen (Step L) s s' := by
  induction ops generalizing s acc with
  | nil =>
    cases hrun
    exact .refl
  | cons op ops ih =>
    simp only [run, Option.bind_eq_bind] at hrun
    obtain ⟨⟨s₁, acc₁⟩, h₁, hrun⟩ := Option.bind_eq_some_iff.mp hrun
    obtain ⟨⟨s₂, acc₂⟩, h₂, hrun⟩ := Option.bind_eq_some_iff.mp hrun
    cases hrun
    exact .head (step_iff_apply.mpr ⟨op, acc₁, h₁⟩) (ih h₂)

namespace NomsBlockStore.Sound

variable {s : NomsBlockStore} {contents : List (List (Addr × List UInt8))}
  (hL : L.Lawful) (hb : FitsTables L s.mtSize)
include hL hb

theorem apply (hs : Sound L s contents) {op : Op} {s' : NomsBlockStore} {acc : List Chunk}
    (ha : op.apply L s = some (s', acc)) :
    ∃ contents', Sound L s' contents' ∧
      Grows (s.view contents) (s'.view contents') (acc.map fun c => (c.r, c.data)) ∧
      (∀ c ∈ acc, c.r ∈ (s'.view contents').map Prod.fst) ∧ s'.mtSize = s.mtSize := by
  cases op with
  | put c =>
    obtain ⟨s₁, h₁, heq⟩ := Option.map_eq_some_iff.mp ha
    cases heq
    obtain ⟨contents', hs', hg, hmem, hsize⟩ := hs.Put h₁
    exact ⟨contents', hs', hg, fun c' hc' => (List.mem_singleton.mp hc') ▸ hmem, hsize⟩
  | putMany chunx =>
    obtain ⟨⟨s₁, errs⟩, h₁, heq⟩ := Option.map_eq_some_iff.mp ha
    cases heq
    obtain ⟨contents', n, hs', hn, rfl, hg, hmem, hsize⟩ := hs.PutMany h₁
    have htake : chunx.length - ((chunx.drop n).map Chunk.r).length = n := by
      rw [List.length_map, List.length_drop]
      omega
    rw [htake]
    exact ⟨contents', hs', hg, hmem, hsize⟩
  | updateRoot current last =>
    obtain ⟨⟨s₁, ok⟩, h₁, heq⟩ := Option.map_eq_some_iff.mp ha
    cases heq
    obtain ⟨contents', hs', hg, hsize, -, -⟩ := hs.UpdateRoot hL hb h₁
    exact ⟨contents', hs', hg, fun c hc => absurd hc List.not_mem_nil, hsize⟩
  | compact i =>
    obtain ⟨ts, h₁, heq⟩ := Option.map_eq_some_iff.mp ha
    cases heq
    obtain ⟨contents', hs', hg⟩ := hs.compactAt hL hb h₁
    exact ⟨contents', hs', hg, fun c hc => absurd hc List.not_mem_nil, rfl⟩

/-- Over a run, the store answers for every address it answered for and every chunk accepted,
with pairs it had or that were put. -/
theorem run (hs : Sound L s contents) {ops : List Op} {s' : NomsBlockStore} {acc : List Chunk}
    (hrun : Nbs.run L s ops = some (s', acc)) :
    ∃ contents', Sound L s' contents' ∧
      Grows (s.view contents) (s'.view contents') (acc.map fun c => (c.r, c.data)) ∧
      (∀ c ∈ acc, c.r ∈ (s'.view contents').map Prod.fst) ∧ s'.mtSize = s.mtSize := by
  induction ops generalizing s contents acc with
  | nil =>
    cases hrun
    exact ⟨contents, hs, Grows.refl _ _, fun c hc => absurd hc List.not_mem_nil, rfl⟩
  | cons op ops ih =>
    simp only [Nbs.run, Option.bind_eq_bind] at hrun
    obtain ⟨⟨s₁, acc₁⟩, h₁, hrun⟩ := Option.bind_eq_some_iff.mp hrun
    obtain ⟨⟨s₂, acc₂⟩, h₂, hrun⟩ := Option.bind_eq_some_iff.mp hrun
    cases hrun
    obtain ⟨contents₁, hs₁, hg₁, hmem₁, hsize₁⟩ := hs.apply hL hb h₁
    obtain ⟨contents₂, hs₂, hg₂, hmem₂, hsize₂⟩ := ih (hsize₁ ▸ hb) hs₁ h₂
    refine ⟨contents₂, hs₂, ?_, fun c hc => ?_, hsize₂.trans hsize₁⟩
    · rw [List.map_append]
      exact hg₁.trans hg₂
    · rcases List.mem_append.mp hc with hc | hc
      · exact hg₂.keys_mem _ (hmem₁ c hc)
      · exact hmem₂ c hc

end NomsBlockStore.Sound

theorem run_append {s : NomsBlockStore} (ops ops' : List Op) :
    run L s (ops ++ ops') = (run L s ops).bind fun (s', acc) =>
      (run L s' ops').map fun (s'', acc') => (s'', acc ++ acc') := by
  induction ops generalizing s with
  | nil => cases h : run L s ops' <;> simp [run, h]
  | cons op ops ih =>
    simp only [List.cons_append, run, Option.bind_eq_bind, ih]
    cases h : op.apply L s with
    | none => rfl
    | some r =>
      obtain ⟨s₁, acc₁⟩ := r
      cases h' : run L s₁ ops with
      | none => simp [h']
      | some r' =>
        obtain ⟨s₂, acc₂⟩ := r'
        cases h'' : run L s₂ ops' <;> simp [h', h'']

/-! ## Runs from a new store -/

section NewStore

variable (hL : L.Lawful) {n : Nat} (hb : FitsTables L (NomsBlockStore.newNomsBlockStore n).mtSize)
  {ops : List Op} {s : NomsBlockStore} {acc : List Chunk}
include hL hb

/-- From a new store, a run answers exactly for the addresses of the chunks it accepted, with the
data of one of them. -/
theorem run_new_view (hrun : run L (NomsBlockStore.newNomsBlockStore n) ops = some (s, acc)) :
    ∃ contents, s.Sound L contents ∧
      (∀ h, h ∈ (s.view contents).map Prod.fst ↔ h ∈ acc.map Chunk.r) ∧
      ∀ p ∈ s.view contents, ⟨p.1, p.2⟩ ∈ acc := by
  obtain ⟨contents, hs, hg, hmem, -⟩ := NomsBlockStore.sound_newNomsBlockStore n |>.run hL hb hrun
  -- a new store answers with nothing, so every pair was put
  have hput : ∀ p ∈ s.view contents, ⟨p.1, p.2⟩ ∈ acc := by
    intro p hp
    rcases hg.pairs_mem p hp with hp | hp
    · exact absurd hp List.not_mem_nil
    · obtain ⟨c, hc, rfl⟩ := List.mem_map.mp hp
      exact hc
  refine ⟨contents, hs, fun h => ⟨fun hh => ?_, fun hh => ?_⟩, hput⟩
  · obtain ⟨p, hp, rfl⟩ := List.mem_map.mp hh
    exact List.mem_map_of_mem (hput p hp)
  · obtain ⟨c, hc, rfl⟩ := List.mem_map.mp hh
    exact hmem c hc

/-- Over any run from a new store, `Has` finds exactly the chunks that were accepted, and `Get`
returns the data of a chunk accepted under the requested address, or `nil` when none was. -/
theorem run_visible (hrun : run L (NomsBlockStore.newNomsBlockStore n) ops = some (s, acc))
    (h : Addr) :
    s.Has h = some (decide (h ∈ acc.map Chunk.r)) ∧
      ∃ d, s.Get L h = some d ∧ (d = none ↔ h ∉ acc.map Chunk.r) ∧
        ∀ data, d = some data → ⟨h, data⟩ ∈ acc := by
  obtain ⟨contents, hs, hkeys, hput⟩ := run_new_view hL hb hrun
  refine ⟨by simp only [hs.Has_eq hL, hkeys h], _, hs.Get_eq hL h, ?_, ?_⟩
  · rw [lookup_eq_none_iff_not_mem, hkeys]
  · intro data hd
    exact hput _ (mem_of_lookup_eq_some hd)

/-- Once the memtable holds nothing and every compaction has finished, as after a `Flush`, no
address is held twice, and `Count` is the number of distinct addresses put, as a `uint32`. -/
theorem run_count (hrun : run L (NomsBlockStore.newNomsBlockStore n) ops = some (s, acc))
    (hmt : ∀ mt, s.mt = some mt → mt.chunks = [])
    (hdone : ∀ mt, ChunkSource.compacting mt ∈ s.tables.chunkSources → mt.chunks = []) :
    s.Count = (acc.map Chunk.r).dedup.length % 2 ^ 32 := by
  obtain ⟨contents, hs, hkeys, -⟩ := run_new_view hL hb hrun
  have hmem : s.memChunks = [] := by
    unfold NomsBlockStore.memChunks
    cases hm : s.mt with
    | none => rfl
    | some mt => exact hmt mt hm
  have hmtcount : (s.mt.map MemTable.count).getD 0 = 0 := by
    cases hm : s.mt with
    | none => rfl
    | some mt => simp [MemTable.count, hmt mt hm]
  -- the keys of the sources are the distinct addresses put
  have hnodup := hs.answers.nodup_of_done hdone
  have hperm : (contents.flatten.map Prod.fst).Perm (acc.map Chunk.r).dedup := by
    refine (List.perm_ext_iff_of_nodup hnodup (List.nodup_dedup _)).mpr fun h => ?_
    rw [List.mem_dedup, ← hkeys h, NomsBlockStore.view, hmem, List.nil_append]
  have hlen : (contents.map List.length).sum = (acc.map Chunk.r).dedup.length := by
    rw [← hperm.length_eq, List.length_map, List.length_flatten]
  rw [NomsBlockStore.Count, hmtcount, Nat.zero_add, ChunkSources.count_of_holds hs.answers.holds,
    Nat.mod_mod, hlen]

end NewStore

/-- The plain library writes every chunk of a default memtable within the format. -/
theorem fitsTables_plain_default : FitsTables TableLib.plain defaultMemTableSize where
  size_lt := by decide
  record_lt data hd := by
    rw [length_chunkRecord]
    simp only [TableLib.plain, id, checksumSize, uint32Size]
    unfold defaultMemTableSize at hd
    omega

theorem run_visible_two_puts :
    ∃ s acc, run TableLib.plain (NomsBlockStore.newNomsBlockStore 0)
        [.put sharedPrefixOlder, .put sharedPrefixNewer] = some (s, acc) ∧
      s.Has sharedPrefixOlder.r = some (decide (sharedPrefixOlder.r ∈ acc.map Chunk.r)) ∧
      ∃ d, s.Get TableLib.plain sharedPrefixOlder.r = some d ∧
        (d = none ↔ sharedPrefixOlder.r ∉ acc.map Chunk.r) ∧
        ∀ data, d = some data → ⟨sharedPrefixOlder.r, data⟩ ∈ acc := by
  obtain ⟨s, acc, hrun⟩ : ∃ s acc, run TableLib.plain (NomsBlockStore.newNomsBlockStore 0)
      [.put sharedPrefixOlder, .put sharedPrefixNewer] = some (s, acc) := ⟨_, _, rfl⟩
  exact ⟨s, acc, hrun, run_visible TableLib.plain_lawful (n := 0) fitsTables_plain_default hrun _⟩

end Noms.Nbs
