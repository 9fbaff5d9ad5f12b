import Noms.Nbs.Visibility

/-!
# A table set across its compactions

The sources of a table set answer as layers of chunks, newest first (`Answers`). A source still
compacting answers through its memtable, which may hold chunks that older sources hold too. A
finished source holds none of those: `Compact` leaves out what the sources behind it hold, and
finishing a source behind it does not change the addresses it answers for.

The layers are kept by the compaction of any one source (`Answers.set_compact`, the step
`compactAt`) and by `finishCompactionsFrom` (`Answers.finishCompactionsFrom`): after either, the set
answers for the same addresses, with pairs it had before (`Grows _ _ []`). Both need the
memtables to fit a table (`FitsTables`), as the table format counts chunks and record lengths in
`uint32` fields.
-/

namespace Noms.Nbs

open Noms.Lib

/-! ## Memtables that fit a table -/

/-- Memtables of `size` bytes write tables within the format's `uint32` fields and under
`maxChunkSize`. -/
structure FitsTables (L : TableLib) (size : Nat) : Prop where
  size_lt : size < maxChunkSize
  record_lt : ∀ data : List UInt8, data.length ≤ size → (chunkRecord L data).length < 2 ^ 32

namespace MemTable

/-- No chunk is empty, so a memtable holds at most as many chunks as bytes. -/
theorem length_le_totalData (mt : MemTable) : mt.chunks.length ≤ mt.totalData := by
  have hone : ∀ n ∈ mt.chunks.map fun c => c.2.length, 1 ≤ n := by
    intro n hn
    obtain ⟨c, hc, rfl⟩ := List.mem_map.mp hn
    exact List.length_pos_iff.mpr (mt.data_ne c hc)
  calc mt.chunks.length = (mt.chunks.map fun c => c.2.length).length := (List.length_map _).symm
    _ ≤ (mt.chunks.map fun c => c.2.length).sum := List.length_le_sum_of_one_le _ hone
    _ = mt.totalData := mt.total_eq.symm

theorem length_le_of_mem (mt : MemTable) {c : Addr × List UInt8} (hc : c ∈ mt.chunks) :
    c.2.length ≤ mt.totalData := by
  rw [mt.total_eq]
  exact List.le_sum_of_mem (List.mem_map_of_mem hc)

section Fits

variable {L : TableLib} {size : Nat} (hb : FitsTables L size) {mt : MemTable}
  (hmax : mt.maxData = size)
include hb hmax

theorem totalData_lt : mt.totalData < maxChunkSize :=
  Nat.lt_of_le_of_lt (hmax ▸ mt.total_le) hb.size_lt

theorem fitsFormat : FitsFormat L mt.chunks where
  count_lt := by
    have hlen := mt.length_le_totalData
    have htotal := totalData_lt hb hmax
    unfold maxChunkSize at htotal
    omega
  record_lt c hc := hb.record_lt _ (by
    have hc' := mt.length_le_of_mem hc
    have hle := mt.total_le
    omega)
  data_ne := mt.data_ne

theorem avg_lt : mt.totalData / mt.chunks.length < maxChunkSize :=
  Nat.lt_of_le_of_lt (Nat.div_le_self _ _) (totalData_lt hb hmax)

theorem count_eq_zero_iff : mt.count = 0 ↔ mt.chunks = [] := by
  rw [count, Nat.mod_eq_of_lt (fitsFormat hb hmax).count_lt, List.length_eq_zero_iff]

end Fits

end MemTable

/-! ## What `Compact` returns -/

section Compact

variable {L : TableLib}

/-- An empty memtable is not written: `maxTableSize` divides by its chunk count. -/
theorem Compact_of_nil {mt : MemTable} (h : mt.chunks = []) (haver : List ChunkSource) :
    Compact L mt haver = none := by
  simp [Compact, MemTable.write, h, guard]

/-- A compaction ends in a table or in the empty source. -/
theorem Compact_ne_compacting {mt : MemTable} {haver : List ChunkSource} {cs : ChunkSource}
    (hcs : Compact L mt haver = some cs) (mt' : MemTable) : cs ≠ .compacting mt' := by
  rintro rfl
  simp only [Compact, Option.bind_eq_bind] at hcs
  obtain ⟨⟨name, data, count⟩, -, hcs⟩ := Option.bind_eq_some_iff.mp hcs
  split at hcs
  · cases hcs
  · obtain ⟨tr, -, htr⟩ := Option.map_eq_some_iff.mp hcs
    cases htr

/-- Leaving out what `rest` holds keeps the addresses of the memtable and `rest`. -/
theorem grows_keptChunks (mt : MemTable) (rest : List (Addr × List UInt8)) :
    Grows (mt.chunks ++ rest) (keptChunks mt rest ++ rest) [] where
  keys_mem k hk := mem_keys_filter_append.mpr hk
  pairs_mem p hp := by
    rcases List.mem_append.mp hp with hp | hp
    · exact .inl (List.mem_append_left _ (List.mem_filter.mp hp).1)
    · exact .inl (List.mem_append_right _ hp)

theorem keptChunks_disjoint (mt : MemTable) (rest : List (Addr × List UInt8)) :
    ((keptChunks mt rest).map Prod.fst).Disjoint (rest.map Prod.fst) := by
  intro a ha ha'
  obtain ⟨p, hp, rfl⟩ := List.mem_map.mp ha
  have hnot := (List.mem_filter.mp hp).2
  simp only [Bool.not_eq_eq_eq_not, Bool.not_true, decide_eq_false_iff_not] at hnot
  exact hnot ha'

end Compact

/-! ## The layers of a table set -/

/-- The sources `css` answer as `contents`, newest first: a compacting source through its
memtable, which has `size` bytes of room; a finished source through the chunks it holds, none of
which the older sources hold. -/
inductive Answers (L : TableLib) (size : Nat) :
    List ChunkSource → List (List (Addr × List UInt8)) → Prop
  | nil : Answers L size [] []
  | compacting {mt : MemTable} {css : List ChunkSource}
      {contents : List (List (Addr × List UInt8))} (hmax : mt.maxData = size)
      (rest : Answers L size css contents) :
      Answers L size (.compacting mt :: css) (mt.chunks :: contents)
  | finished {cs : ChunkSource} {chunks : List (Addr × List UInt8)} {css : List ChunkSource}
      {contents : List (List (Addr × List UInt8))} (hcs : cs.Holds L chunks)
      (hdone : ∀ mt, cs ≠ .compacting mt)
      (hnew : (chunks.map Prod.fst).Disjoint (contents.flatten.map Prod.fst))
      (rest : Answers L size css contents) : Answers L size (cs :: css) (chunks :: contents)

namespace Answers

variable {L : TableLib} {size : Nat} {css : List ChunkSource}
  {contents : List (List (Addr × List UInt8))}

theorem holds (h : Answers L size css contents) :
    List.Forall₂ (ChunkSource.Holds L) css contents := by
  induction h with
  | nil => exact .nil
  | compacting _ _ ih => exact .cons (.compacting _) ih
  | finished hcs _ _ _ ih => exact .cons hcs ih

theorem compacting_max (h : Answers L size css contents) {mt : MemTable}
    (hmt : ChunkSource.compacting mt ∈ css) : mt.maxData = size := by
  induction h with
  | nil => exact absurd hmt List.not_mem_nil
  | compacting hmax _ ih =>
    rcases List.mem_cons.mp hmt with heq | hmt
    · cases heq
      exact hmax
    · exact ih hmt
  | finished _ hdone _ _ ih =>
    rcases List.mem_cons.mp hmt with heq | hmt
    · exact absurd heq.symm (hdone mt)
    · exact ih hmt

/-- With no compaction pending, every layer is new to the older ones: no address is held
twice. -/
theorem nodup_of_done (h : Answers L size css contents)
    (hdone : ∀ mt, ChunkSource.compacting mt ∈ css → mt.chunks = []) :
    (contents.flatten.map Prod.fst).Nodup := by
  induction h with
  | nil => exact List.nodup_nil
  | @compacting mt css contents _ _ ih =>
    have hnil := hdone mt List.mem_cons_self
    rw [List.flatten_cons, hnil, List.nil_append]
    exact ih fun mt' hmt' => hdone mt' (List.mem_cons_of_mem _ hmt')
  | @finished cs chunks css contents hcs hdone' hnew _ ih =>
    rw [List.flatten_cons, List.map_append, List.nodup_append]
    refine ⟨hcs.nodup, ih fun mt' hmt' => hdone mt' (List.mem_cons_of_mem _ hmt'), ?_⟩
    intro a ha b hb hab
    exact hnew ha (hab ▸ hb)

/-- A source answers the same in front of a tail that answers for the same addresses. -/
theorem cons_of_grows {cs : ChunkSource} {chunks : List (Addr × List UInt8)} {css' : List ChunkSource}
    {contents' : List (List (Addr × List UInt8))} (h : Answers L size (cs :: css) (chunks :: contents))
    (h' : Answers L size css' contents') (hg : Grows contents.flatten contents'.flatten []) :
    Answers L size (cs :: css') (chunks :: contents') := by
  cases h with
  | compacting hmax _ => exact .compacting hmax h'
  | finished hcs hdone hnew _ =>
    exact .finished hcs hdone (fun a ha ha' => hnew ha (hg.keys_mem_of_nil ha')) h'

section Compaction

variable (hL : L.Lawful) (hb : FitsTables L size)
include hL hb

/-- The compaction of the newest source: it now holds the chunks of its memtable that the older
sources lack. -/
theorem compact_head {mt : MemTable} {cs : ChunkSource}
    (h : Answers L size (.compacting mt :: css) (mt.chunks :: contents))
    (hcs : Compact L mt css = some cs) :
    Answers L size (cs :: css) (keptChunks mt contents.flatten :: contents) := by
  have hdone := Compact_ne_compacting hcs
  cases h with
  | compacting hmax rest =>
    have hne : mt.chunks ≠ [] := fun hnil => by
      rw [Compact_of_nil hnil] at hcs
      cases hcs
    rw [compact_eq hL (MemTable.fitsFormat hb hmax) hne (MemTable.avg_lt hb hmax) rest.holds,
      Option.some.injEq] at hcs
    subst hcs
    exact .finished (compacted_holds (MemTable.fitsFormat hb hmax) _) hdone
      (keptChunks_disjoint mt _) rest
  | finished _ hdone' _ _ => exact absurd rfl (hdone' mt)

/-- The compaction of the source at `i`, against the sources behind it: the set answers for the
same addresses, with pairs it had. -/
theorem set_compact (h : Answers L size css contents) {i : Nat} {mt : MemTable}
    {cs : ChunkSource} (hi : css[i]? = some (.compacting mt))
    (hcs : Compact L mt (css.drop (i + 1)) = some cs) :
    ∃ contents', Answers L size (css.set i cs) contents' ∧
      Grows contents.flatten contents'.flatten [] := by
  induction h generalizing i with
  | nil => cases hi
  | @compacting mt₀ css contents hmax rest ih =>
    cases i with
    | zero =>
      cases hi
      refine ⟨_, compact_head hL hb (.compacting hmax rest) hcs, ?_⟩
      exact grows_keptChunks mt contents.flatten
    | succ i =>
      obtain ⟨contents', h', hg⟩ := ih hi hcs
      exact ⟨_, (Answers.compacting hmax rest).cons_of_grows h' hg, hg.append_left _⟩
  | @finished cs₀ chunks css contents hcs₀ hdone hnew rest ih =>
    cases i with
    | zero =>
      cases hi
      exact absurd rfl (hdone mt)
    | succ i =>
      obtain ⟨contents', h', hg⟩ := ih hi hcs
      exact ⟨_, (Answers.finished hcs₀ hdone hnew rest).cons_of_grows h' hg, hg.append_left _⟩

/-- `finishCompactionsFrom`: every compaction of a memtable with chunks finishes, the set answers
for the same addresses with pairs it had, and the sources still compacting hold nothing. -/
theorem finishCompactionsFrom (h : Answers L size css contents) {css' : List ChunkSource}
    (hf : TableSet.finishCompactionsFrom L css = some css') :
    ∃ contents', Answers L size css' contents' ∧ Grows contents.flatten contents'.flatten [] ∧
      ∀ mt, ChunkSource.compacting mt ∈ css' → mt.chunks = [] := by
  induction h generalizing css' with
  | nil =>
    cases hf
    exact ⟨[], .nil, Grows.refl _ _, fun _ hmt => absurd hmt List.not_mem_nil⟩
  | @compacting mt css contents hmax rest ih =>
    by_cases hcount : mt.count = 0
    · -- an empty memtable is left compacting
      simp only [TableSet.finishCompactionsFrom, hcount, ne_eq, not_true_eq_false, if_false] at hf
      obtain ⟨rest', hrest', rfl⟩ := Option.map_eq_some_iff.mp hf
      obtain ⟨contents', h', hg, hnil⟩ := ih hrest'
      refine ⟨_, .compacting hmax h', hg.append_left _, fun mt' hmt' => ?_⟩
      rcases List.mem_cons.mp hmt' with heq | hmt'
      · cases heq
        exact (MemTable.count_eq_zero_iff hb hmax).mp hcount
      · exact hnil mt' hmt'
    · simp only [TableSet.finishCompactionsFrom, hcount, ne_eq, not_false_eq_true, if_true,
        Option.bind_eq_bind] at hf
      obtain ⟨cs, hcs, hf⟩ := Option.bind_eq_some_iff.mp hf
      obtain ⟨rest', hrest', hf⟩ := Option.bind_eq_some_iff.mp hf
      cases hf
      obtain ⟨contents', h', hg, hnil⟩ := ih hrest'
      have hhead := compact_head hL hb (.compacting hmax rest) hcs
      refine ⟨_, hhead.cons_of_grows h' hg, ?_, fun mt' hmt' => ?_⟩
      · exact (grows_keptChunks mt contents.flatten).trans (hg.append_left _)
      · rcases List.mem_cons.mp hmt' with heq | hmt'
        · exact absurd heq.symm (Compact_ne_compacting hcs mt')
        · exact hnil mt' hmt'
  | @finished cs chunks css contents hcs hdone hnew rest ih =>
    have hf' : (TableSet.finishCompactionsFrom L css).map (cs :: ·) = some css' := by
      cases cs with
      | compacting mt => exact absurd rfl (hdone mt)
      | table tr => exact hf
      | empty => exact hf
    obtain ⟨rest', hrest', rfl⟩ := Option.map_eq_some_iff.mp hf'
    obtain ⟨contents', h', hg, hnil⟩ := ih hrest'
    refine ⟨_, (Answers.finished hcs hdone hnew rest).cons_of_grows h' hg, hg.append_left _,
      fun mt' hmt' => ?_⟩
    rcases List.mem_cons.mp hmt' with heq | hmt'
    · exact absurd heq.symm (hdone mt')
    · exact hnil mt' hmt'

end Compaction

end Answers

end Noms.Nbs
