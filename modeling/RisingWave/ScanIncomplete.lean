import Mathlib.Data.List.Chain
import Mathlib.Data.List.Forall2
import RisingWave.PointGet

/-!
The scan of a store that misses cells of one row. The store is complete but
for the row of one pk `p`, which keeps only the cells at some of its column
indices, at least one and not all. In key order its entries are the rows
before `p`, the cells `p` keeps and the rows after `p`. `next` counts cells
and compares pk segments but never reads a column index: the call that reaches
`p` reads its cells, then the first cell of the next row, and fails with
`incomplete item`; the call after it starts on the rest of that row and fails
the same way. The scan never finds a row boundary again, and every row after
`p` is lost to it, while `get`, which builds each cell's key, still reads them.
-/

namespace RisingWave.ScanIncomplete

open Keys Common Store Table ScanSound ScanComplete PointGet

variable {Kind Datum : Type}

def keptCells (pre p : Bytes) (columns : Nat) (cell : Bytes → Nat → Bytes) (kept : Nat → Bool) :
    List (Bytes × Bytes) :=
  ((List.range columns).filter kept).map fun idx => (pre ++ p ++ be32 idx, cell p idx)

def missingCells (pre : Bytes) (before : List Bytes) (p : Bytes) (after : List Bytes) (columns : Nat)
    (cell : Bytes → Nat → Bytes) (kept : Nat → Bool) : List (Bytes × Bytes) :=
  storeCells pre before columns cell ++ keptCells pre p columns cell kept ++ storeCells pre after columns cell

section Layout

variable {pre p : Bytes} {before after : List Bytes} {columns : Nat} {cell : Bytes → Nat → Bytes}
  {kept : Nat → Bool}

theorem mem_keptCells {entry : Bytes × Bytes} :
    entry ∈ keptCells pre p columns cell kept ↔
      ∃ idx < columns, kept idx ∧ entry = (pre ++ p ++ be32 idx, cell p idx) := by
  simp only [keptCells, List.mem_map, List.mem_filter, List.mem_range]
  constructor
  · rintro ⟨idx, ⟨lt, keeps⟩, rfl⟩
    exact ⟨idx, lt, keeps, rfl⟩
  · rintro ⟨idx, lt, keeps, rfl⟩
    exact ⟨idx, ⟨lt, keeps⟩, rfl⟩

theorem samePk_rowCells : SamePk pre.length p (rowCells pre p columns cell) := by
  intro entry mem
  obtain ⟨idx, -, rfl⟩ := mem_rowCells.mp mem
  exact ⟨long_cellKey pre p idx, pkSegment_cellKey pre p idx⟩

theorem samePk_keptCells : SamePk pre.length p (keptCells pre p columns cell kept) := by
  intro entry mem
  obtain ⟨idx, -, -, rfl⟩ := mem_keptCells.mp mem
  exact ⟨long_cellKey pre p idx, pkSegment_cellKey pre p idx⟩

theorem length_keptCells_lt (misses : ∃ idx < columns, kept idx = false) :
    (keptCells pre p columns cell kept).length < columns := by
  obtain ⟨idx, lt, dropped⟩ := misses
  simpa [keptCells] using
    List.length_filter_lt_length_iff_exists.mpr ⟨idx, List.mem_range.mpr lt, by simp [dropped]⟩

-- The layout is the complete layout of `before ++ p :: after` with cells of `p` left out.
theorem missingCells_sublist :
    List.Sublist (missingCells pre before p after columns cell kept)
      (storeCells pre (before ++ p :: after) columns cell) := by
  have split : storeCells pre (before ++ p :: after) columns cell =
      storeCells pre before columns cell ++ (rowCells pre p columns cell ++ storeCells pre after columns cell) := by
    simp only [storeCells, List.flatMap_append, List.flatMap_cons]
  rw [split, missingCells, List.append_assoc]
  exact (List.Sublist.refl _).append (((List.filter_sublist _).map _).append (List.Sublist.refl _))

theorem ne_of_mem_before (sorted : (before ++ p :: after).Pairwise KeyLt) {q : Bytes} (mem : q ∈ before) :
    q ≠ p := fun same =>
  keyLt_irrefl p (same ▸ (List.pairwise_append.mp sorted).2.2 q mem p (List.mem_cons_self p after))

theorem ne_of_mem_after (sorted : (before ++ p :: after).Pairwise KeyLt) {q : Bytes} (mem : q ∈ after) :
    q ≠ p := fun same =>
  keyLt_irrefl p (same ▸ List.rel_of_pairwise_cons (List.pairwise_append.mp sorted).2.1 mem)

theorem mem_missingCells (sorted : (before ++ p :: after).Pairwise KeyLt) {entry : Bytes × Bytes} :
    entry ∈ missingCells pre before p after columns cell kept ↔
      ∃ q ∈ before ++ p :: after, ∃ idx < columns, (q = p → kept idx) ∧
        entry = (pre ++ q ++ be32 idx, cell q idx) := by
  simp only [missingCells, List.mem_append, mem_storeCells, mem_keptCells, List.mem_cons]
  constructor
  · rintro ((⟨q, mem, idx, lt, rfl⟩ | ⟨idx, lt, keeps, rfl⟩) | ⟨q, mem, idx, lt, rfl⟩)
    · exact ⟨q, .inl mem, idx, lt, fun same => absurd same (ne_of_mem_before sorted mem), rfl⟩
    · exact ⟨p, .inr (.inl rfl), idx, lt, fun _ => keeps, rfl⟩
    · exact ⟨q, .inr (.inr mem), idx, lt, fun same => absurd same (ne_of_mem_after sorted mem), rfl⟩
  · rintro ⟨q, (mem | rfl | mem), idx, lt, keeps, rfl⟩
    · exact .inl (.inl ⟨q, mem, idx, lt, rfl⟩)
    · exact .inl (.inr ⟨idx, lt, keeps rfl, rfl⟩)
    · exact .inr ⟨q, mem, idx, lt, rfl⟩

theorem chain_after (sorted : (before ++ p :: after).Pairwise KeyLt) : List.Chain (· ≠ ·) p after :=
  (List.pairwise_append.mp sorted).2.1.chain'.imp fun a b lt (same : a = b) => by
    subst same
    exact keyLt_irrefl a lt

end Layout

-- Key-sorted entries whose keys are those of the complete store with cells of
-- `p` left out are the layout `missingCells`.
theorem entries_eq_missingCells {entries : List (Bytes × Bytes)} {pre p : Bytes} {before after : List Bytes}
    {columns : Nat} {cell : Bytes → Nat → Bytes} {kept : Nat → Bool} (ascending : Ascending entries)
    (bound : columns ≤ UInt32.size) (sorted : (before ++ p :: after).Pairwise KeyLt)
    (prefixFree : ∀ q ∈ before ++ p :: after, ∀ r ∈ before ++ p :: after, q <+: r → q = r)
    (shaped : ∀ entry ∈ entries, ∃ q ∈ before ++ p :: after, ∃ idx < columns,
      (q = p → kept idx) ∧ entry.1 = pre ++ q ++ be32 idx)
    (complete : ∀ q ∈ before ++ p :: after, ∀ idx < columns, (q = p → kept idx) →
      (pre ++ q ++ be32 idx, cell q idx) ∈ entries) :
    entries = missingCells pre before p after columns cell kept := by
  have layoutAscending : Ascending (missingCells pre before p after columns cell kept) :=
    (ascending_storeCells bound sorted prefixFree).sublist missingCells_sublist
  refine ascending_eq ascending layoutAscending fun entry => ?_
  rw [mem_missingCells sorted]
  constructor
  · intro mem
    obtain ⟨q, hq, idx, hidx, keeps, key⟩ := shaped entry mem
    refine ⟨q, hq, idx, hidx, keeps, ?_⟩
    obtain ⟨k, v⟩ := entry
    simp only at key
    subst key
    rw [value_unique ascending mem (complete q hq idx hidx keeps)]
  · rintro ⟨q, hq, idx, hidx, keeps, rfl⟩
    exact complete q hq idx hidx keeps

variable (enc : Encoding Kind Datum)

-- The scan of key-sorted entries laid out as a complete store with cells of one row left out.
theorem calls_of_missing (schema : Schema Kind) (pkColumns : List Nat) {entries : List (Bytes × Bytes)}
    {pre : Bytes} {before : List Bytes} {p : Bytes} {after : List Bytes} {cell : Bytes → Nat → Bytes}
    {kept : Nat → Bool} (ascending : Ascending entries) (bound : schema.len ≤ UInt32.size)
    (sorted : (before ++ p :: after).Pairwise KeyLt)
    (prefixFree : ∀ q ∈ before ++ p :: after, ∀ r ∈ before ++ p :: after, q <+: r → q = r)
    (keeps : ∃ idx < schema.len, kept idx) (misses : ∃ idx < schema.len, kept idx = false)
    (shaped : ∀ entry ∈ entries, ∃ q ∈ before ++ p :: after, ∃ idx < schema.len,
      (q = p → kept idx) ∧ entry.1 = pre ++ q ++ be32 idx)
    (complete : ∀ q ∈ before ++ p :: after, ∀ idx < schema.len, (q = p → kept idx) →
      (pre ++ q ++ be32 idx, cell q idx) ∈ entries) :
    (MViewTableIter.new (entries.map .ok) pre schema pkColumns).calls enc
        (before.length + after.length + 2) =
      some (before.map (fun q => (some ·) <$> RowDeserializer.deserialize enc ⟨schema.kinds⟩
          ((List.range schema.len).flatMap (cell q))) ++
        List.replicate (after.length + 1) (.error incompleteItem) ++ [.ok none],
        MViewTableIter.new [] pre schema pkColumns) := by
  have layout := entries_eq_missingCells ascending bound sorted prefixFree shaped complete
  obtain ⟨idx, lt, keepsIdx⟩ := keeps
  have positive : 0 < schema.len := Nat.zero_lt_of_lt lt
  have nonempty : keptCells pre p schema.len cell kept ≠ [] :=
    List.ne_nil_of_mem (mem_keptCells.mpr ⟨idx, lt, keepsIdx, rfl⟩)
  have afterRows : List.Forall₂ (fun q block => block.length = schema.len ∧ SamePk pre.length q block)
      after (after.map fun q => rowCells pre q schema.len cell) :=
    List.forall₂_map_right_iff.mpr (List.forall₂_same.mpr fun _ _ => ⟨by simp [rowCells], samePk_rowCells⟩)
  have rowsRun := calls_blocks enc (after.length + 2)
    ((keptCells pre p schema.len cell kept ++ storeCells pre after schema.len cell).map .ok)
    (before.map fun q => rowCells pre q schema.len cell)
    (MViewTableIter.new (entries.map .ok) pre schema pkColumns) (rowBlocks_storeCells positive)
    (by rw [layout, missingCells, List.append_assoc, List.map_append, storeCells, List.flatMap_def]; rfl)
  have gapRun := calls_desync enc 1
    ({ MViewTableIter.new (entries.map .ok) pre schema pkColumns with
      inner := (keptCells pre p schema.len cell kept ++ storeCells pre after schema.len cell).map .ok })
    afterRows (chain_after sorted) samePk_keptCells nonempty (length_keptCells_lt misses)
    (by rw [storeCells, List.flatMap_def]; rfl)
  rw [List.length_map] at rowsRun gapRun
  rw [Nat.add_assoc, rowsRun, gapRun]
  simp [calls_exhausted enc, rowCells, List.flatMap_map, Schema.kinds, MViewTableIter.new, Function.comp_def]

/-- A store missing cells of one row: with the pks `before ++ p :: after`
sorted and prefix-free, and every row complete but that of `p`, which keeps at
least one of its cells and not all, the scan returns the rows before `p`, then
fails with `incomplete item` once for `p` and once for every row after it, then
returns `Ok(None)`. No row after the incomplete one is ever returned. -/
theorem scan_loses_rows_after_gap (schema : Schema Kind) (pkColumns : List Nat)
    (store : MemoryStateStore) (pre : Bytes) (before : List Bytes) (p : Bytes) (after : List Bytes)
    (cell : Bytes → Nat → Bytes) (kept : Nat → Bool) (bound : schema.len ≤ UInt32.size)
    (sorted : (before ++ p :: after).Pairwise KeyLt)
    (prefixFree : ∀ q ∈ before ++ p :: after, ∀ r ∈ before ++ p :: after, q <+: r → q = r)
    (keeps : ∃ idx < schema.len, kept idx) (misses : ∃ idx < schema.len, kept idx = false)
    (shaped : ∀ entry ∈ store.entries, ∃ q ∈ before ++ p :: after, ∃ idx < schema.len,
      (q = p → kept idx) ∧ entry.1 = pre ++ q ++ be32 idx)
    (complete : ∀ q ∈ before ++ p :: after, ∀ idx < schema.len, (q = p → kept idx) →
      (pre ++ q ++ be32 idx, cell q idx) ∈ store.entries) :
    (MViewTableIter.new (store.entries.map .ok) pre schema pkColumns).calls enc
        (before.length + after.length + 2) =
      some (before.map (fun q => (some ·) <$> RowDeserializer.deserialize enc ⟨schema.kinds⟩
          ((List.range schema.len).flatMap (cell q))) ++
        List.replicate (after.length + 1) (.error incompleteItem) ++ [.ok none],
        MViewTableIter.new [] pre schema pkColumns) :=
  calls_of_missing enc schema pkColumns store.ascending bound sorted prefixFree keeps misses shaped complete

-- Two-column rows under the prefix `[9]` with pks `[1]`, `[2]` and `[3]`, the
-- second cell of `[2]` missing.
def gapStore : MemoryStateStore :=
  ⟨[([9, 1, 0, 0, 0, 0], [10]), ([9, 1, 0, 0, 0, 1], [11]), ([9, 2, 0, 0, 0, 0], [20]),
    ([9, 3, 0, 0, 0, 0], [30]), ([9, 3, 0, 0, 0, 1], [31])], by decide⟩

def pairSchema : Schema Unit := ⟨[⟨()⟩, ⟨()⟩]⟩

theorem gapStore_scan :
    (MViewTableIter.new (gapStore.entries.map .ok) [9] pairSchema []).calls byteEncoding 4 =
      some ([.ok (some [10, 11]), .error incompleteItem, .error incompleteItem, .ok none],
        MViewTableIter.new [] [9] pairSchema []) :=
  (scan_loses_rows_after_gap byteEncoding pairSchema [] gapStore [9] [[1]] [2] [[3]]
    (fun q idx => q.map (· * 10 + idx.toUInt8)) (· == 0) (by decide) (by decide) (by decide)
    (by decide) (by decide) (by decide) (by decide)).trans rfl

/-- On such a store the two read paths of `MViewTable` disagree: `get` returns
each cell of a row after the incomplete one, while the scan of `iter` fails
with `incomplete item` on each of those rows and returns none of them. -/
theorem get_serves_rows_scan_loses (schema : Schema Kind) (pkColumns : List Nat) (orderings : List OrderType)
    (store : MemoryStateStore) (pre : Bytes) (before : List Bytes) (p : Bytes) (after : List Bytes)
    (cell : Bytes → Nat → Bytes) (datum : Bytes → Nat → Datum) (kept : Nat → Bool)
    (bound : schema.len ≤ UInt32.size) (sorted : (before ++ p :: after).Pairwise KeyLt)
    (prefixFree : ∀ q ∈ before ++ p :: after, ∀ r ∈ before ++ p :: after, q <+: r → q = r)
    (keeps : ∃ idx < schema.len, kept idx) (misses : ∃ idx < schema.len, kept idx = false)
    (shaped : ∀ entry ∈ store.entries, ∃ q ∈ before ++ p :: after, ∃ idx < schema.len,
      (q = p → kept idx) ∧ entry.1 = pre ++ q ++ be32 idx)
    (complete : ∀ q ∈ before ++ p :: after, ∀ idx < schema.len, (q = p → kept idx) →
      (pre ++ q ++ be32 idx, cell q idx) ∈ store.entries)
    (decodes : ∀ q ∈ after, ∀ idx < schema.len, ∀ kind, schema.kinds[idx]? = some kind →
      ∃ rest, enc.deserializeDatumFrom kind (cell q idx) = .ok (datum q idx, rest)) :
    let table := MViewTable.new ⟨store.toStateStore, pre⟩ schema pkColumns orderings
    (∀ pk q, enc.serializePk pk table.sortKeySerializer = .ok q → q ∈ after →
      ∀ idx < schema.len, table.get enc pk idx = some (.ok (some (datum q idx)))) ∧
    ∃ it, table.iter = .ok it ∧
      it.calls enc (before.length + after.length + 2) =
        some (before.map (fun q => (some ·) <$> RowDeserializer.deserialize enc ⟨schema.kinds⟩
            ((List.range schema.len).flatMap (cell q))) ++
          List.replicate (after.length + 1) (.error incompleteItem) ++ [.ok none],
          MViewTableIter.new [] pre schema pkColumns) := by
  intro table
  refine ⟨fun pk q serialized later idx lt => ?_, MViewTableIter.new (store.entries.map .ok) pre schema pkColumns,
    ?_, calls_of_missing enc schema pkColumns store.ascending bound sorted prefixFree keeps misses shaped complete⟩
  · obtain ⟨kind, typed⟩ : ∃ kind, schema.kinds[idx]? = some kind :=
      Option.ne_none_iff_exists'.mp (by simpa using lt)
    have stored := complete q (List.mem_append_right _ (List.mem_cons_of_mem p later)) idx lt
      fun same => absurd same (ne_of_mem_after sorted later)
    have read : table.keyspace.get (q ++ be32 idx) = .ok (some (cell q idx)) := by
      show Except.ok (List.lookup (pre ++ (q ++ be32 idx)) store.entries) = _
      rw [← List.append_assoc, lookup_of_mem store.ascending stored]
    obtain ⟨rest, decoded⟩ := decodes q later idx lt kind typed
    rw [get_present enc serialized lt (Nat.lt_of_lt_of_le lt bound) read typed, decoded]
    rfl
  · show (do let inner ← store.toStateStore.iter pre; pure _) = _
    rw [iter_of_prefixed store fun entry mem => by
      obtain ⟨q, -, idx, -, -, key⟩ := shaped entry mem
      exact key ▸ (List.prefix_append pre q).trans (List.prefix_append _ _)]
    rfl

def gapTable : MViewTable Unit :=
  MViewTable.new ⟨gapStore.toStateStore, [9]⟩ pairSchema [0] [.ascending]

theorem gapTable_reads :
    gapTable.get byteEncoding [3] 1 = some (.ok (some 31)) ∧
    ∃ it, gapTable.iter = .ok it ∧ it.calls byteEncoding 4 =
      some ([.ok (some [10, 11]), .error incompleteItem, .error incompleteItem, .ok none],
        MViewTableIter.new [] [9] pairSchema [0]) :=
  let reads := get_serves_rows_scan_loses byteEncoding pairSchema [0] [.ascending] gapStore [9] [[1]] [2] [[3]]
    (fun q idx => q.map (· * 10 + idx.toUInt8)) (fun q idx => q.headD 0 * 10 + idx.toUInt8) (· == 0)
    (by decide) (by decide) (by decide) (by decide) (by decide) (by decide) (by decide)
    fun q later _ _ _ _ => ⟨[], by obtain rfl := List.mem_singleton.mp later; rfl⟩
  let ⟨it, iter, calls⟩ := reads.2
  ⟨reads.1 [3] [3] rfl (by decide) 1 (by decide), it, iter, calls.trans rfl⟩

end RisingWave.ScanIncomplete
