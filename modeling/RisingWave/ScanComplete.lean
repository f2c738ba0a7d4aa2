import RisingWave.ScanSound

/-!
The scan of a complete store: every key is a cell key `prefix ++ pk ++ be32(idx)`
with `idx < schema.len()`, the pk encodings are prefix-free, and every pk has
all its cells. In key order such a store is exactly its rows laid end to end,
each row's cells in column order, the rows in pk order: a pk encoding that is
not a prefix of another one decides the order of every key it begins. The scan
then returns one call per row, in pk order, and `Ok(None)`.
-/

namespace RisingWave.ScanComplete

open Keys Common Store Table ScanSound

variable {Kind Datum : Type}

-- Two key-sorted lists holding the same entries are the same list.
theorem ascending_eq : ∀ {l₁ l₂ : List (Bytes × Bytes)}, Ascending l₁ → Ascending l₂ →
    (∀ entry, entry ∈ l₁ ↔ entry ∈ l₂) → l₁ = l₂
  | [], l₂, _, _, same => (List.eq_nil_iff_forall_not_mem.mpr fun e mem => by simpa using (same e).mpr mem).symm
  | x :: xs, [], _, _, same => absurd ((same x).mp (List.mem_cons_self _ _)) (List.not_mem_nil _)
  | x :: xs, y :: ys, first, second, same => by
      obtain ⟨xBefore, xsAscending⟩ := List.pairwise_cons.mp first
      obtain ⟨yBefore, ysAscending⟩ := List.pairwise_cons.mp second
      have heads : x = y := by
        rcases List.mem_cons.mp ((same x).mp (List.mem_cons_self _ _)) with equal | later
        · exact equal
        rcases List.mem_cons.mp ((same y).mpr (List.mem_cons_self _ _)) with equal | earlier
        · exact equal.symm
        exact absurd (xBefore y earlier) (keyLt_asymm (yBefore x later))
      subst heads
      have tails : ∀ entry, entry ∈ xs ↔ entry ∈ ys := fun entry => by
        constructor
        · intro mem
          rcases List.mem_cons.mp ((same entry).mp (List.mem_cons_of_mem _ mem)) with rfl | later
          · exact absurd (xBefore _ mem) (keyLt_irrefl _)
          · exact later
        · intro mem
          rcases List.mem_cons.mp ((same entry).mpr (List.mem_cons_of_mem _ mem)) with rfl | later
          · exact absurd (yBefore _ mem) (keyLt_irrefl _)
          · exact later
      rw [ascending_eq xsAscending ysAscending tails]

def rowCells (pre p : Bytes) (columns : Nat) (cell : Bytes → Nat → Bytes) : List (Bytes × Bytes) :=
  (List.range columns).map fun idx => (pre ++ p ++ be32 idx, cell p idx)

def storeCells (pre : Bytes) (pks : List Bytes) (columns : Nat) (cell : Bytes → Nat → Bytes) :
    List (Bytes × Bytes) :=
  pks.flatMap fun p => rowCells pre p columns cell

section Layout

variable {pre : Bytes} {pks : List Bytes} {columns : Nat} {cell : Bytes → Nat → Bytes}

theorem mem_rowCells {p : Bytes} {entry : Bytes × Bytes} :
    entry ∈ rowCells pre p columns cell ↔ ∃ idx < columns, entry = (pre ++ p ++ be32 idx, cell p idx) := by
  simp [rowCells, eq_comm]

theorem ascending_rowCells (p : Bytes) (bound : columns ≤ UInt32.size) :
    Ascending (rowCells pre p columns cell) := by
  unfold Ascending rowCells
  rw [List.pairwise_map]
  refine (List.pairwise_lt_range columns).imp_of_mem fun {i j} _ hj lt => ?_
  exact keyLt_append_left (pre ++ p) (be32_lt_be32 lt (by simp at hj; omega))

-- Rows of pks that are apart in the order of pks keep every cell apart.
theorem ascending_storeCells (bound : columns ≤ UInt32.size) (sorted : pks.Pairwise KeyLt)
    (prefixFree : ∀ p ∈ pks, ∀ q ∈ pks, p <+: q → p = q) :
    Ascending (storeCells pre pks columns cell) := by
  unfold Ascending storeCells
  rw [List.pairwise_flatMap]
  refine ⟨fun p _ => ascending_rowCells p bound, sorted.imp_of_mem fun {p q} hp hq lt => ?_⟩
  intro x hx y hy
  obtain ⟨i, -, rfl⟩ := mem_rowCells.mp hx
  obtain ⟨j, -, rfl⟩ := mem_rowCells.mp hy
  have apart : ¬ p <+: q := fun pre' => keyLt_irrefl p (by rwa [← prefixFree p hp q hq pre'] at lt)
  simpa only [List.append_assoc] using
    keyLt_append_left pre (keyLt_append_of_apart lt apart (be32 i) (be32 j))

theorem mem_storeCells {entry : Bytes × Bytes} :
    entry ∈ storeCells pre pks columns cell ↔
      ∃ p ∈ pks, ∃ idx < columns, entry = (pre ++ p ++ be32 idx, cell p idx) := by
  simp only [storeCells, List.mem_flatMap, mem_rowCells]

theorem rowBlocks_storeCells (positive : 0 < columns) :
    RowBlocks pre.length columns (pks.map fun p => rowCells pre p columns cell) := by
  intro block mem
  obtain ⟨p, -, rfl⟩ := List.mem_map.mp mem
  refine ⟨by simpa [rowCells] using Nat.pos_iff_ne_zero.mp positive, by simp [rowCells], p, ?_⟩
  intro entry here
  obtain ⟨idx, -, rfl⟩ := mem_rowCells.mp here
  exact ⟨long_cellKey pre p idx, pkSegment_cellKey pre p idx⟩

end Layout

-- Key-sorted entries whose keys are the cell keys of `pks`, each pk with all
-- its cells, are the row-by-row layout.
theorem entries_eq_storeCells {entries : List (Bytes × Bytes)} {pre : Bytes} {pks : List Bytes}
    {columns : Nat} {cell : Bytes → Nat → Bytes} (ascending : Ascending entries)
    (bound : columns ≤ UInt32.size) (sorted : pks.Pairwise KeyLt)
    (prefixFree : ∀ p ∈ pks, ∀ q ∈ pks, p <+: q → p = q)
    (shaped : ∀ entry ∈ entries, ∃ p ∈ pks, ∃ idx < columns, entry.1 = pre ++ p ++ be32 idx)
    (complete : ∀ p ∈ pks, ∀ idx < columns, (pre ++ p ++ be32 idx, cell p idx) ∈ entries) :
    entries = storeCells pre pks columns cell := by
  refine ascending_eq ascending (ascending_storeCells bound sorted prefixFree) fun entry => ?_
  rw [mem_storeCells]
  constructor
  · intro mem
    obtain ⟨p, hp, idx, hidx, key⟩ := shaped entry mem
    refine ⟨p, hp, idx, hidx, ?_⟩
    obtain ⟨k, v⟩ := entry
    simp only at key
    subst key
    rw [value_unique ascending mem (complete p hp idx hidx)]
  · rintro ⟨p, hp, idx, hidx, rfl⟩
    exact complete p hp idx hidx

variable (enc : Encoding Kind Datum)

-- The scan of key-sorted entries laid out as a complete store.
theorem calls_of_complete (schema : Schema Kind) (pkColumns : List Nat)
    {entries : List (Bytes × Bytes)} {pre : Bytes} {pks : List Bytes} {cell : Bytes → Nat → Bytes}
    (ascending : Ascending entries) (positive : 0 < schema.len) (bound : schema.len ≤ UInt32.size)
    (sorted : pks.Pairwise KeyLt) (prefixFree : ∀ p ∈ pks, ∀ q ∈ pks, p <+: q → p = q)
    (shaped : ∀ entry ∈ entries, ∃ p ∈ pks, ∃ idx < schema.len, entry.1 = pre ++ p ++ be32 idx)
    (complete : ∀ p ∈ pks, ∀ idx < schema.len, (pre ++ p ++ be32 idx, cell p idx) ∈ entries) :
    (MViewTableIter.new (entries.map .ok) pre schema pkColumns).calls enc (pks.length + 1) =
      some (pks.map (fun p => (some ·) <$> RowDeserializer.deserialize enc ⟨schema.kinds⟩
          ((List.range schema.len).flatMap (cell p))) ++ [.ok none],
        MViewTableIter.new [] pre schema pkColumns) := by
  have layout := entries_eq_storeCells ascending bound sorted prefixFree shaped complete
  have run := calls_blocks enc 1 [] (pks.map fun p => rowCells pre p schema.len cell)
    (MViewTableIter.new (entries.map .ok) pre schema pkColumns) (rowBlocks_storeCells positive)
    (by rw [List.append_nil, ← List.flatMap_def]; exact congrArg _ layout)
  have ends : (MViewTableIter.new [] pre schema pkColumns : MViewTableIter Kind).next enc =
      some (.ok none, MViewTableIter.new [] pre schema pkColumns) := next_nil enc rfl
  rw [List.length_map] at run
  rw [run]
  simp only [MViewTableIter.new] at ends ⊢
  simp only [MViewTableIter.calls, ends, List.map_map, Option.map_some']
  congr
  funext p
  simp [rowCells, List.flatMap_map, Schema.kinds]

/-- The scan of a complete store: one call per pk, in ascending pk order, each
returning what `RowDeserializer::deserialize` makes of that pk's cells
concatenated in column order, then `Ok(None)`; the scan adds no error of its own. -/
theorem scan_complete_ordered (schema : Schema Kind) (pkColumns : List Nat)
    (store : MemoryStateStore) (pre : Bytes) (pks : List Bytes) (cell : Bytes → Nat → Bytes)
    (positive : 0 < schema.len) (bound : schema.len ≤ UInt32.size)
    (sorted : pks.Pairwise KeyLt) (prefixFree : ∀ p ∈ pks, ∀ q ∈ pks, p <+: q → p = q)
    (shaped : ∀ entry ∈ store.entries, ∃ p ∈ pks, ∃ idx < schema.len, entry.1 = pre ++ p ++ be32 idx)
    (complete : ∀ p ∈ pks, ∀ idx < schema.len, (pre ++ p ++ be32 idx, cell p idx) ∈ store.entries) :
    (MViewTableIter.new (store.entries.map .ok) pre schema pkColumns).calls enc (pks.length + 1) =
      some (pks.map (fun p => (some ·) <$> RowDeserializer.deserialize enc ⟨schema.kinds⟩
          ((List.range schema.len).flatMap (cell p))) ++ [.ok none],
        MViewTableIter.new [] pre schema pkColumns) :=
  calls_of_complete enc schema pkColumns store.ascending positive bound sorted prefixFree shaped complete

-- Two one-column rows under the prefix `[9]`, with pks `[1]` and `[2]`.
def twoRowStore : MemoryStateStore :=
  ⟨[([9, 1, 0, 0, 0, 0], [10]), ([9, 2, 0, 0, 0, 0], [20])], by decide⟩

theorem twoRowStore_scan :
    (MViewTableIter.new (twoRowStore.entries.map .ok) [9] byteSchema []).calls byteEncoding 3 =
      some ([.ok (some [10]), .ok (some [20]), .ok none], MViewTableIter.new [] [9] byteSchema []) :=
  (scan_complete_ordered byteEncoding byteSchema [] twoRowStore [9] [[1], [2]]
    (fun p _ => p.map (· * 10)) (by decide) (by decide) (by decide) (by decide) (by decide)
    (by decide)).trans rfl

-- The complete store of one pk and one column whose cell does not decode: the
-- first call returns the decoder's error, not `Ok(Some(r_1))`.
theorem complete_store_undecodable_cell :
    rowCells [] [] 1 (fun _ _ => []) = [(([0, 0, 0, 0] : Bytes), ([] : Bytes))] ∧
    (MViewTableIter.new [.ok ([0, 0, 0, 0], [])] [] byteSchema []).calls byteEncoding 2 =
      some ([.error (.internalError "unexpected end of buffer"), .ok none],
        MViewTableIter.new [] [] byteSchema []) :=
  ⟨by decide, rfl⟩

/-- Tables sharing one state store: `MViewTable::iter` reads its own keyspace
only, so a table's scan is that of a complete store as soon as the entries under
its prefix form one, whatever the store holds under other prefixes. -/
theorem iter_shared_store (schema : Schema Kind) (pkColumns : List Nat) (orderings : List OrderType)
    (store : MemoryStateStore) (pre : Bytes) (pks : List Bytes) (cell : Bytes → Nat → Bytes)
    (positive : 0 < schema.len) (bound : schema.len ≤ UInt32.size)
    (sorted : pks.Pairwise KeyLt) (prefixFree : ∀ p ∈ pks, ∀ q ∈ pks, p <+: q → p = q)
    (shaped : ∀ entry ∈ store.entries, pre <+: entry.1 →
      ∃ p ∈ pks, ∃ idx < schema.len, entry.1 = pre ++ p ++ be32 idx)
    (complete : ∀ p ∈ pks, ∀ idx < schema.len, (pre ++ p ++ be32 idx, cell p idx) ∈ store.entries) :
    ∃ it, (MViewTable.new ⟨store.toStateStore, pre⟩ schema pkColumns orderings).iter = .ok it ∧
      it.calls enc (pks.length + 1) =
        some (pks.map (fun p => (some ·) <$> RowDeserializer.deserialize enc ⟨schema.kinds⟩
            ((List.range schema.len).flatMap (cell p))) ++ [.ok none],
          MViewTableIter.new [] pre schema pkColumns) := by
  have underPrefix : ∀ {entry : Bytes × Bytes},
      entry ∈ store.entries.filter (fun entry => pre.isPrefixOf entry.1) ↔
        entry ∈ store.entries ∧ pre <+: entry.1 := by
    intro entry
    simp only [List.mem_filter, List.isPrefixOf_iff_prefix]
  refine ⟨_, rfl, calls_of_complete enc schema pkColumns (store.ascending.filter _) positive bound
    sorted prefixFree (fun entry mem => shaped entry (underPrefix.mp mem).1 (underPrefix.mp mem).2)
    fun p mem idx lt => underPrefix.mpr ⟨complete p mem idx lt, ?_⟩⟩
  exact (List.prefix_append pre p).trans (List.prefix_append _ _)

-- The store of `twoRowStore` with a second table's cell under the prefix `[5]`.
def sharedStore : MemoryStateStore :=
  ⟨[([5, 7, 0, 0, 0, 0], [3]), ([9, 1, 0, 0, 0, 0], [10]), ([9, 2, 0, 0, 0, 0], [20])], by decide⟩

theorem sharedStore_scan :
    ∃ it, (MViewTable.new ⟨sharedStore.toStateStore, [9]⟩ byteSchema [] []).iter = .ok it ∧
      it.calls byteEncoding 3 =
        some ([.ok (some [10]), .ok (some [20]), .ok none], MViewTableIter.new [] [9] byteSchema []) :=
  let ⟨it, iter, calls⟩ := iter_shared_store byteEncoding byteSchema [] [] sharedStore [9] [[1], [2]]
    (fun p _ => p.map (· * 10)) (by decide) (by decide) (by decide) (by decide) (by decide) (by decide)
  ⟨it, iter, calls.trans rfl⟩

end RisingWave.ScanComplete
