import RisingWave.ScanComplete

/-!
`MViewTable::get` against the scan. A point read builds the cell key the
scan splits: `serialize_pk(pk) ++ serialize_cell_idx(idx)` under the keyspace
prefix. On a complete store whose cells decode on their own, the two read
paths return the same data: `get` finds each cell's datum, the scan returns the
row of those datums, and a pk with no cells reads as absent in every column.
-/

namespace RisingWave.PointGet

open Keys Common Store Table ScanSound ScanComplete

variable {Kind Datum : Type} (enc : Encoding Kind Datum)

section Get

variable {table : MViewTable Kind} {pk : Row Datum} {p : Bytes} {cellIdx : Nat}

theorem serializeCellIdx_toUInt32 (bound : cellIdx < UInt32.size) :
    serializeCellIdx cellIdx.toUInt32 = .ok (be32 cellIdx) := by
  simp only [serializeCellIdx, Nat.toUInt32, UInt32.toNat_ofNat_of_lt bound]

theorem get_present (serialized : enc.serializePk pk table.sortKeySerializer = .ok p)
    (bound : cellIdx < table.schema.len) (fits : cellIdx < UInt32.size) {buf : Bytes}
    (read : table.keyspace.get (p ++ be32 cellIdx) = .ok (some buf)) {kind : Kind}
    (typed : table.schema.kinds[cellIdx]? = some kind) :
    table.get enc pk cellIdx = some ((fun decoded => some decoded.1) <$> enc.deserializeDatumFrom kind buf) := by
  have field : (table.schema.fields.get ⟨cellIdx, bound⟩).dataType = kind := by
    simpa [Schema.kinds, List.getElem?_eq_getElem bound] using typed
  simp only [MViewTable.get, dif_pos bound, serialized, serializeCellIdx_toUInt32 fits, read, ok_bind,
    Except.mapError, field]
  cases enc.deserializeDatumFrom kind buf <;> rfl

theorem get_absent (serialized : enc.serializePk pk table.sortKeySerializer = .ok p)
    (bound : cellIdx < table.schema.len) (fits : cellIdx < UInt32.size)
    (read : table.keyspace.get (p ++ be32 cellIdx) = .ok none) :
    table.get enc pk cellIdx = some (.ok none) := by
  simp only [MViewTable.get, dif_pos bound, serialized, serializeCellIdx_toUInt32 fits, read, ok_bind,
    Except.mapError]
  rfl

end Get

/-- Point lookups and the scan agree on a complete store whose every cell
decodes, with the column's type and whatever follows it, to its datum: `get`
returns each datum of a stored pk, the scan returns each stored pk's row of
datums in pk order, and `get` returns `Ok(None)` for a pk with no cells. -/
theorem get_agrees_with_scan (schema : Schema Kind) (pkColumns : List Nat)
    (orderings : List OrderType) (store : MemoryStateStore) (pre : Bytes) (pks : List Bytes)
    (cell : Bytes → Nat → Bytes) (datum : Bytes → Nat → Datum)
    (positive : 0 < schema.len) (bound : schema.len ≤ UInt32.size)
    (sorted : pks.Pairwise KeyLt) (prefixFree : ∀ p ∈ pks, ∀ q ∈ pks, p <+: q → p = q)
    (shaped : ∀ entry ∈ store.entries, ∃ p ∈ pks, ∃ idx < schema.len, entry.1 = pre ++ p ++ be32 idx)
    (complete : ∀ p ∈ pks, ∀ idx < schema.len, (pre ++ p ++ be32 idx, cell p idx) ∈ store.entries)
    (decodes : ∀ p ∈ pks, ∀ idx < schema.len, ∀ kind, schema.kinds[idx]? = some kind → ∀ rest,
      enc.deserializeDatumFrom kind (cell p idx ++ rest) = .ok (datum p idx, rest)) :
    let table := MViewTable.new ⟨store.toStateStore, pre⟩ schema pkColumns orderings
    (∀ pk p, enc.serializePk pk table.sortKeySerializer = .ok p → p ∈ pks →
      ∀ idx < schema.len, table.get enc pk idx = some (.ok (some (datum p idx)))) ∧
    (∃ it, table.iter = .ok it ∧
      it.calls enc (pks.length + 1) =
        some (pks.map (fun p => .ok (some ((List.range schema.len).map (datum p)))) ++ [.ok none],
          MViewTableIter.new [] pre schema pkColumns)) ∧
    (∀ pk q, enc.serializePk pk table.sortKeySerializer = .ok q → q ∉ pks →
      ∀ idx < schema.len, table.get enc pk idx = some (.ok none)) := by
  intro table
  have fits : ∀ idx < schema.len, idx < UInt32.size := fun idx lt => Nat.lt_of_lt_of_le lt bound
  refine ⟨fun pk p serialized stored idx lt => ?_, ?_, fun pk q serialized absent idx lt => ?_⟩
  · obtain ⟨kind, typed⟩ : ∃ kind, schema.kinds[idx]? = some kind :=
      Option.ne_none_iff_exists'.mp (by simpa using lt)
    have read : table.keyspace.get (p ++ be32 idx) = .ok (some (cell p idx)) := by
      show Except.ok (List.lookup (pre ++ (p ++ be32 idx)) store.entries) = _
      rw [← List.append_assoc, lookup_of_mem store.ascending (complete p stored idx lt)]
    rw [get_present enc serialized lt (fits idx lt) read typed]
    simpa using congrArg (Except.map fun decoded => some decoded.1)
      (decodes p stored idx lt kind typed [])
  · refine ⟨MViewTableIter.new (store.entries.map .ok) pre schema pkColumns, ?_, ?_⟩
    · show (do let inner ← store.toStateStore.iter pre; pure _) = _
      rw [iter_of_prefixed store fun entry mem => by
        obtain ⟨p, -, idx, -, key⟩ := shaped entry mem
        exact key ▸ (List.prefix_append pre p).trans (List.prefix_append _ _)]
      rfl
    · have rows : ∀ p ∈ pks, (some ·) <$> RowDeserializer.deserialize enc ⟨schema.kinds⟩
          ((List.range schema.len).flatMap (cell p)) =
          (.ok (some ((List.range schema.len).map (datum p))) : Result (Option (Row Datum))) :=
        fun p stored => by rw [deserialize_cells enc schema (cell p) (datum p) (decodes p stored)]; rfl
      rw [calls_of_complete enc schema pkColumns store.ascending positive bound sorted prefixFree
        shaped complete, List.map_congr_left rows]
  · have read : table.keyspace.get (q ++ be32 idx) = .ok none := by
      show Except.ok (List.lookup (pre ++ (q ++ be32 idx)) store.entries) = _
      rw [← List.append_assoc, lookup_of_not_key fun entry mem key => ?_]
      obtain ⟨p, stored, j, -, same⟩ := shaped entry mem
      have segment := congrArg (pkSegment pre.length) (key.symm.trans same)
      rw [pkSegment_cellKey, pkSegment_cellKey] at segment
      exact absent (segment ▸ stored)
    exact get_absent enc serialized lt (fits idx lt) read

def twoRowTable : MViewTable Unit :=
  MViewTable.new ⟨twoRowStore.toStateStore, [9]⟩ byteSchema [0] [.ascending]

theorem twoRowTable_reads :
    twoRowTable.get byteEncoding [2] 0 = some (.ok (some 20)) ∧
    twoRowTable.get byteEncoding [3] 0 = some (.ok none) :=
  let agree := get_agrees_with_scan byteEncoding byteSchema [0] [.ascending] twoRowStore [9]
    [[1], [2]] (fun p _ => [p.headD 0 * 10]) (fun p _ => p.headD 0 * 10) (by decide) (by decide)
    (by decide) (by decide) (by decide) (by decide) fun _ _ _ _ _ _ _ => rfl
  ⟨agree.1 [2] [2] rfl (by decide) 0 (by decide), agree.2.2 [3] [3] rfl (by decide) 0 (by decide)⟩

end RisingWave.PointGet
