import RisingWave.ManagedState
import RisingWave.PointGet

/-!
The read path on the stores the write path leaves. Whatever run of `put`,
`delete` and `flush` built the store from one with nothing under the table's
prefix, `MViewTable::get` reads, for each pk, the datums of the row its last
flushed `put` wrote, and `Ok(None)` when its last flushed mutation is a delete
or none was flushed; the scan returns exactly those rows, in the order of their
pk encodings, then `Ok(None)`. Both are stated against `flushedRow`, the spec's
per-pk view, given a cell codec that decodes what it encodes and pk encodings
no one of which is a prefix of another: a table written through its managed
state never shows a partly written row.
-/

namespace RisingWave.ReadAfterWrite

open Keys Common Store Table ScanComplete PointGet ManagedState

variable {Kind Datum : Type} (enc : Encoding Kind Datum) (codec : CellEncoder Datum)

/-- A row the table can hold: one datum per column, each cell decoding, with
its column's type and whatever follows it, back to its datum. -/
def Typed (schema : Schema Kind) (row : Row Datum) : Prop :=
  row.length = schema.len ∧ ∀ (j : Nat) kind datum, schema.kinds[j]? = some kind → row[j]? = some datum →
    ∀ rest, enc.deserializeDatumFrom kind (codec.serializeCell datum ++ rest) = .ok (datum, rest)

def committedCell (rows : List (Bytes × Row Datum)) (p : Bytes) (idx : Nat) : Bytes :=
  ((rows.lookup p).bind (·[idx]?)).elim [] codec.serializeCell

/-- The table reads as the committed rows `rows`: `get` returns the datum of
the row committed under the pk's encoding and `Ok(None)` for a pk with none,
and the scan returns the committed rows in key order, then `Ok(None)`. -/
def ReadsAs (encodePk : Row Datum → Bytes) (table : MViewTable Kind) (rows : List (Bytes × Row Datum)) : Prop :=
  (∀ pk, ∀ idx < table.schema.len,
    table.get enc pk idx = some (.ok ((rows.lookup (encodePk pk)).bind (·[idx]?)))) ∧
  ∃ it, table.iter = .ok it ∧
    it.calls enc (rows.length + 1) =
      some (rows.map (fun entry => .ok (some entry.2)) ++ [.ok none],
        MViewTableIter.new [] table.keyspace.key table.schema table.pkColumns)

theorem range_flatMap_cells (row : Row Datum) :
    (List.range row.length).flatMap (fun idx => (row[idx]?).elim [] codec.serializeCell) =
      row.flatMap codec.serializeCell := by
  have cells : (List.range row.length).map (fun idx => (row[idx]?).elim [] codec.serializeCell) =
      row.map codec.serializeCell :=
    List.ext_getElem (by simp) fun i inRange _ => by
      have lt : i < row.length := by simpa using inRange
      simp [List.getElem?_eq_getElem lt]
  rw [List.flatMap_def, cells, ← List.flatMap_def]

theorem represents_vacant {pre : Bytes} {store : MemoryStateStore}
    (vacant : ∀ entry ∈ store.entries, ¬ pre <+: entry.1) :
    Represents codec pre store ([] : List (Bytes × Row Datum)) :=
  fun entry => ⟨fun ⟨mem, under⟩ => absurd under (vacant entry mem),
    fun ⟨_, _, mem, _⟩ => absurd mem (List.not_mem_nil _)⟩

section Reads

variable (schema : Schema Kind) (pkColumns : List Nat) (orderings : List OrderType)
variable {store : MemoryStateStore} {pre : Bytes} {rows : List (Bytes × Row Datum)}

-- Every committed row's cells are in the store, one per column, at its cell keys.
theorem stored_cell (represents : Represents codec pre store rows) {columns : Nat}
    (full : ∀ entry ∈ rows, entry.2.length = columns) {p : Bytes} {row : Row Datum} (kept : (p, row) ∈ rows)
    {idx : Nat} (lt : idx < columns) :
    ∃ datum, row[idx]? = some datum ∧ (pre ++ p ++ be32 idx, codec.serializeCell datum) ∈ store.entries := by
  have inRow : idx < row.length := lt.trans_eq (full _ kept).symm
  refine ⟨row[idx], List.getElem?_eq_getElem inRow, ((represents _).mpr ⟨p, row, kept, ?_⟩).1⟩
  exact mem_cellsOf.mpr ⟨idx, row[idx], List.getElem?_eq_getElem inRow, rfl⟩

-- Every cell the store holds under the prefix is a cell of a committed row.
theorem cell_stored (represents : Represents codec pre store rows) {columns : Nat}
    (full : ∀ entry ∈ rows, entry.2.length = columns) {entry : Bytes × Bytes} (mem : entry ∈ store.entries)
    (under : pre <+: entry.1) :
    ∃ p row, (p, row) ∈ rows ∧ ∃ idx < columns, ∃ datum, row[idx]? = some datum ∧
      entry = (pre ++ p ++ be32 idx, codec.serializeCell datum) := by
  obtain ⟨p, row, kept, cell⟩ := (represents entry).mp ⟨mem, under⟩
  obtain ⟨idx, datum, found, rfl⟩ := mem_cellsOf.mp cell
  exact ⟨p, row, kept, idx, ((List.getElem?_eq_some_iff.mp found).1).trans_eq (full _ kept), datum, found, rfl⟩

theorem committedCell_of_mem (ascending : Ascending rows) {p : Bytes} {row : Row Datum} (kept : (p, row) ∈ rows)
    (idx : Nat) : committedCell codec rows p idx = (row[idx]?).elim [] codec.serializeCell := by
  rw [committedCell, lookup_of_mem ascending kept, Option.some_bind]

-- On a store that holds under the prefix exactly the cells of key-sorted
-- typed rows, `get` reads the datum of the row committed under the pk's
-- encoding, and `Ok(None)` for a pk with none.
theorem get_of_represents (encodePk : Row Datum → Bytes) (bound : schema.len ≤ UInt32.size)
    (represents : Represents codec pre store rows) (ascending : Ascending rows)
    (typed : ∀ entry ∈ rows, Typed enc codec schema entry.2)
    (encodes : ∀ pk, enc.serializePk pk ⟨orderings.zip pkColumns⟩ = .ok (encodePk pk)) (pk : Row Datum) :
    ∀ idx < schema.len, (MViewTable.new ⟨store.toStateStore, pre⟩ schema pkColumns orderings).get enc pk idx =
      some (.ok ((rows.lookup (encodePk pk)).bind (·[idx]?))) := by
  intro idx lt
  let table := MViewTable.new ⟨store.toStateStore, pre⟩ schema pkColumns orderings
  have full : ∀ entry ∈ rows, entry.2.length = schema.len := fun entry mem => (typed entry mem).1
  by_cases present : ∃ row, (encodePk pk, row) ∈ rows
  · obtain ⟨row, mem⟩ := present
    obtain ⟨datum, found, cell⟩ := stored_cell codec represents full mem lt
    obtain ⟨kind, typedKind⟩ : ∃ kind, schema.kinds[idx]? = some kind :=
      Option.ne_none_iff_exists'.mp (by simpa using lt)
    have read : table.keyspace.get (encodePk pk ++ be32 idx) = .ok (some (codec.serializeCell datum)) := by
      show Except.ok (List.lookup (pre ++ (encodePk pk ++ be32 idx)) store.entries) = _
      rw [← List.append_assoc, lookup_of_mem store.ascending cell]
    have decoded := (typed _ mem).2 idx kind datum typedKind found []
    rw [List.append_nil] at decoded
    rw [get_present enc (encodes pk) lt (lt_of_lt_of_le lt bound) read typedKind,
      lookup_of_mem ascending mem, Option.some_bind, found, decoded]
    rfl
  · have read : table.keyspace.get (encodePk pk ++ be32 idx) = .ok none := by
      show Except.ok (List.lookup (pre ++ (encodePk pk ++ be32 idx)) store.entries) = _
      rw [← List.append_assoc, lookup_of_not_key fun entry mem key => ?_]
      obtain ⟨p, row, kept, j, -, datum, -, rfl⟩ :=
        cell_stored codec represents full mem (key ▸ (List.prefix_append _ _).trans (List.prefix_append _ _))
      exact present ⟨row, cellKey_pk key ▸ kept⟩
    have absent : rows.lookup (encodePk pk) = none :=
      lookup_of_not_key fun entry mem same => present ⟨entry.2, same ▸ mem⟩
    rw [get_absent enc (encodes pk) lt (lt_of_lt_of_le lt bound) read, absent]
    rfl

-- On such a store, with prefix-free keys, the scan returns the rows in key
-- order, then `Ok(None)`.
theorem scan_of_represents (positive : 0 < schema.len) (bound : schema.len ≤ UInt32.size)
    (represents : Represents codec pre store rows) (ascending : Ascending rows)
    (typed : ∀ entry ∈ rows, Typed enc codec schema entry.2)
    (prefixFree : ∀ p ∈ rows.map Prod.fst, ∀ q ∈ rows.map Prod.fst, p <+: q → p = q) :
    ∃ it, (MViewTable.new ⟨store.toStateStore, pre⟩ schema pkColumns orderings).iter = .ok it ∧
      it.calls enc (rows.length + 1) =
        some (rows.map (fun entry => .ok (some entry.2)) ++ [.ok none],
          MViewTableIter.new [] pre schema pkColumns) := by
  have full : ∀ entry ∈ rows, entry.2.length = schema.len := fun entry mem => (typed entry mem).1
  have under : ∀ {entry : Bytes × Bytes},
      entry ∈ store.entries.filter (fun entry => pre.isPrefixOf entry.1) ↔
        entry ∈ store.entries ∧ pre <+: entry.1 := by
    intro entry
    simp only [List.mem_filter, List.isPrefixOf_iff_prefix]
  -- each committed row's cells decode to it
  have rowsOf : ∀ entry ∈ rows, (some ·) <$> RowDeserializer.deserialize enc ⟨schema.kinds⟩
      ((List.range schema.len).flatMap (committedCell codec rows entry.1)) =
        (.ok (some entry.2) : Result (Option (Row Datum))) := by
    rintro ⟨p, row⟩ mem
    rw [funext (committedCell_of_mem codec ascending mem), ← full _ mem, range_flatMap_cells,
      RowDeserializer.deserialize, deserializeColumns_row enc codec.serializeCell _ row
        (by simpa using (full _ mem).symm) (typed _ mem).2]
    rfl
  have shaped : ∀ entry ∈ store.entries.filter (fun entry => pre.isPrefixOf entry.1),
      ∃ p ∈ rows.map Prod.fst, ∃ idx < schema.len, entry.1 = pre ++ p ++ be32 idx := by
    intro entry mem
    obtain ⟨q, row, kept, idx, lt, -, -, rfl⟩ := cell_stored codec represents full (under.mp mem).1 (under.mp mem).2
    exact ⟨q, List.mem_map.mpr ⟨(q, row), kept, rfl⟩, idx, lt, rfl⟩
  have complete : ∀ p ∈ rows.map Prod.fst, ∀ idx < schema.len,
      (pre ++ p ++ be32 idx, committedCell codec rows p idx) ∈
        store.entries.filter (fun entry => pre.isPrefixOf entry.1) := by
    intro p mem idx lt
    obtain ⟨⟨q, row⟩, kept, rfl⟩ := List.mem_map.mp mem
    obtain ⟨datum, found, cell⟩ := stored_cell codec represents full kept lt
    rw [committedCell_of_mem codec ascending kept, found]
    exact under.mpr ⟨cell, (List.prefix_append _ _).trans (List.prefix_append _ _)⟩
  have scan := @calls_of_complete Kind Datum enc schema pkColumns
    (store.entries.filter fun entry => pre.isPrefixOf entry.1) pre (rows.map Prod.fst)
    (committedCell codec rows) (store.ascending.filter _) positive bound (List.pairwise_map.mpr ascending)
    prefixFree shaped complete
  simp only [List.length_map, List.map_map, Function.comp_def] at scan
  rw [List.map_congr_left rowsOf] at scan
  exact ⟨_, rfl, scan⟩

theorem reads_of_represents (encodePk : Row Datum → Bytes) (positive : 0 < schema.len)
    (bound : schema.len ≤ UInt32.size) (represents : Represents codec pre store rows)
    (ascending : Ascending rows) (typed : ∀ entry ∈ rows, Typed enc codec schema entry.2)
    (prefixFree : ∀ p ∈ rows.map Prod.fst, ∀ q ∈ rows.map Prod.fst, p <+: q → p = q)
    (encodes : ∀ pk, enc.serializePk pk ⟨orderings.zip pkColumns⟩ = .ok (encodePk pk)) :
    ReadsAs enc encodePk (MViewTable.new ⟨store.toStateStore, pre⟩ schema pkColumns orderings) rows :=
  ⟨get_of_represents enc codec schema pkColumns orderings encodePk bound represents ascending typed encodes,
    scan_of_represents enc codec schema pkColumns orderings positive bound represents ascending typed prefixFree⟩

end Reads

section Runs

variable (schema : Schema Kind) (pkColumns : List Nat) (orderings : List OrderType) (pre : Bytes)
variable {encodePk : Row Datum → Bytes} (ops : List (WriteOp Datum))

-- Before any call, a write path is synced with no committed rows over a
-- store with nothing under its prefix.
theorem synced_new {store : MemoryStateStore} (bound : schema.len ≤ UInt32.size)
    (vacant : ∀ entry ∈ store.entries, ¬ pre <+: entry.1)
    (encodes : ∀ pk, enc.serializePk pk ⟨orderings.zip pkColumns⟩ = .ok (encodePk pk)) :
    Synced enc codec encodePk schema.len store ([], .new pre schema pkColumns orderings) :=
  ⟨encodes, rfl, bound, represents_vacant codec vacant, List.Pairwise.nil,
    fun _ mem => absurd mem (List.not_mem_nil _), fun _ mem => absurd mem (List.not_mem_nil _)⟩

theorem fits_of_typed (typed : ∀ pk row, .put pk row ∈ ops → Typed enc codec schema row) :
    ∀ op ∈ ops, Fits schema.len op
  | .put pk row, mem => (typed pk row mem).1
  | .delete _, _ => trivial
  | .flush, _ => trivial

variable [DecidableEq Datum]

-- A store synced with the rows a run of typed puts committed reads as those
-- rows, for a prefix-free pk encoding.
theorem reads_of_synced {store : MemoryStateStore} (positive : 0 < schema.len)
    (encodes : ∀ pk, enc.serializePk pk ⟨orderings.zip pkColumns⟩ = .ok (encodePk pk))
    (prefixFree : ∀ a b, encodePk a <+: encodePk b → encodePk a = encodePk b)
    (typed : ∀ pk row, .put pk row ∈ ops → Typed enc codec schema row)
    (synced : Synced enc codec encodePk schema.len store
      (committedRun encodePk [] (.new pre schema pkColumns orderings) ops)) :
    ReadsAs enc encodePk (MViewTable.new ⟨store.toStateStore, pre⟩ schema pkColumns orderings)
      (committedRun encodePk [] (.new pre schema pkColumns orderings) ops).1 := by
  let rows := (committedRun encodePk [] (ManagedMViewState.new pre schema pkColumns orderings) ops).1
  have prefixKey : (committedRun encodePk [] (.new pre schema pkColumns orderings) ops).2.prefixKey = pre :=
    committedRun_prefixKey encodePk ops [] _
  have represents : Represents codec pre store rows := prefixKey ▸ synced.represents
  obtain ⟨ascending, good⟩ := @committedRun_keeps Kind Datum _ encodePk
    (fun entry => Typed enc codec schema entry.2 ∧ ∃ pk, entry.1 = encodePk pk) ops []
    (.new pre schema pkColumns orderings) List.Pairwise.nil (fun _ mem => absurd mem (List.not_mem_nil _))
    (fun _ mem => absurd mem (List.not_mem_nil _)) fun pk row mem => ⟨typed pk row mem, pk, rfl⟩
  have keysFree : ∀ p ∈ rows.map Prod.fst, ∀ q ∈ rows.map Prod.fst, p <+: q → p = q := by
    intro p pMem q qMem pre'
    obtain ⟨entry, kept, rfl⟩ := List.mem_map.mp pMem
    obtain ⟨other, kept', rfl⟩ := List.mem_map.mp qMem
    obtain ⟨a, keyA⟩ := (good entry kept).2
    obtain ⟨b, keyB⟩ := (good other kept').2
    rw [keyA, keyB] at pre' ⊢
    exact prefixFree a b pre'
  exact reads_of_represents enc codec schema pkColumns orderings encodePk positive synced.bound
    represents ascending (fun entry mem => (good entry mem).1) keysFree encodes

end Runs

-- Rows keyed by pk encodings are rows keyed by pks, encoded.
theorem exists_pk_rows {encodePk : Row Datum → Bytes} :
    ∀ {rows : List (Bytes × Row Datum)}, (∀ entry ∈ rows, ∃ pk, entry.1 = encodePk pk) →
      ∃ pkRows : List (Row Datum × Row Datum), pkRows.map (fun entry => (encodePk entry.1, entry.2)) = rows
  | [], _ => ⟨[], rfl⟩
  | (p, row) :: rows, keyed => by
    obtain ⟨pk, rfl⟩ := keyed (p, row) (List.mem_cons_self _ _)
    obtain ⟨pkRows, same⟩ := exists_pk_rows fun entry mem => keyed entry (List.mem_cons_of_mem _ mem)
    exact ⟨(pk, row) :: pkRows, by rw [List.map_cons, same]⟩

variable [DecidableEq Datum]

/-- The scan after writes: from a store with nothing under the table's prefix,
after any run of `put`, `delete` and `flush` whose put rows are typed, no call
fails or panics, and the scan of `MViewTable::iter` returns the row of each pk
whose last flushed mutation is a put, once each and in ascending order of pk
encoding, then `Ok(None)`. No pk's encoding is a prefix of another pk's. -/
theorem scan_after_writes (schema : Schema Kind) (pkColumns : List Nat) (orderings : List OrderType)
    (pre : Bytes) (store : MemoryStateStore) (encodePk : Row Datum → Bytes) (ops : List (WriteOp Datum))
    (positive : 0 < schema.len) (bound : schema.len ≤ UInt32.size)
    (vacant : ∀ entry ∈ store.entries, ¬ pre <+: entry.1)
    (encodes : ∀ pk, enc.serializePk pk ⟨orderings.zip pkColumns⟩ = .ok (encodePk pk))
    (prefixFree : ∀ a b, encodePk a <+: encodePk b → a = b)
    (typed : ∀ pk row, .put pk row ∈ ops → Typed enc codec schema row) :
    ∃ written state, writeRun enc codec store (.new pre schema pkColumns orderings) ops =
        some (.ok (written, state)) ∧
      ∃ rows : List (Row Datum × Row Datum),
        (rows.map fun entry => encodePk entry.1).Pairwise KeyLt ∧
        (∀ pk row, (pk, row) ∈ rows ↔ flushedRow pk none none ops = some row) ∧
        ∃ it, (MViewTable.new ⟨written.toStateStore, pre⟩ schema pkColumns orderings).iter = .ok it ∧
          it.calls enc (rows.length + 1) =
            some (rows.map (fun entry => .ok (some entry.2)) ++ [.ok none],
              MViewTableIter.new [] pre schema pkColumns) := by
  have injective : ∀ a b, encodePk a = encodePk b → a = b :=
    fun a b same => prefixFree a b (same ▸ List.prefix_refl _)
  obtain ⟨written, run, synced⟩ := writeRun_refines enc codec encodePk ops
    (synced_new enc codec schema pkColumns orderings pre bound vacant encodes)
    (fits_of_typed enc codec schema ops typed)
  obtain ⟨-, ⟨it, iter, calls⟩⟩ := reads_of_synced enc codec schema pkColumns orderings pre ops positive
    encodes (fun a b pre => congrArg encodePk (prefixFree a b pre)) typed synced
  obtain ⟨ascending, keyed⟩ := @committedRun_keeps Kind Datum _ encodePk
    (fun entry => ∃ pk, entry.1 = encodePk pk) ops [] (.new pre schema pkColumns orderings)
    List.Pairwise.nil (fun _ mem => absurd mem (List.not_mem_nil _))
    (fun _ mem => absurd mem (List.not_mem_nil _)) fun pk _ _ => ⟨pk, rfl⟩
  obtain ⟨rows, keys⟩ := exists_pk_rows keyed
  -- the committed rows are the spec's: a pk's row is the one its last flush wrote
  have committed : ∀ pk row,
      (encodePk pk, row) ∈ (committedRun encodePk [] (.new pre schema pkColumns orderings) ops).1 ↔
        flushedRow pk none none ops = some row := fun pk row => by
    have spec := lookup_committedRun encodePk injective pk ops [] (.new pre schema pkColumns orderings)
    exact ⟨fun mem => spec.symm.trans (lookup_of_mem ascending mem),
      fun found => mem_of_lookup (spec.trans found)⟩
  rw [← keys] at ascending committed calls
  have listed : (rows.map fun entry => (encodePk entry.1, entry.2)).Pairwise fun a b => KeyLt a.1 b.1 :=
    ascending
  have sorted := List.pairwise_map.mp listed
  refine ⟨written, _, run, rows, List.pairwise_map.mpr sorted,
    fun pk row => ⟨fun mem => (committed pk row).mp (List.mem_map_of_mem _ mem), fun found => ?_⟩,
    it, iter, by simpa using calls⟩
  obtain ⟨⟨q, r⟩, mem, same⟩ := List.mem_map.mp ((committed pk row).mpr found)
  obtain ⟨encoded, rfl⟩ := Prod.mk.inj same
  rwa [injective q pk encoded] at mem

-- A pk encoding in the manner of memcomparable: each datum after a marker
-- byte 1, then a terminating 0.
def markedPk : Row UInt8 → Bytes
  | [] => [0]
  | datum :: rest => 1 :: datum :: markedPk rest

theorem markedPk_prefix : ∀ a b : Row UInt8, markedPk a <+: markedPk b → a = b
  | [], [], _ => rfl
  | [], _ :: _, pre => absurd (List.cons_prefix_cons.mp pre).1 (by decide)
  | _ :: _, [], pre => absurd (List.cons_prefix_cons.mp pre).1 (by decide)
  | d :: a, e :: b, pre => by
    obtain ⟨same, rest⟩ := List.cons_prefix_cons.mp (List.cons_prefix_cons.mp pre).2
    rw [same, markedPk_prefix a b rest]

-- `byteEncoding` with a pk encoded as its first datum, one byte.
def firstByteEncoding : Encoding Unit UInt8 :=
  { ScanSound.byteEncoding with serializePk := fun pk _ => .ok [pk.headD 0] }

def markedEncoding : Encoding Unit UInt8 :=
  { ScanSound.byteEncoding with serializePk := fun pk _ => .ok (markedPk pk) }

def byteCodec : CellEncoder UInt8 := ⟨fun datum => [datum]⟩

-- The calls of `test_mview_table` on one byte column: two puts, a delete of the
-- second pk before the flush, then a third row in a second flush.
def mviewTableCalls : List (WriteOp UInt8) :=
  [.put [1] [10], .put [2] [20], .delete [2], .flush, .put [3] [30], .flush]

theorem mviewTableCalls_scan :
    ∃ written state, writeRun markedEncoding byteCodec ⟨[], List.Pairwise.nil⟩
        (.new [9] ScanSound.byteSchema [0] [.ascending]) mviewTableCalls = some (.ok (written, state)) ∧
      ∃ rows : List (Row UInt8 × Row UInt8),
        (rows.map fun entry => markedPk entry.1).Pairwise KeyLt ∧
        (∀ pk row, (pk, row) ∈ rows ↔ flushedRow pk none none mviewTableCalls = some row) ∧
        ∃ it, (MViewTable.new ⟨written.toStateStore, [9]⟩ ScanSound.byteSchema [0] [.ascending]).iter = .ok it ∧
          it.calls markedEncoding (rows.length + 1) =
            some (rows.map (fun entry => .ok (some entry.2)) ++ [.ok none],
              MViewTableIter.new [] [9] ScanSound.byteSchema [0]) :=
  scan_after_writes markedEncoding byteCodec ScanSound.byteSchema [0] [.ascending] [9] ⟨[], List.Pairwise.nil⟩
    markedPk mviewTableCalls Nat.one_pos (by decide) (fun _ mem => absurd mem (List.not_mem_nil _))
    (fun _ => rfl) markedPk_prefix fun pk row mem => by
      simp only [mviewTableCalls, List.mem_cons, WriteOp.put.injEq, reduceCtorEq, List.mem_nil_iff,
        or_false, false_or] at mem
      rcases mem with ⟨-, rfl⟩ | ⟨-, rfl⟩ | ⟨-, rfl⟩ <;> exact ⟨rfl, fun _ _ _ _ _ _ => rfl⟩

/-- Reads follow the last flushed write: from a store with nothing under the
table's prefix, after any run of calls whose put rows are typed, `get(pk, i)`
returns the `i`-th datum of the row the last flushed `put` of `pk` wrote, and
`Ok(None)` when the last flushed mutation of `pk` is a delete or none was
flushed. The pk encoding is injective and no encoding is a proper prefix of
another. -/
theorem get_after_writes (schema : Schema Kind) (pkColumns : List Nat) (orderings : List OrderType)
    (pre : Bytes) (store : MemoryStateStore) (encodePk : Row Datum → Bytes) (ops : List (WriteOp Datum))
    (positive : 0 < schema.len) (bound : schema.len ≤ UInt32.size)
    (vacant : ∀ entry ∈ store.entries, ¬ pre <+: entry.1)
    (encodes : ∀ pk, enc.serializePk pk ⟨orderings.zip pkColumns⟩ = .ok (encodePk pk))
    (prefixFree : ∀ a b, encodePk a <+: encodePk b → a = b)
    (typed : ∀ pk row, .put pk row ∈ ops → Typed enc codec schema row) :
    ∃ written state, writeRun enc codec store (.new pre schema pkColumns orderings) ops =
        some (.ok (written, state)) ∧
      ∀ pk, ∀ idx < schema.len,
        (MViewTable.new ⟨written.toStateStore, pre⟩ schema pkColumns orderings).get enc pk idx =
          some (.ok ((flushedRow pk none none ops).bind (·[idx]?))) := by
  obtain ⟨written, run, synced⟩ := writeRun_refines enc codec encodePk ops
    (synced_new enc codec schema pkColumns orderings pre bound vacant encodes)
    (fits_of_typed enc codec schema ops typed)
  have reads := reads_of_synced enc codec schema pkColumns orderings pre ops positive encodes
    (fun a b pre => congrArg encodePk (prefixFree a b pre)) typed synced
  refine ⟨written, _, run, fun pk idx lt => ?_⟩
  rw [reads.1 pk idx lt, lookup_committedRun encodePk (fun a b same => prefixFree a b (same ▸ List.prefix_refl _))]
  rfl

-- Writes that exercise each case of a read: a row deleted before its flush,
-- a row overwritten and flushed again, and an overwrite not yet flushed.
def lastWriteCalls : List (WriteOp UInt8) :=
  [.put [1] [10], .put [2] [20], .delete [2], .flush, .put [1] [11], .flush, .put [1] [12]]

theorem lastWriteCalls_reads :
    ∃ written state, writeRun markedEncoding byteCodec ⟨[], List.Pairwise.nil⟩
        (.new [9] ScanSound.byteSchema [0] [.ascending]) lastWriteCalls = some (.ok (written, state)) ∧
      (MViewTable.new ⟨written.toStateStore, [9]⟩ ScanSound.byteSchema [0] [.ascending]).get
          markedEncoding [1] 0 = some (.ok (some 11)) ∧
      (MViewTable.new ⟨written.toStateStore, [9]⟩ ScanSound.byteSchema [0] [.ascending]).get
          markedEncoding [2] 0 = some (.ok none) := by
  obtain ⟨written, state, run, gets⟩ := get_after_writes markedEncoding byteCodec ScanSound.byteSchema
    [0] [.ascending] [9] ⟨[], List.Pairwise.nil⟩ markedPk lastWriteCalls Nat.one_pos (by decide)
    (fun _ mem => absurd mem (List.not_mem_nil _)) (fun _ => rfl) markedPk_prefix fun pk row mem => by
      simp only [lastWriteCalls, List.mem_cons, WriteOp.put.injEq, reduceCtorEq, List.mem_nil_iff,
        or_false, false_or] at mem
      rcases mem with ⟨-, rfl⟩ | ⟨-, rfl⟩ | ⟨-, rfl⟩ | ⟨-, rfl⟩ <;>
        exact ⟨rfl, fun _ _ _ _ _ _ => rfl⟩
  exact ⟨written, state, run, gets [1] 0 Nat.one_pos, gets [2] 0 Nat.one_pos⟩

end RisingWave.ReadAfterWrite
