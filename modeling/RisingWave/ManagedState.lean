import Mathlib.Data.List.Nodup
import RisingWave.Store

/-!
The write path. `ManagedMViewState` is not under `src/`: it, the cell encoder
`serialize_cell` (`CellEncoder`) and the calls an executor makes (`WriteOp`)
are modelled from the spec. The state buffers row mutations by pk, a later one
for a pk replacing the one before, and `flush` turns the buffer into one batch
of cell writes, `schema.len()` of them per mutation under the pk's cell keys,
which the store ingests as one; a put row shorter than the schema makes
`cells[cell_idx]` panic. Two levels say what the write path is for.
`committedRun` keeps the committed rows by pk encoding, in key order, and a
flush replays the buffer on them: over any run of `put`, `delete` and `flush`
the store holds under the table's prefix exactly the cells of the committed
rows (`writeRun_refines`), so no row is ever partly written. `flushedRow` is
the spec's own view of one pk, the last mutation flushed for it, computed from
the calls alone without the buffer; `lookup_committedRun` shows that the
committed rows agree with it, and the reads of the table are stated against it.
-/

namespace RisingWave.ManagedState

open Keys Common Store

variable {Kind Datum : Type}

structure CellEncoder (Datum : Type) where
  serializeCell : Datum → Bytes

def cellsOf (codec : CellEncoder Datum) (key : Bytes) (row : Row Datum) : List (Bytes × Bytes) :=
  row.enum.map fun cell => (key ++ be32 cell.1, codec.serializeCell cell.2)

def cellKeys (key : Bytes) (columns : Nat) : List Bytes :=
  (List.range columns).map fun idx => key ++ be32 idx

/-- Modelled from the spec: `ManagedMViewState`, the buffered mutations by pk,
`none` for a delete, and the keyspace prefix, schema and pk order they are
written under. -/
structure ManagedMViewState (Kind Datum : Type) where
  prefixKey : Bytes
  schema : Schema Kind
  sortKeySerializer : OrderedRowsSerializer
  cache : List (Row Datum × Option (Row Datum))

namespace ManagedMViewState

def new (prefixKey : Bytes) (schema : Schema Kind) (pkColumns : List Nat) (orderings : List OrderType) :
    ManagedMViewState Kind Datum :=
  { prefixKey, schema, sortKeySerializer := ⟨orderings.zip pkColumns⟩, cache := [] }

variable [DecidableEq Datum]

def buffer (state : ManagedMViewState Kind Datum) (pk : Row Datum) (mutation : Option (Row Datum)) :
    ManagedMViewState Kind Datum :=
  { state with cache := state.cache.filter (fun entry => entry.1 ≠ pk) ++ [(pk, mutation)] }

def put (state : ManagedMViewState Kind Datum) (pk row : Row Datum) : ManagedMViewState Kind Datum :=
  state.buffer pk (some row)

def delete (state : ManagedMViewState Kind Datum) (pk : Row Datum) : ManagedMViewState Kind Datum :=
  state.buffer pk none

end ManagedMViewState

def rowWrites (codec : CellEncoder Datum) (columns : Nat) (key : Bytes) :
    Option (Row Datum) → Option WriteBatch
  | none => some ((cellKeys key columns).map fun cellKey => (cellKey, none))
  | some row =>
    if columns ≤ row.length then
      some ((cellsOf codec key (row.take columns)).map fun cell => (cell.1, some cell.2))
    else none

def flushWrites (enc : Encoding Kind Datum) (codec : CellEncoder Datum)
    (state : ManagedMViewState Kind Datum) :
    List (Row Datum × Option (Row Datum)) → Option (Result WriteBatch)
  | [] => some (.ok [])
  | (pk, mutation) :: rest =>
    match enc.serializePk pk state.sortKeySerializer with
    | .error error => some (.error error)
    | .ok pkBuf =>
      match rowWrites codec state.schema.len (state.prefixKey ++ pkBuf) mutation with
      | none => none
      | some writes => (flushWrites enc codec state rest).map (Except.map (writes ++ ·))

def ManagedMViewState.flush (enc : Encoding Kind Datum) (codec : CellEncoder Datum)
    (state : ManagedMViewState Kind Datum) : Option (Result (WriteBatch × ManagedMViewState Kind Datum)) :=
  (flushWrites enc codec state state.cache).map
    (Except.map fun batch => (batch, { state with cache := [] }))

inductive WriteOp (Datum : Type) where
  | put (pk row : Row Datum)
  | delete (pk : Row Datum)
  | flush

def applyMutation (p : Bytes) : Option (Row Datum) → List (Bytes × Row Datum) → List (Bytes × Row Datum)
  | some row, rows => putEntry p row rows
  | none, rows => deleteEntry p rows

def commitRows (encodePk : Row Datum → Bytes) (rows : List (Bytes × Row Datum))
    (cache : List (Row Datum × Option (Row Datum))) : List (Bytes × Row Datum) :=
  cache.foldl (fun rows entry => applyMutation (encodePk entry.1) entry.2 rows) rows

def Represents (codec : CellEncoder Datum) (pre : Bytes) (store : MemoryStateStore)
    (rows : List (Bytes × Row Datum)) : Prop :=
  ∀ entry, entry ∈ store.entries ∧ pre <+: entry.1 ↔
    ∃ p row, (p, row) ∈ rows ∧ entry ∈ cellsOf codec (pre ++ p) row

section Cells

variable {codec : CellEncoder Datum} {key : Bytes} {columns : Nat}

theorem mem_cellsOf {row : Row Datum} {entry : Bytes × Bytes} :
    entry ∈ cellsOf codec key row ↔
      ∃ idx datum, row[idx]? = some datum ∧ entry = (key ++ be32 idx, codec.serializeCell datum) := by
  simp only [cellsOf, List.mem_map, List.mem_enum_iff_getElem?, Prod.exists]
  exact ⟨fun ⟨idx, datum, found, same⟩ => ⟨idx, datum, found, same.symm⟩,
    fun ⟨idx, datum, found, same⟩ => ⟨idx, datum, found, same.symm⟩⟩

theorem keys_cellsOf (row : Row Datum) : (cellsOf codec key row).map Prod.fst = cellKeys key row.length := by
  rw [cellsOf, cellKeys, List.map_map, ← List.enum_map_fst, List.map_map]
  rfl

theorem mem_cellKeys {cellKey : Bytes} :
    cellKey ∈ cellKeys key columns ↔ ∃ idx < columns, cellKey = key ++ be32 idx := by
  simp only [cellKeys, List.mem_map, List.mem_range, eq_comm]

theorem nodup_cellKeys (bound : columns ≤ UInt32.size) : (cellKeys key columns).Nodup :=
  (List.nodup_range columns).map_on fun i hi j hj same =>
    be32_injective (List.append_cancel_left same) (by simp at hi; omega) (by simp at hj; omega)

-- A cell key names its pk: keys of two pks under one prefix never meet.
theorem cellKey_pk {pre p q : Bytes} {i j : Nat} (same : pre ++ q ++ be32 i = pre ++ p ++ be32 j) : q = p := by
  have segment := congrArg (pkSegment pre.length) same
  rwa [pkSegment_cellKey, pkSegment_cellKey] at segment

theorem mem_applyMutation {p q : Bytes} {mutation : Option (Row Datum)} {rows : List (Bytes × Row Datum)}
    {row : Row Datum} (ascending : Ascending rows) :
    (q, row) ∈ applyMutation p mutation rows ↔
      (mutation = some row ∧ q = p) ∨ ((q, row) ∈ rows ∧ q ≠ p) := by
  cases mutation with
  | none => simp [applyMutation, mem_deleteEntry]
  | some put =>
    rw [applyMutation, mem_putEntry ascending, Prod.mk.injEq, Option.some.injEq]
    exact or_congr_left ⟨fun ⟨same, row⟩ => ⟨row.symm, same⟩, fun ⟨row, same⟩ => ⟨same, row.symm⟩⟩

theorem ascending_applyMutation {p : Bytes} {rows : List (Bytes × Row Datum)} (ascending : Ascending rows) :
    ∀ mutation : Option (Row Datum), Ascending (applyMutation p mutation rows)
  | some _ => ascending_putEntry ascending
  | none => ascending_deleteEntry ascending

theorem lookup_applyMutation (p q : Bytes) :
    ∀ (mutation : Option (Row Datum)) (rows : List (Bytes × Row Datum)),
      (applyMutation p mutation rows).lookup q = if q = p then mutation else rows.lookup q
  | some row, rows => lookup_putEntry p row q rows
  | none, rows => lookup_filter_ne p q rows

end Cells

section Flush

variable {codec : CellEncoder Datum} {pre : Bytes} {columns : Nat}

theorem rowWrites_built (key : Bytes) {mutation : Option (Row Datum)}
    (fits : ∀ row, mutation = some row → row.length = columns) :
    ∃ writes, rowWrites codec columns key mutation = some writes := by
  cases mutation with
  | none => exact ⟨_, rfl⟩
  | some row => exact ⟨_, if_pos (fits row rfl).ge⟩

-- A row's writes put its cells, or delete its cell keys.
theorem mem_ingest_rowWrites (bound : columns ≤ UInt32.size) {store : MemoryStateStore} {key : Bytes}
    {mutation : Option (Row Datum)} (fits : ∀ row, mutation = some row → row.length = columns)
    {writes : WriteBatch} (built : rowWrites codec columns key mutation = some writes)
    {entry : Bytes × Bytes} :
    entry ∈ (store.ingestBatch writes).entries ↔
      (∃ row, mutation = some row ∧ entry ∈ cellsOf codec key row) ∨
        (entry ∈ store.entries ∧ entry.1 ∉ cellKeys key columns) := by
  cases mutation with
  | none =>
    obtain rfl := Option.some.inj built
    rw [mem_ingest_deletes]
    simp
  | some row =>
    have length := fits row rfl
    rw [rowWrites, if_pos length.ge, List.take_of_length_le length.le] at built
    obtain rfl := Option.some.inj built
    rw [mem_ingest_puts _ _ (by rw [keys_cellsOf, length]; exact nodup_cellKeys bound), keys_cellsOf, length]
    exact or_congr_left ⟨fun mem => ⟨row, rfl, mem⟩, fun ⟨_, same, mem⟩ => Option.some.inj same ▸ mem⟩

-- Applying a mutation keeps whatever every kept row and the put row satisfy.
theorem forall_applyMutation {good : Bytes × Row Datum → Prop} {p : Bytes}
    {mutation : Option (Row Datum)} {rows : List (Bytes × Row Datum)} (ascending : Ascending rows)
    (kept : ∀ entry ∈ rows, good entry) (fits : ∀ row, mutation = some row → good (p, row)) :
    ∀ entry ∈ applyMutation p mutation rows, good entry := by
  rintro ⟨q, row⟩ mem
  rcases (mem_applyMutation ascending).mp mem with ⟨put, rfl⟩ | ⟨stored, -⟩
  · exact fits row put
  · exact kept _ stored

-- One mutation's writes move the store along with the committed rows.
theorem represents_applyMutation (bound : columns ≤ UInt32.size) {store : MemoryStateStore}
    {rows : List (Bytes × Row Datum)} (represents : Represents codec pre store rows)
    (full : ∀ entry ∈ rows, entry.2.length = columns) (ascending : Ascending rows) {p : Bytes}
    {mutation : Option (Row Datum)} (fits : ∀ row, mutation = some row → row.length = columns)
    {writes : WriteBatch} (built : rowWrites codec columns (pre ++ p) mutation = some writes) :
    Represents codec pre (store.ingestBatch writes) (applyMutation p mutation rows) := by
  intro entry
  rw [mem_ingest_rowWrites bound fits built]
  have under : ∀ {q row}, entry ∈ cellsOf codec (pre ++ q) row → pre <+: entry.1 := by
    intro q row mem
    obtain ⟨idx, datum, -, rfl⟩ := mem_cellsOf.mp mem
    exact (List.prefix_append pre q).trans (List.prefix_append _ _)
  -- a committed cell is at one of `p`'s cell keys exactly when it is `p`'s
  have owner : ∀ {q row}, (q, row) ∈ rows → entry ∈ cellsOf codec (pre ++ q) row →
      (entry.1 ∈ cellKeys (pre ++ p) columns ↔ q = p) := by
    intro q row stored mem
    obtain ⟨idx, datum, found, rfl⟩ := mem_cellsOf.mp mem
    rw [mem_cellKeys]
    constructor
    · rintro ⟨j, -, same⟩
      exact cellKey_pk same
    · rintro rfl
      exact ⟨idx, lt_of_lt_of_eq (List.getElem?_eq_some_iff.mp found).1 (full _ stored), rfl⟩
  constructor
  · rintro ⟨⟨row, put, mem⟩ | ⟨mem, fresh⟩, under'⟩
    · exact ⟨p, row, (mem_applyMutation ascending).mpr (.inl ⟨put, rfl⟩), mem⟩
    · obtain ⟨q, row, stored, cell⟩ := (represents entry).mp ⟨mem, under'⟩
      exact ⟨q, row, (mem_applyMutation ascending).mpr
        (.inr ⟨stored, fun same => fresh ((owner stored cell).mpr same)⟩), cell⟩
  · rintro ⟨q, row, applied, cell⟩
    refine ⟨?_, under cell⟩
    rcases (mem_applyMutation ascending).mp applied with ⟨put, rfl⟩ | ⟨stored, differ⟩
    · exact .inl ⟨row, put, cell⟩
    · exact .inr ⟨((represents entry).mpr ⟨q, row, stored, cell⟩).1,
        fun mem => differ ((owner stored cell).mp mem)⟩

theorem commitRows_cons (encodePk : Row Datum → Bytes) (rows : List (Bytes × Row Datum))
    (pk : Row Datum) (mutation : Option (Row Datum)) (cache : List (Row Datum × Option (Row Datum))) :
    commitRows encodePk rows ((pk, mutation) :: cache) =
      commitRows encodePk (applyMutation (encodePk pk) mutation rows) cache := rfl

theorem ascending_commitRows (encodePk : Row Datum → Bytes) :
    ∀ (cache : List (Row Datum × Option (Row Datum))) {rows : List (Bytes × Row Datum)},
      Ascending rows → Ascending (commitRows encodePk rows cache)
  | [], _, ascending => ascending
  | (_, mutation) :: cache, _, ascending =>
    ascending_commitRows encodePk cache (ascending_applyMutation ascending mutation)

theorem forall_commitRows (encodePk : Row Datum → Bytes) {good : Bytes × Row Datum → Prop} :
    ∀ (cache : List (Row Datum × Option (Row Datum))) {rows : List (Bytes × Row Datum)},
      Ascending rows → (∀ entry ∈ rows, good entry) →
      (∀ entry ∈ cache, ∀ row, entry.2 = some row → good (encodePk entry.1, row)) →
      ∀ entry ∈ commitRows encodePk rows cache, good entry
  | [], _, _, kept, _ => kept
  | (_, mutation) :: cache, _, ascending, kept, fits =>
    forall_commitRows encodePk cache (ascending_applyMutation ascending mutation)
      (forall_applyMutation ascending kept fun row put => fits _ (List.mem_cons_self _ _) row put)
      fun entry mem => fits entry (List.mem_cons_of_mem _ mem)

-- A flush never fails or panics when every pk encodes and every buffered row
-- is full, and its batch moves the store along with the committed rows.
theorem flushWrites_represents (enc : Encoding Kind Datum) (state : ManagedMViewState Kind Datum)
    (encodePk : Row Datum → Bytes)
    (encodes : ∀ pk, enc.serializePk pk state.sortKeySerializer = .ok (encodePk pk))
    (bound : state.schema.len ≤ UInt32.size) :
    ∀ (cache : List (Row Datum × Option (Row Datum))) (store : MemoryStateStore)
      (rows : List (Bytes × Row Datum)), Represents codec state.prefixKey store rows → Ascending rows →
      (∀ entry ∈ rows, entry.2.length = state.schema.len) →
      (∀ entry ∈ cache, ∀ row, entry.2 = some row → row.length = state.schema.len) →
      ∃ batch, flushWrites enc codec state cache = some (.ok batch) ∧
        Represents codec state.prefixKey (store.ingestBatch batch) (commitRows encodePk rows cache)
  | [], store, _, represents, _, _, _ => ⟨[], rfl, by simpa [MemoryStateStore.ingestBatch] using represents⟩
  | (pk, mutation) :: cache, store, rows, represents, ascending, full, fits => by
    have fitsHead : ∀ row, mutation = some row → row.length = state.schema.len :=
      fun row put => fits _ (List.mem_cons_self _ _) row put
    obtain ⟨writes, built⟩ := rowWrites_built (state.prefixKey ++ encodePk pk) fitsHead
    obtain ⟨batch, rest, after⟩ := flushWrites_represents enc state encodePk encodes bound cache
      (store.ingestBatch writes) (applyMutation (encodePk pk) mutation rows)
      (represents_applyMutation bound represents full ascending fitsHead built)
      (ascending_applyMutation ascending mutation) (forall_applyMutation ascending full fitsHead)
      fun entry mem => fits entry (List.mem_cons_of_mem _ mem)
    refine ⟨writes ++ batch, ?_, ?_⟩
    · simp only [flushWrites, encodes, built, rest]
      rfl
    · rw [ingestBatch_append, commitRows_cons]
      exact after

-- Every write of a mutation is at one of its pk's cell keys.
theorem rowWrites_under (key : Bytes) {mutation : Option (Row Datum)} {writes : WriteBatch}
    (built : rowWrites codec columns key mutation = some writes) : ∀ write ∈ writes, key <+: write.1 := by
  cases mutation with
  | none =>
    obtain rfl := Option.some.inj built
    simp only [List.mem_map, mem_cellKeys]
    rintro _ ⟨_, ⟨idx, -, rfl⟩, rfl⟩
    exact List.prefix_append _ _
  | some row =>
    by_cases fits : columns ≤ row.length
    · rw [rowWrites, if_pos fits] at built
      obtain rfl := Option.some.inj built
      simp only [List.mem_map]
      rintro _ ⟨cell, mem, rfl⟩
      obtain ⟨idx, datum, -, rfl⟩ := mem_cellsOf.mp mem
      exact List.prefix_append _ _
    · rw [rowWrites, if_neg fits] at built
      cases built

-- A flush writes under the table's prefix only.
theorem flushWrites_under (enc : Encoding Kind Datum) (state : ManagedMViewState Kind Datum) :
    ∀ (cache : List (Row Datum × Option (Row Datum))) {batch : WriteBatch},
      flushWrites enc codec state cache = some (.ok batch) → ∀ write ∈ batch, state.prefixKey <+: write.1
  | [], _, built => by
    obtain rfl := Except.ok.inj (Option.some.inj built)
    exact fun _ mem => absurd mem (List.not_mem_nil _)
  | (pk, mutation) :: cache, batch, built => by
    unfold flushWrites at built
    split at built
    · cases built
    · split at built
      · cases built
      · rename_i writes rowBuilt
        obtain ⟨rest, restBuilt, rfl⟩ := map_map_eq_ok.mp built
        intro write mem
        rcases List.mem_append.mp mem with mine | later
        · exact (List.prefix_append _ _).trans (rowWrites_under _ rowBuilt write mine)
        · exact flushWrites_under enc state cache restBuilt write later

end Flush

section Run

def runCalls {State Call : Type} (step : State → Call → Option (Result State)) :
    State → List Call → Option (Result State)
  | state, [] => some (.ok state)
  | state, call :: calls =>
    match step state call with
    | some (.ok next) => runCalls step next calls
    | some (.error error) => some (.error error)
    | none => none

/-- A run simulates the fold of an abstract step: when every allowed call from
related states succeeds into a state related to the abstract step's, a run of
allowed calls succeeds into a state related to the fold. -/
theorem runCalls_simulates {State Model Call : Type} (step : State → Call → Option (Result State))
    (abstract : Model → Call → Model) (related : State → Model → Prop) {allowed : Call → Prop}
    (simulates : ∀ state model call, related state model → allowed call →
      ∃ next, step state call = some (.ok next) ∧ related next (abstract model call)) :
    ∀ (calls : List Call) (state : State) (model : Model), related state model →
      (∀ call ∈ calls, allowed call) →
      ∃ final, runCalls step state calls = some (.ok final) ∧ related final (calls.foldl abstract model)
  | [], state, _, holds, _ => ⟨state, rfl, holds⟩
  | call :: calls, state, model, holds, allowedAll => by
    obtain ⟨next, stepped, holdsNext⟩ :=
      simulates state model call holds (allowedAll call (List.mem_cons_self _ _))
    obtain ⟨final, run, holdsFinal⟩ := runCalls_simulates step abstract related simulates calls next _ holdsNext
      fun other mem => allowedAll other (List.mem_cons_of_mem _ mem)
    exact ⟨final, by rw [runCalls, stepped]; exact run, holdsFinal⟩

def Fits (columns : Nat) : WriteOp Datum → Prop
  | .put _ row => row.length = columns
  | .delete _ => True
  | .flush => True

/-- What holds between calls of a write path over a table of `columns`
columns whose pks `encodePk` encodes: the store holds under the prefix exactly
the cells of the committed rows, which are in key order and full, as every
buffered put is. -/
structure Synced (enc : Encoding Kind Datum) (codec : CellEncoder Datum) (encodePk : Row Datum → Bytes)
    (columns : Nat) (store : MemoryStateStore)
    (committed : List (Bytes × Row Datum) × ManagedMViewState Kind Datum) : Prop where
  encodes : ∀ pk, enc.serializePk pk committed.2.sortKeySerializer = .ok (encodePk pk)
  width : committed.2.schema.len = columns
  bound : columns ≤ UInt32.size
  represents : Represents codec committed.2.prefixKey store committed.1
  ascending : Ascending committed.1
  full : ∀ entry ∈ committed.1, entry.2.length = columns
  fits : ∀ entry ∈ committed.2.cache, ∀ row, entry.2 = some row → row.length = columns

variable [DecidableEq Datum]

def writeStep (enc : Encoding Kind Datum) (codec : CellEncoder Datum) (store : MemoryStateStore)
    (state : ManagedMViewState Kind Datum) :
    WriteOp Datum → Option (Result (MemoryStateStore × ManagedMViewState Kind Datum))
  | .put pk row => some (.ok (store, state.put pk row))
  | .delete pk => some (.ok (store, state.delete pk))
  | .flush => (state.flush enc codec).map
      (Except.map fun flushed => (store.ingestBatch flushed.1, flushed.2))

def writeRun (enc : Encoding Kind Datum) (codec : CellEncoder Datum) (store : MemoryStateStore)
    (state : ManagedMViewState Kind Datum) (ops : List (WriteOp Datum)) :
    Option (Result (MemoryStateStore × ManagedMViewState Kind Datum)) :=
  runCalls (fun written => writeStep enc codec written.1 written.2) (store, state) ops

def committedStep (encodePk : Row Datum → Bytes)
    (committed : List (Bytes × Row Datum) × ManagedMViewState Kind Datum) :
    WriteOp Datum → List (Bytes × Row Datum) × ManagedMViewState Kind Datum
  | .put pk row => (committed.1, committed.2.put pk row)
  | .delete pk => (committed.1, committed.2.delete pk)
  | .flush => (commitRows encodePk committed.1 committed.2.cache, { committed.2 with cache := [] })

def committedRun (encodePk : Row Datum → Bytes) (rows : List (Bytes × Row Datum))
    (state : ManagedMViewState Kind Datum) (ops : List (WriteOp Datum)) :
    List (Bytes × Row Datum) × ManagedMViewState Kind Datum :=
  ops.foldl (committedStep encodePk) (rows, state)

theorem committedStep_prefixKey (encodePk : Row Datum → Bytes)
    (committed : List (Bytes × Row Datum) × ManagedMViewState Kind Datum) :
    ∀ op : WriteOp Datum, (committedStep encodePk committed op).2.prefixKey = committed.2.prefixKey
  | .put _ _ | .delete _ | .flush => rfl

theorem committedRun_prefixKey (encodePk : Row Datum → Bytes) :
    ∀ (ops : List (WriteOp Datum)) (rows : List (Bytes × Row Datum)) (state : ManagedMViewState Kind Datum),
      (committedRun encodePk rows state ops).2.prefixKey = state.prefixKey
  | [], _, _ => rfl
  | op :: ops, rows, state =>
    (committedRun_prefixKey encodePk ops _ _).trans (committedStep_prefixKey encodePk (rows, state) op)

-- A call changes the store only by the batch of a flush it builds.
theorem writeStep_store {enc : Encoding Kind Datum} {codec : CellEncoder Datum} {store : MemoryStateStore}
    {state : ManagedMViewState Kind Datum} {next : MemoryStateStore × ManagedMViewState Kind Datum} :
    ∀ {op : WriteOp Datum}, writeStep enc codec store state op = some (.ok next) →
      next.1 = store ∨
        ∃ batch, flushWrites enc codec state state.cache = some (.ok batch) ∧ next.1 = store.ingestBatch batch
  | .put _ _, stepped => .inl (congrArg Prod.fst (Except.ok.inj (Option.some.inj stepped)).symm)
  | .delete _, stepped => .inl (congrArg Prod.fst (Except.ok.inj (Option.some.inj stepped)).symm)
  | .flush, stepped => by
    obtain ⟨flushed, flushedOk, rfl⟩ := map_map_eq_ok.mp stepped
    obtain ⟨batch, built, rfl⟩ := map_map_eq_ok.mp flushedOk
    exact .inr ⟨batch, built, rfl⟩

theorem mem_buffer {state : ManagedMViewState Kind Datum} {pk : Row Datum} {mutation : Option (Row Datum)}
    {entry : Row Datum × Option (Row Datum)} (mem : entry ∈ (state.buffer pk mutation).cache) :
    entry ∈ state.cache ∨ entry = (pk, mutation) := by
  rcases List.mem_append.mp mem with kept | added
  · exact .inl (List.mem_filter.mp kept).1
  · exact .inr (List.mem_singleton.mp added)

-- Whatever every buffered put satisfies, it still does after one more mutation that satisfies it.
theorem buffer_fits {P : Row Datum → Row Datum → Prop} {state : ManagedMViewState Kind Datum}
    {pk : Row Datum} {mutation : Option (Row Datum)}
    (fits : ∀ entry ∈ state.cache, ∀ row, entry.2 = some row → P entry.1 row)
    (added : ∀ row, mutation = some row → P pk row) :
    ∀ entry ∈ (state.buffer pk mutation).cache, ∀ row, entry.2 = some row → P entry.1 row := by
  intro entry mem row put
  rcases mem_buffer mem with cached | rfl
  · exact fits entry cached row put
  · exact added row put

-- Along any run, the committed rows stay in key order, and each is a row a
-- `put` wrote under its pk's encoding, so keeps what every put row has.
theorem committedRun_keeps (encodePk : Row Datum → Bytes) {good : Bytes × Row Datum → Prop} :
    ∀ (ops : List (WriteOp Datum)) (rows : List (Bytes × Row Datum)) (state : ManagedMViewState Kind Datum),
      Ascending rows → (∀ entry ∈ rows, good entry) →
      (∀ entry ∈ state.cache, ∀ row, entry.2 = some row → good (encodePk entry.1, row)) →
      (∀ pk row, .put pk row ∈ ops → good (encodePk pk, row)) →
      Ascending (committedRun encodePk rows state ops).1 ∧
        ∀ entry ∈ (committedRun encodePk rows state ops).1, good entry
  | [], _, _, ascending, kept, _, _ => ⟨ascending, kept⟩
  | .put pk row :: ops, rows, state, ascending, kept, fits, puts =>
    committedRun_keeps encodePk ops rows (state.put pk row) ascending kept
      (@buffer_fits _ _ _ (fun pk row => good (encodePk pk, row)) state pk (some row) fits fun written put =>
        Option.some.inj put ▸ puts pk row (List.mem_cons_self _ _))
      fun pk row mem => puts pk row (List.mem_cons_of_mem _ mem)
  | .delete pk :: ops, rows, state, ascending, kept, fits, puts =>
    committedRun_keeps encodePk ops rows (state.delete pk) ascending kept
      (@buffer_fits _ _ _ (fun pk row => good (encodePk pk, row)) state pk none fits fun _ put => by cases put)
      fun pk row mem => puts pk row (List.mem_cons_of_mem _ mem)
  | .flush :: ops, rows, state, ascending, kept, fits, puts =>
    committedRun_keeps encodePk ops _ { state with cache := [] } (ascending_commitRows encodePk state.cache ascending)
      (forall_commitRows encodePk state.cache ascending kept fits) (fun _ mem => absurd mem (List.not_mem_nil _))
      fun pk row mem => puts pk row (List.mem_cons_of_mem _ mem)

-- A flush commits for each pk the last mutation buffered for it, for an
-- injective pk encoding.
theorem lookup_commitRows (encodePk : Row Datum → Bytes) (injective : ∀ a b, encodePk a = encodePk b → a = b)
    (pk : Row Datum) :
    ∀ (cache : List (Row Datum × Option (Row Datum))) (rows : List (Bytes × Row Datum)),
      (commitRows encodePk rows cache).lookup (encodePk pk) =
        (cache.reverse.lookup pk).getD (rows.lookup (encodePk pk))
  | [], _ => rfl
  | (q, mutation) :: cache, rows => by
    rw [commitRows_cons, lookup_commitRows encodePk injective pk cache, lookup_applyMutation,
      List.reverse_cons, List.lookup_append, lookup_cons_ite, List.lookup_nil]
    cases cache.reverse.lookup pk with
    | some later => rfl
    | none =>
      by_cases same : pk = q
      · simp [same]
      · have differ : encodePk pk ≠ encodePk q := fun encoded => same (injective pk q encoded)
        simp [same, differ]

theorem lookup_buffer (state : ManagedMViewState Kind Datum) (pk query : Row Datum)
    (mutation : Option (Row Datum)) :
    (state.buffer pk mutation).cache.reverse.lookup query =
      if pk = query then some mutation else state.cache.reverse.lookup query := by
  simp only [ManagedMViewState.buffer, List.reverse_append, List.reverse_singleton, List.singleton_append,
    lookup_cons_ite, ← List.filter_reverse, lookup_filter_ne]
  by_cases same : pk = query
  · simp [same]
  · simp [same, Ne.symm same]

/-- Modelled from the spec: what a reader sees of one pk along a run of calls,
from the row the last flush committed for it (`flushed`) and the mutation
buffered for it since (`pending`), which the next flush commits. -/
def flushedRow (pk : Row Datum) :
    Option (Row Datum) → Option (Option (Row Datum)) → List (WriteOp Datum) → Option (Row Datum)
  | flushed, _, [] => flushed
  | flushed, pending, .put q row :: ops => flushedRow pk flushed (if q = pk then some (some row) else pending) ops
  | flushed, pending, .delete q :: ops => flushedRow pk flushed (if q = pk then some none else pending) ops
  | flushed, pending, .flush :: ops => flushedRow pk (pending.getD flushed) none ops

/-- The committed rows refine each pk's view, for an injective pk encoding:
after any run, the row committed under a pk's encoding is the one its view
shows. -/
theorem lookup_committedRun (encodePk : Row Datum → Bytes) (injective : ∀ a b, encodePk a = encodePk b → a = b)
    (pk : Row Datum) :
    ∀ (ops : List (WriteOp Datum)) (rows : List (Bytes × Row Datum)) (state : ManagedMViewState Kind Datum),
      (committedRun encodePk rows state ops).1.lookup (encodePk pk) =
        flushedRow pk (rows.lookup (encodePk pk)) (state.cache.reverse.lookup pk) ops
  | [], _, _ => rfl
  | .put q row :: ops, rows, state => by
    rw [flushedRow, ← lookup_buffer]
    exact lookup_committedRun encodePk injective pk ops rows (state.put q row)
  | .delete q :: ops, rows, state => by
    rw [flushedRow, ← lookup_buffer]
    exact lookup_committedRun encodePk injective pk ops rows (state.delete q)
  | .flush :: ops, rows, state => by
    rw [flushedRow, ← lookup_commitRows encodePk injective]
    exact lookup_committedRun encodePk injective pk ops _ { state with cache := [] }

section Simulation

variable (enc : Encoding Kind Datum) (codec : CellEncoder Datum) (encodePk : Row Datum → Bytes)
variable {columns : Nat}

-- One call of the write path simulates the abstract step: it neither fails
-- nor panics, leaves the abstract state, and keeps what holds between calls.
theorem writeStep_synced {store : MemoryStateStore}
    {committed : List (Bytes × Row Datum) × ManagedMViewState Kind Datum}
    (synced : Synced enc codec encodePk columns store committed) :
    ∀ op : WriteOp Datum, Fits columns op →
      ∃ store', writeStep enc codec store committed.2 op =
          some (.ok (store', (committedStep encodePk committed op).2)) ∧
        Synced enc codec encodePk columns store' (committedStep encodePk committed op)
  | .put pk row, fits => ⟨store, rfl,
      { synced with
        fits := @buffer_fits _ _ _ (fun _ row => row.length = columns) committed.2 pk (some row) synced.fits
          fun _ put => by cases put; exact fits }⟩
  | .delete pk, _ => ⟨store, rfl,
      { synced with
        fits := @buffer_fits _ _ _ (fun _ row => row.length = columns) committed.2 pk none synced.fits
          fun _ put => by cases put }⟩
  | .flush, _ => by
    obtain ⟨rows, state⟩ := committed
    obtain ⟨encodes, rfl, bound, represents, ascending, full, fits⟩ := synced
    obtain ⟨batch, built, after⟩ :=
      flushWrites_represents enc state encodePk encodes bound state.cache store rows represents ascending full fits
    refine ⟨store.ingestBatch batch, ?_, ⟨encodes, rfl, bound, after, ascending_commitRows encodePk _ ascending,
      forall_commitRows encodePk _ ascending full fits, fun _ mem => absurd mem (List.not_mem_nil _)⟩⟩
    simp only [writeStep, ManagedMViewState.flush, built]
    rfl

/-- The write path refines the committed rows: over any run of calls with full
put rows, no call fails or panics, the write path's state is the abstract one,
and what holds between calls holds after the run. -/
theorem writeRun_refines (ops : List (WriteOp Datum)) {store : MemoryStateStore}
    {rows : List (Bytes × Row Datum)} {state : ManagedMViewState Kind Datum}
    (synced : Synced enc codec encodePk columns store (rows, state)) (fits : ∀ op ∈ ops, Fits columns op) :
    ∃ store', writeRun enc codec store state ops = some (.ok (store', (committedRun encodePk rows state ops).2)) ∧
      Synced enc codec encodePk columns store' (committedRun encodePk rows state ops) := by
  obtain ⟨⟨store', state'⟩, run, same, final⟩ := runCalls_simulates
    (fun written => writeStep enc codec written.1 written.2) (committedStep encodePk)
    (fun written committed => written.2 = committed.2 ∧ Synced enc codec encodePk columns written.1 committed)
    (fun ⟨store, state⟩ ⟨rows, state'⟩ op ⟨same, synced⟩ fits => by
      obtain rfl : state = state' := same
      obtain ⟨store', stepped, synced'⟩ := writeStep_synced enc codec encodePk synced op fits
      exact ⟨_, stepped, rfl, synced'⟩)
    ops (store, state) (rows, state) ⟨rfl, synced⟩ fits
  dsimp only at same
  subst same
  exact ⟨store', run, final⟩

end Simulation

end Run

end RisingWave.ManagedState
