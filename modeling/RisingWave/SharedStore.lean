import RisingWave.ReadAfterWrite

/-!
Tables that share one state store, as `test_multi_mview_table_iter` builds
them: each table has its own `ManagedMViewState` and `MViewTable` on a keyspace
of the store, and the keyspaces' prefixes are apart (neither is a prefix of the
other); `TableDef` holds what both are built with. A call on the shared store
is one table's (`inl`) or the other's (`inr`). A flush writes under its own
table's prefix only, so a table's cells
move only with its own calls: over any interleaving of the two write paths'
calls none fails or panics, and each table reads as the rows its own calls
committed, whatever the other table did.
-/

namespace RisingWave.SharedStore

open Keys Common Store Table ManagedState ReadAfterWrite

variable {Kind Datum : Type}

def Apart (a b : Bytes) : Prop := ¬ a <+: b ∧ ¬ b <+: a

theorem Apart.symm {a b : Bytes} (apart : Apart a b) : Apart b a := ⟨apart.2, apart.1⟩

-- No key lies under two apart prefixes.
theorem Apart.not_under {a b key : Bytes} (apart : Apart a b) (under : a <+: key) : ¬ b <+: key :=
  fun under' => (List.prefix_or_prefix_of_prefix under under').elim apart.1 apart.2

structure TableDef (Kind : Type) where
  pre : Bytes
  schema : Schema Kind
  pkColumns : List Nat
  orderings : List OrderType

def TableDef.state (table : TableDef Kind) : ManagedMViewState Kind Datum :=
  .new table.pre table.schema table.pkColumns table.orderings

def TableDef.table (table : TableDef Kind) (store : MemoryStateStore) : MViewTable Kind :=
  .new ⟨store.toStateStore, table.pre⟩ table.schema table.pkColumns table.orderings

/-- What a table's reads need of it and of its pk encoding `encodePk`. -/
structure TableDef.Valid (enc : Encoding Kind Datum) (table : TableDef Kind) (encodePk : Row Datum → Bytes) :
    Prop where
  positive : 0 < table.schema.len
  bound : table.schema.len ≤ UInt32.size
  encodes : ∀ pk, enc.serializePk pk ⟨table.orderings.zip table.pkColumns⟩ = .ok (encodePk pk)
  prefixFree : ∀ a b, encodePk a <+: encodePk b → encodePk a = encodePk b

variable (enc : Encoding Kind Datum) (codec : CellEncoder Datum)

-- A store synced with a table stays so under writes elsewhere.
theorem synced_elsewhere {encodePk : Row Datum → Bytes} {columns : Nat} {store store' : MemoryStateStore}
    {committed : List (Bytes × Row Datum) × ManagedMViewState Kind Datum}
    (synced : Synced enc codec encodePk columns store committed)
    (same : ∀ entry, committed.2.prefixKey <+: entry.1 → (entry ∈ store'.entries ↔ entry ∈ store.entries)) :
    Synced enc codec encodePk columns store' committed :=
  { synced with represents := fun entry => (and_congr_left (same entry)).trans (synced.represents entry) }

theorem fits_of_typed_left {schema : Schema Kind} {columns : Nat} {ops : List (WriteOp Datum ⊕ WriteOp Datum)}
    (typed : ∀ pk row, .inl (.put pk row) ∈ ops → Typed enc codec schema row)
    (fitsRight : ∀ op, .inr op ∈ ops → Fits columns op) :
    ∀ call ∈ ops, Sum.elim (Fits schema.len) (Fits columns) call
  | .inl (.put pk row), mem => (typed pk row mem).1
  | .inl (.delete _), _ | .inl .flush, _ => trivial
  | .inr op, mem => fitsRight op mem

/-- What holds between calls on the shared store: each write path's state is
its abstract one and is synced with its committed rows, and the prefixes are
apart. -/
structure SharedSynced (firstPk secondPk : Row Datum → Bytes) (firstColumns secondColumns : Nat)
    (written : MemoryStateStore × ManagedMViewState Kind Datum × ManagedMViewState Kind Datum)
    (committed : (List (Bytes × Row Datum) × ManagedMViewState Kind Datum) ×
      (List (Bytes × Row Datum) × ManagedMViewState Kind Datum)) : Prop where
  firstState : written.2.1 = committed.1.2
  first : Synced enc codec firstPk firstColumns written.1 committed.1
  secondState : written.2.2 = committed.2.2
  second : Synced enc codec secondPk secondColumns written.1 committed.2
  apart : Apart committed.1.2.prefixKey committed.2.2.prefixKey

variable [DecidableEq Datum]

-- A call of one write path leaves the entries under any prefix apart from
-- its own as they were.
theorem writeStep_elsewhere {store : MemoryStateStore} {state : ManagedMViewState Kind Datum}
    {op : WriteOp Datum} {next : MemoryStateStore × ManagedMViewState Kind Datum}
    (stepped : writeStep enc codec store state op = some (.ok next)) {pre : Bytes}
    (apart : Apart state.prefixKey pre) {entry : Bytes × Bytes} (under : pre <+: entry.1) :
    entry ∈ next.1.entries ↔ entry ∈ store.entries := by
  rcases writeStep_store stepped with same | ⟨batch, built, same⟩
  · rw [same]
  · rw [same]
    exact mem_ingest_elsewhere under batch store fun write mem =>
      apart.not_under (flushWrites_under enc state state.cache built write mem)

def sharedStep (written : MemoryStateStore × ManagedMViewState Kind Datum × ManagedMViewState Kind Datum) :
    WriteOp Datum ⊕ WriteOp Datum →
      Option (Result (MemoryStateStore × ManagedMViewState Kind Datum × ManagedMViewState Kind Datum))
  | .inl op => (writeStep enc codec written.1 written.2.1 op).map
      (Except.map fun next => (next.1, next.2, written.2.2))
  | .inr op => (writeStep enc codec written.1 written.2.2 op).map
      (Except.map fun next => (next.1, written.2.1, next.2))

def sharedRun (store : MemoryStateStore) (first second : ManagedMViewState Kind Datum)
    (ops : List (WriteOp Datum ⊕ WriteOp Datum)) :
    Option (Result (MemoryStateStore × ManagedMViewState Kind Datum × ManagedMViewState Kind Datum)) :=
  runCalls (sharedStep enc codec) (store, first, second) ops

def sharedCommitted (firstPk secondPk : Row Datum → Bytes)
    (committed : (List (Bytes × Row Datum) × ManagedMViewState Kind Datum) ×
      (List (Bytes × Row Datum) × ManagedMViewState Kind Datum)) :
    WriteOp Datum ⊕ WriteOp Datum →
      (List (Bytes × Row Datum) × ManagedMViewState Kind Datum) ×
        (List (Bytes × Row Datum) × ManagedMViewState Kind Datum)
  | .inl op => (committedStep firstPk committed.1 op, committed.2)
  | .inr op => (committed.1, committedStep secondPk committed.2 op)

-- The shared committed rows are each table's committed rows over its own calls.
theorem foldl_sharedCommitted (firstPk secondPk : Row Datum → Bytes) :
    ∀ (ops : List (WriteOp Datum ⊕ WriteOp Datum))
      (first second : List (Bytes × Row Datum) × ManagedMViewState Kind Datum),
      ops.foldl (sharedCommitted firstPk secondPk) (first, second) =
        ((ops.filterMap Sum.getLeft?).foldl (committedStep firstPk) first,
          (ops.filterMap Sum.getRight?).foldl (committedStep secondPk) second)
  | [], _, _ => rfl
  | .inl op :: ops, first, second =>
    foldl_sharedCommitted firstPk secondPk ops (committedStep firstPk first op) second
  | .inr op :: ops, first, second =>
    foldl_sharedCommitted firstPk secondPk ops first (committedStep secondPk second op)

section Simulation

variable {firstPk secondPk : Row Datum → Bytes} {firstColumns secondColumns : Nat}

-- One call of a table on the shared store simulates its abstract step and
-- keeps synced a table whose prefix is apart from its own.
theorem writeStep_beside {encodePk otherPk : Row Datum → Bytes} {columns otherColumns : Nat}
    {store : MemoryStateStore} {committed other : List (Bytes × Row Datum) × ManagedMViewState Kind Datum}
    (synced : Synced enc codec encodePk columns store committed)
    (otherSynced : Synced enc codec otherPk otherColumns store other)
    (apart : Apart committed.2.prefixKey other.2.prefixKey) (op : WriteOp Datum) (fits : Fits columns op) :
    ∃ store', writeStep enc codec store committed.2 op =
        some (.ok (store', (committedStep encodePk committed op).2)) ∧
      Synced enc codec encodePk columns store' (committedStep encodePk committed op) ∧
      Synced enc codec otherPk otherColumns store' other ∧
      Apart (committedStep encodePk committed op).2.prefixKey other.2.prefixKey := by
  obtain ⟨store', stepped, synced'⟩ := writeStep_synced enc codec encodePk synced op fits
  exact ⟨store', stepped, synced', synced_elsewhere enc codec otherSynced fun _ under =>
    writeStep_elsewhere enc codec stepped apart under, committedStep_prefixKey encodePk committed op ▸ apart⟩

-- One call on the shared store simulates the calling table's abstract step
-- and leaves the other table's committed rows and cells alone.
theorem sharedStep_synced
    {written : MemoryStateStore × ManagedMViewState Kind Datum × ManagedMViewState Kind Datum}
    {committed : (List (Bytes × Row Datum) × ManagedMViewState Kind Datum) ×
      (List (Bytes × Row Datum) × ManagedMViewState Kind Datum)}
    (holds : SharedSynced enc codec firstPk secondPk firstColumns secondColumns written committed) :
    ∀ call, Sum.elim (Fits firstColumns) (Fits secondColumns) call →
      ∃ next, sharedStep enc codec written call = some (.ok next) ∧
        SharedSynced enc codec firstPk secondPk firstColumns secondColumns next
          (sharedCommitted firstPk secondPk committed call)
  | .inl op, fits => by
    obtain ⟨store, first, second⟩ := written
    obtain ⟨firstState, firstSynced, secondState, secondSynced, apart⟩ := holds
    dsimp only at firstState
    subst firstState
    obtain ⟨store', stepped, synced, other, apart'⟩ :=
      writeStep_beside enc codec firstSynced secondSynced apart op fits
    refine ⟨(store', (committedStep firstPk committed.1 op).2, second), ?_, rfl, synced, secondState, other,
      apart'⟩
    simp only [sharedStep, stepped, Option.map_some', Except.map]
  | .inr op, fits => by
    obtain ⟨store, first, second⟩ := written
    obtain ⟨firstState, firstSynced, secondState, secondSynced, apart⟩ := holds
    dsimp only at secondState
    subst secondState
    obtain ⟨store', stepped, synced, other, apart'⟩ :=
      writeStep_beside enc codec secondSynced firstSynced apart.symm op fits
    refine ⟨(store', first, (committedStep secondPk committed.2 op).2), ?_, firstState, other, rfl, synced,
      apart'.symm⟩
    simp only [sharedStep, stepped, Option.map_some', Except.map]

/-- The shared store refines each table's committed rows over its own calls:
a run of calls with full put rows neither fails nor panics, and after it each
table is synced with the rows its own calls committed. -/
theorem sharedRun_refines (ops : List (WriteOp Datum ⊕ WriteOp Datum)) {store : MemoryStateStore}
    {first second : ManagedMViewState Kind Datum} {firstRows secondRows : List (Bytes × Row Datum)}
    (holds : SharedSynced enc codec firstPk secondPk firstColumns secondColumns (store, first, second)
      ((firstRows, first), (secondRows, second)))
    (fits : ∀ call ∈ ops, Sum.elim (Fits firstColumns) (Fits secondColumns) call) :
    ∃ final, sharedRun enc codec store first second ops = some (.ok final) ∧
      Synced enc codec firstPk firstColumns final.1
        (committedRun firstPk firstRows first (ops.filterMap Sum.getLeft?)) ∧
      Synced enc codec secondPk secondColumns final.1
        (committedRun secondPk secondRows second (ops.filterMap Sum.getRight?)) := by
  obtain ⟨final, run, after⟩ := runCalls_simulates (sharedStep enc codec) (sharedCommitted firstPk secondPk)
    (SharedSynced enc codec firstPk secondPk firstColumns secondColumns)
    (fun _ _ call holds fits => sharedStep_synced enc codec holds call fits) ops _ _ holds fits
  rw [foldl_sharedCommitted] at after
  exact ⟨final, run, after.first, after.second⟩

end Simulation

/-- Tables sharing a store: from a store with nothing under either table's
prefix, for prefixes apart, any interleaving of the two write paths' calls
whose put rows are typed neither fails nor panics, and each table then reads
as the rows its own calls committed. -/
theorem shared_store_isolation (first second : TableDef Kind) (firstPk secondPk : Row Datum → Bytes)
    (store : MemoryStateStore) (ops : List (WriteOp Datum ⊕ WriteOp Datum))
    (firstValid : first.Valid enc firstPk) (secondValid : second.Valid enc secondPk)
    (apart : ¬ first.pre <+: second.pre ∧ ¬ second.pre <+: first.pre)
    (vacant : ∀ entry ∈ store.entries, ¬ first.pre <+: entry.1 ∧ ¬ second.pre <+: entry.1)
    (firstTyped : ∀ pk row, .inl (.put pk row) ∈ ops → Typed enc codec first.schema row)
    (secondTyped : ∀ pk row, .inr (.put pk row) ∈ ops → Typed enc codec second.schema row) :
    ∃ written firstState secondState,
      sharedRun enc codec store first.state second.state ops = some (.ok (written, firstState, secondState)) ∧
      ReadsAs enc firstPk (first.table written)
        (committedRun firstPk [] first.state (ops.filterMap Sum.getLeft?)).1 ∧
      ReadsAs enc secondPk (second.table written)
        (committedRun secondPk [] second.state (ops.filterMap Sum.getRight?)).1 := by
  have holds : SharedSynced enc codec firstPk secondPk first.schema.len second.schema.len
      (store, first.state, second.state) (([], first.state), ([], second.state)) :=
    ⟨rfl, synced_new enc codec _ _ _ _ firstValid.bound (fun entry mem => (vacant entry mem).1) firstValid.encodes,
      rfl, synced_new enc codec _ _ _ _ secondValid.bound (fun entry mem => (vacant entry mem).2)
        secondValid.encodes, apart⟩
  have fits := fits_of_typed_left enc codec firstTyped fun op mem =>
    match op, mem with
    | .put pk row, mem => (secondTyped pk row mem).1
    | .delete _, _ | .flush, _ => trivial
  obtain ⟨⟨written, firstState, secondState⟩, run, firstSynced, secondSynced⟩ :=
    sharedRun_refines enc codec ops holds fits
  refine ⟨written, firstState, secondState, run,
    reads_of_synced enc codec _ _ _ _ _ firstValid.positive firstValid.encodes firstValid.prefixFree
      (fun pk row mem => firstTyped pk row ?_) firstSynced,
    reads_of_synced enc codec _ _ _ _ _ secondValid.positive secondValid.encodes secondValid.prefixFree
      (fun pk row mem => secondTyped pk row ?_) secondSynced⟩
  · obtain ⟨call, kept, found⟩ := List.mem_filterMap.mp mem
    exact Sum.getLeft?_eq_some_iff.mp found ▸ kept
  · obtain ⟨call, kept, found⟩ := List.mem_filterMap.mp mem
    exact Sum.getRight?_eq_some_iff.mp found ▸ kept

-- The tables of `test_multi_mview_table_iter`, on one byte column keyed by it.
def firstTable : TableDef Unit := ⟨[0x11, 0x11], ScanSound.byteSchema, [0], [.ascending]⟩

def secondTable : TableDef Unit := ⟨[0x22, 0x22], ScanSound.byteSchema, [0], [.ascending]⟩

-- The calls of `test_multi_mview_table_iter`: each table gets two puts and a
-- delete of its second pk, then the first table flushes, then the second.
def multiTableCalls : List (WriteOp UInt8 ⊕ WriteOp UInt8) :=
  [.inl (.put [1] [10]), .inl (.put [2] [20]), .inl (.delete [2]),
    .inr (.put [1] [11]), .inr (.put [2] [21]), .inr (.delete [2]), .inl .flush, .inr .flush]

theorem multiTableCalls_scans :
    ∃ written firstState secondState,
      sharedRun firstByteEncoding byteCodec ⟨[], List.Pairwise.nil⟩ firstTable.state secondTable.state
        multiTableCalls = some (.ok (written, firstState, secondState)) ∧
      (∃ it, (firstTable.table written).iter = .ok it ∧ it.calls firstByteEncoding 2 =
        some ([.ok (some [10]), .ok none], MViewTableIter.new [] [0x11, 0x11] ScanSound.byteSchema [0])) ∧
      (∃ it, (secondTable.table written).iter = .ok it ∧ it.calls firstByteEncoding 2 =
        some ([.ok (some [11]), .ok none], MViewTableIter.new [] [0x22, 0x22] ScanSound.byteSchema [0])) := by
  have valid : ∀ table : TableDef Unit, table.schema = ScanSound.byteSchema →
      table.Valid firstByteEncoding (fun pk => [pk.headD 0]) := fun table schema =>
    ⟨schema ▸ Nat.one_pos, schema ▸ by decide, fun _ => rfl, fun _ _ pre => pre.eq_of_length rfl⟩
  obtain ⟨written, firstState, secondState, run, ⟨-, firstScan⟩, ⟨-, secondScan⟩⟩ :=
    shared_store_isolation firstByteEncoding byteCodec firstTable secondTable (fun pk => [pk.headD 0])
      (fun pk => [pk.headD 0]) ⟨[], List.Pairwise.nil⟩ multiTableCalls (valid _ rfl) (valid _ rfl) (by decide)
      (fun _ mem => absurd mem (List.not_mem_nil _))
      (fun pk row mem => by
        simp only [multiTableCalls, List.mem_cons, Sum.inl.injEq, WriteOp.put.injEq, reduceCtorEq,
          List.mem_nil_iff, or_false, false_or] at mem
        rcases mem with ⟨-, rfl⟩ | ⟨-, rfl⟩ <;> exact ⟨rfl, fun _ _ _ _ _ _ => rfl⟩)
      fun pk row mem => by
        simp only [multiTableCalls, List.mem_cons, Sum.inr.injEq, WriteOp.put.injEq, reduceCtorEq,
          List.mem_nil_iff, or_false, false_or] at mem
        rcases mem with ⟨-, rfl⟩ | ⟨-, rfl⟩ <;> exact ⟨rfl, fun _ _ _ _ _ _ => rfl⟩
  exact ⟨written, firstState, secondState, run, firstScan, secondScan⟩

end RisingWave.SharedStore
