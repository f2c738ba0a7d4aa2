import RisingWave.Common

/-!
The keyspace and the state store behind it. `table.rs` imports them and they
are not under `src/`, so they are modelled from the spec: a point read, and an
ordered scan of the keys under a prefix. An iterator is the list of answers its
successive `next` calls give, after which it answers `Ok(None)`; the loop of
`MViewTableIter::next` matches on that list itself. A failed read carries the
store error's `to_string()`. `MemoryStateStore` is an in-memory map kept as a
key-sorted list; sortedness is a field, so a store that yields keys out of
order cannot be built. `ingest_batch` applies a batch's writes in order, as one.
-/

namespace RisingWave.Store

open Keys Common

abbrev StateStoreIter := List (Result (Bytes × Bytes))

structure StateStore where
  get : Bytes → Except String (Option Bytes)
  iter : Bytes → Result StateStoreIter

structure Keyspace where
  store : StateStore
  key : Bytes

def Keyspace.get (keyspace : Keyspace) (key : Bytes) : Except String (Option Bytes) :=
  keyspace.store.get (keyspace.key ++ key)

def Keyspace.iter (keyspace : Keyspace) : Result StateStoreIter :=
  keyspace.store.iter keyspace.key

def Ascending {α : Type} (entries : List (Bytes × α)) : Prop :=
  entries.Pairwise fun a b => KeyLt a.1 b.1

instance ascendingDecidable {α : Type} (entries : List (Bytes × α)) : Decidable (Ascending entries) :=
  inferInstanceAs (Decidable (entries.Pairwise fun (a b : Bytes × α) => KeyLt a.1 b.1))

/-- `MemoryStateStore`: its entries in ascending key order, so each key once. -/
structure MemoryStateStore where
  entries : List (Bytes × Bytes)
  ascending : Ascending entries

def MemoryStateStore.toStateStore (store : MemoryStateStore) : StateStore where
  get key := .ok (store.entries.lookup key)
  iter pre := .ok ((store.entries.filter fun entry => pre.isPrefixOf entry.1).map .ok)

theorem lookup_of_mem {α : Type} {entries : List (Bytes × α)} (ascending : Ascending entries)
    {key : Bytes} {value : α} (mem : (key, value) ∈ entries) : entries.lookup key = some value := by
  induction entries with
  | nil => cases mem
  | cons head rest ih =>
      obtain ⟨before, after⟩ := List.pairwise_cons.mp ascending
      rcases List.mem_cons.mp mem with same | later
      · subst same
        simp [List.lookup_cons]
      · have differ : key ≠ head.1 := fun same =>
          keyLt_irrefl key (by simpa [same] using before (key, value) later)
        obtain ⟨k, v⟩ := head
        simp [List.lookup_cons, beq_false_of_ne differ, ih after later]

theorem value_unique {entries : List (Bytes × Bytes)} (ascending : Ascending entries)
    {key v w : Bytes} (first : (key, v) ∈ entries) (second : (key, w) ∈ entries) : v = w := by
  have := (lookup_of_mem ascending first).symm.trans (lookup_of_mem ascending second)
  exact Option.some.inj this

theorem lookup_of_not_key {α : Type} {entries : List (Bytes × α)} {key : Bytes}
    (absent : ∀ entry ∈ entries, entry.1 ≠ key) : entries.lookup key = none := by
  induction entries with
  | nil => rfl
  | cons head rest ih =>
      have differ := (absent head (List.mem_cons_self _ _)).symm
      obtain ⟨k, v⟩ := head
      simp [List.lookup_cons, beq_false_of_ne differ,
        ih fun entry mem => absent entry (List.mem_cons_of_mem _ mem)]

-- A scan of a prefix every stored key carries yields the whole store in order.
theorem iter_of_prefixed (store : MemoryStateStore) {pre : Bytes}
    (prefixed : ∀ entry ∈ store.entries, pre <+: entry.1) :
    store.toStateStore.iter pre = .ok (store.entries.map .ok) := by
  have keep : store.entries.filter (fun entry => pre.isPrefixOf entry.1) = store.entries :=
    List.filter_eq_self.mpr fun entry mem => List.isPrefixOf_iff_prefix.mpr (prefixed entry mem)
  simp only [MemoryStateStore.toStateStore, keep]

section Lookup

variable {κ α : Type} [BEq κ] [LawfulBEq κ] [DecidableEq κ]

-- `List.lookup` on a cons, as an `if`.
theorem lookup_cons_ite (key query : κ) (value : α) (rest : List (κ × α)) :
    ((key, value) :: rest).lookup query = if query = key then some value else rest.lookup query := by
  by_cases same : query = key
  · simp [same]
  · simp [List.lookup_cons, beq_false_of_ne same, same]

-- Filtering a key out makes it absent and leaves every other key's value.
theorem lookup_filter_ne (key query : κ) :
    ∀ entries : List (κ × α),
      (entries.filter fun entry => entry.1 ≠ key).lookup query = if query = key then none else entries.lookup query
  | [] => by simp
  | (k, v) :: rest => by
    have kept := lookup_filter_ne key query rest
    by_cases same : k = key
    · rw [List.filter_cons_of_neg (by simpa using same), kept, lookup_cons_ite]
      by_cases asked : query = key <;> simp [asked, same]
    · rw [List.filter_cons_of_pos (by simpa using same), lookup_cons_ite, kept, lookup_cons_ite]
      by_cases asked : query = k
      · simp [asked, same]
      · simp [asked]

theorem mem_of_lookup : ∀ {entries : List (κ × α)} {key : κ} {value : α},
    entries.lookup key = some value → (key, value) ∈ entries
  | [], _, _, found => by cases found
  | (k, v) :: rest, key, value, found => by
    rw [lookup_cons_ite] at found
    split_ifs at found with same
    · cases found
      rw [same]
      exact List.mem_cons_self _ _
    · exact List.mem_cons_of_mem _ (mem_of_lookup found)

end Lookup

section Write

variable {α : Type}

def putEntry (key : Bytes) (value : α) : List (Bytes × α) → List (Bytes × α)
  | [] => [(key, value)]
  | entry :: rest =>
    if KeyLt key entry.1 then (key, value) :: entry :: rest
    else if key = entry.1 then (key, value) :: rest
    else entry :: putEntry key value rest

def deleteEntry (key : Bytes) (entries : List (Bytes × α)) : List (Bytes × α) :=
  entries.filter fun entry => entry.1 ≠ key

theorem mem_putEntry {key : Bytes} {value : α} {entry : Bytes × α} :
    ∀ {entries : List (Bytes × α)}, Ascending entries →
      (entry ∈ putEntry key value entries ↔ entry = (key, value) ∨ (entry ∈ entries ∧ entry.1 ≠ key))
  | [], _ => by simp [putEntry]
  | head :: rest, ascending => by
    obtain ⟨before, restAscending⟩ := List.pairwise_cons.mp ascending
    unfold putEntry
    split_ifs with lt same
    · have fresh : ∀ e ∈ head :: rest, e.1 ≠ key := by
        intro e mem same
        rcases List.mem_cons.mp mem with rfl | later
        · exact keyLt_irrefl _ (same ▸ lt)
        · exact keyLt_irrefl _ (same ▸ keyLt_trans lt (before e later))
      rw [List.mem_cons]
      exact ⟨Or.imp_right fun mem => ⟨mem, fresh _ mem⟩, Or.imp_right And.left⟩
    · have fresh : ∀ e ∈ rest, e.1 ≠ key := fun e mem same' => keyLt_irrefl _ (same' ▸ same ▸ before e mem)
      rw [List.mem_cons, List.mem_cons]
      constructor
      · exact Or.imp_right fun mem => ⟨.inr mem, fresh _ mem⟩
      · rintro (equal | ⟨rfl | mem, differ⟩)
        · exact .inl equal
        · exact absurd same.symm differ
        · exact .inr mem
    · have differ : head.1 ≠ key := fun h => same h.symm
      rw [List.mem_cons, mem_putEntry restAscending, List.mem_cons]
      constructor
      · rintro (rfl | equal | ⟨mem, other⟩)
        · exact .inr ⟨.inl rfl, differ⟩
        · exact .inl equal
        · exact .inr ⟨.inr mem, other⟩
      · rintro (equal | ⟨rfl | mem, other⟩)
        · exact .inr (.inl equal)
        · exact .inl rfl
        · exact .inr (.inr ⟨mem, other⟩)

theorem lookup_putEntry (key : Bytes) (value : α) (query : Bytes) :
    ∀ entries : List (Bytes × α),
      (putEntry key value entries).lookup query = if query = key then some value else entries.lookup query
  | [] => lookup_cons_ite _ _ _ _
  | (k, v) :: rest => by
    simp only [putEntry]
    by_cases lt : KeyLt key k
    · rw [if_pos lt, lookup_cons_ite]
    · rw [if_neg lt]
      by_cases same : key = k
      · rw [if_pos same, lookup_cons_ite, lookup_cons_ite, same]
        by_cases asked : query = k <;> simp [asked]
      · rw [if_neg same, lookup_cons_ite, lookup_putEntry key value query rest, lookup_cons_ite]
        by_cases asked : query = k
        · simp [asked, Ne.symm same]
        · simp [asked]

theorem ascending_putEntry {key : Bytes} {value : α} :
    ∀ {entries : List (Bytes × α)}, Ascending entries → Ascending (putEntry key value entries)
  | [], _ => List.pairwise_singleton _ _
  | head :: rest, ascending => by
    obtain ⟨before, restAscending⟩ := List.pairwise_cons.mp ascending
    unfold putEntry
    split_ifs with lt same
    · refine List.pairwise_cons.mpr ⟨fun e mem => ?_, ascending⟩
      rcases List.mem_cons.mp mem with rfl | later
      · exact lt
      · exact keyLt_trans lt (before e later)
    · exact List.pairwise_cons.mpr ⟨fun e mem => same ▸ before e mem, restAscending⟩
    · have above : KeyLt head.1 key :=
        ((keyLt_trichotomous key head.1).resolve_left lt).resolve_left same
      refine List.pairwise_cons.mpr ⟨fun e mem => ?_, ascending_putEntry restAscending⟩
      rcases (mem_putEntry restAscending).mp mem with rfl | ⟨later, -⟩
      · exact above
      · exact before e later

theorem mem_deleteEntry {key : Bytes} {entries : List (Bytes × α)} {entry : Bytes × α} :
    entry ∈ deleteEntry key entries ↔ entry ∈ entries ∧ entry.1 ≠ key := by
  simp [deleteEntry]

theorem ascending_deleteEntry {key : Bytes} {entries : List (Bytes × α)} (ascending : Ascending entries) :
    Ascending (deleteEntry key entries) :=
  ascending.filter _

end Write

abbrev WriteBatch := List (Bytes × Option Bytes)

def MemoryStateStore.write (store : MemoryStateStore) : Bytes × Option Bytes → MemoryStateStore
  | (key, some value) => ⟨putEntry key value store.entries, ascending_putEntry store.ascending⟩
  | (key, none) => ⟨deleteEntry key store.entries, ascending_deleteEntry store.ascending⟩

def MemoryStateStore.ingestBatch (store : MemoryStateStore) (batch : WriteBatch) : MemoryStateStore :=
  batch.foldl MemoryStateStore.write store

section Ingest

theorem ingestBatch_append (store : MemoryStateStore) (first second : WriteBatch) :
    store.ingestBatch (first ++ second) = (store.ingestBatch first).ingestBatch second :=
  List.foldl_append _ _ _ _

-- Puts of distinct keys: each put cell is present, and every other entry stays.
theorem mem_ingest_puts {entry : Bytes × Bytes} : ∀ (cells : List (Bytes × Bytes)) (store : MemoryStateStore),
    (cells.map Prod.fst).Nodup →
      (entry ∈ (store.ingestBatch (cells.map fun cell => (cell.1, some cell.2))).entries ↔
        entry ∈ cells ∨ (entry ∈ store.entries ∧ entry.1 ∉ cells.map Prod.fst))
  | [], store, _ => by simp [MemoryStateStore.ingestBatch]
  | cell :: cells, store, distinct => by
    obtain ⟨fresh, distinct⟩ := List.nodup_cons.mp distinct
    have first : entry ∈ (store.write (cell.1, some cell.2)).entries ↔
        entry = cell ∨ (entry ∈ store.entries ∧ entry.1 ≠ cell.1) :=
      mem_putEntry store.ascending
    rw [List.map_cons, MemoryStateStore.ingestBatch, List.foldl_cons, ← MemoryStateStore.ingestBatch,
      mem_ingest_puts cells _ distinct, first, List.mem_cons, List.map_cons, List.mem_cons]
    constructor
    · rintro (mem | ⟨rfl | ⟨mem, other⟩, absent⟩)
      · exact .inl (.inr mem)
      · exact .inl (.inl rfl)
      · exact .inr ⟨mem, not_or.mpr ⟨other, absent⟩⟩
    · rintro ((rfl | mem) | ⟨mem, absent⟩)
      · exact .inr ⟨.inl rfl, fresh⟩
      · exact .inl mem
      · exact .inr ⟨.inr ⟨mem, (not_or.mp absent).1⟩, (not_or.mp absent).2⟩

-- Deletes: the entries whose keys are not deleted.
theorem mem_ingest_deletes {entry : Bytes × Bytes} : ∀ (keys : List Bytes) (store : MemoryStateStore),
    entry ∈ (store.ingestBatch (keys.map fun key => (key, none))).entries ↔
      entry ∈ store.entries ∧ entry.1 ∉ keys
  | [], store => by simp [MemoryStateStore.ingestBatch]
  | key :: keys, store => by
    rw [List.map_cons, MemoryStateStore.ingestBatch, List.foldl_cons, ← MemoryStateStore.ingestBatch,
      mem_ingest_deletes keys, MemoryStateStore.write, mem_deleteEntry, List.mem_cons, not_or, and_assoc]

-- A write of a key outside `pre` leaves every entry under `pre` as it was.
theorem mem_write_elsewhere (store : MemoryStateStore) {pre : Bytes} {write : Bytes × Option Bytes}
    (elsewhere : ¬ pre <+: write.1) {entry : Bytes × Bytes} (under : pre <+: entry.1) :
    entry ∈ (store.write write).entries ↔ entry ∈ store.entries := by
  have differ : entry.1 ≠ write.1 := fun same => elsewhere (same ▸ under)
  obtain ⟨key, _ | value⟩ := write
  · exact mem_deleteEntry.trans (and_iff_left differ)
  · exact (mem_putEntry store.ascending).trans
      ((or_iff_right fun same => differ (congrArg Prod.fst same)).trans (and_iff_left differ))

-- A batch that writes no key under `pre` leaves the entries under `pre` as they were.
theorem mem_ingest_elsewhere {pre : Bytes} {entry : Bytes × Bytes} (under : pre <+: entry.1) :
    ∀ (batch : WriteBatch) (store : MemoryStateStore), (∀ write ∈ batch, ¬ pre <+: write.1) →
      (entry ∈ (store.ingestBatch batch).entries ↔ entry ∈ store.entries)
  | [], _, _ => Iff.rfl
  | write :: batch, store, elsewhere =>
    (mem_ingest_elsewhere under batch (store.write write) fun other mem =>
      elsewhere other (List.mem_cons_of_mem _ mem)).trans
      (mem_write_elsewhere store (elsewhere write (List.mem_cons_self _ _)) under)

end Ingest

end RisingWave.Store
