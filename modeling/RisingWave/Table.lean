import RisingWave.Store

/-!
`MViewTable` and `MViewTableIter` of `mview/table.rs`. A call of `next` runs
one loop over the inner iterator with the locals `pk_buf`, `restored` and
`row_bytes`; between calls the iterator keeps only its inner iterator, so a
row never spans two calls. Panics are kept: `next` returns `none` where the
pk slice would be out of range, `get` where its `debug_assert!` fails. The
`ScannableTable` boxing and the unimplemented `get_data_by_columns` are left out.
-/

namespace RisingWave.Table

open Keys Common Store

variable {Kind Datum : Type}

structure MViewTable (Kind : Type) where
  keyspace : Keyspace
  schema : Schema Kind
  pkColumns : List Nat
  sortKeySerializer : OrderedRowsSerializer

def MViewTable.new (keyspace : Keyspace) (schema : Schema Kind) (pkColumns : List Nat)
    (orderings : List OrderType) : MViewTable Kind where
  keyspace := keyspace
  schema := schema
  pkColumns := pkColumns
  sortKeySerializer := ⟨orderings.zip pkColumns⟩

def MViewTable.storage (table : MViewTable Kind) : StateStore := table.keyspace.store

structure MViewTableIter (Kind : Type) where
  inner : StateStoreIter
  prefixKey : Bytes
  schema : Schema Kind
  pkColumns : List Nat

def MViewTableIter.new (inner : StateStoreIter) (prefixKey : Bytes) (schema : Schema Kind)
    (pkColumns : List Nat) : MViewTableIter Kind :=
  ⟨inner, prefixKey, schema, pkColumns⟩

def MViewTable.iter (table : MViewTable Kind) : Result (MViewTableIter Kind) := do
  let inner ← table.keyspace.iter
  pure (.new inner table.keyspace.key table.schema table.pkColumns)

/-- `MViewTable::get`, in a build where `debug_assert!` is checked. -/
def MViewTable.get (enc : Encoding Kind Datum) (table : MViewTable Kind) (pk : Row Datum)
    (cellIdx : Nat) : Option (Result (Option Datum)) :=
  if bound : cellIdx < table.schema.len then
    some do
      let pkBytes ← enc.serializePk pk table.sortKeySerializer
      let idxBytes ← serializeCellIdx cellIdx.toUInt32
      let buf ← (table.keyspace.get (pkBytes ++ idxBytes)).mapError .internalError
      match buf with
      | some buf => do
          let (datum, _) ← enc.deserializeDatumFrom (table.schema.fields.get ⟨cellIdx, bound⟩).dataType buf
          pure (some datum)
      | none => pure none
  else none

def corruptedKey : ErrorCode := .internalError "corrupted key"

def incompleteItem : ErrorCode := .internalError "incomplete item"

-- How the loop of `next` ends: `break` with a full row, `return Ok(None)`,
-- `return Err(..)` (the inner iterator's error included), or a panic.
inductive Exit
  | row (rowBytes : Bytes)
  | exhausted
  | fail (error : ErrorCode)
  | panic
  deriving DecidableEq

/-- The loop of `next`, from its `pk_buf`, `restored` and `row_bytes`; each
list element is one answer of `self.inner.next()`. -/
def restore (prefixLen schemaLen : Nat) (pkBuf : Bytes) (restored : Nat) (rowBytes : Bytes) :
    StateStoreIter → Exit × StateStoreIter
  | [] => (if restored = 0 then .exhausted else .fail incompleteItem, [])
  | .error error :: inner => (.fail error, inner)
  | .ok (key, value) :: inner =>
      if key.length < prefixLen + 4 then (.fail corruptedKey, inner) else
      match curPkBuf prefixLen key with
      | none => (.panic, inner)
      | some cur =>
          -- the first cell adopts its pk; a later one must repeat it
          if restored ≠ 0 ∧ pkBuf ≠ cur then (.fail incompleteItem, inner)
          else if restored + 1 = schemaLen then (.row (rowBytes ++ value), inner)
          else restore prefixLen schemaLen (if restored = 0 then cur else pkBuf) (restored + 1)
            (rowBytes ++ value) inner

/-- `MViewTableIter::next`; `none` where it panics. -/
def MViewTableIter.next (enc : Encoding Kind Datum) (it : MViewTableIter Kind) :
    Option (Result (Option (Row Datum)) × MViewTableIter Kind) :=
  match restore it.prefixKey.length it.schema.len [] 0 [] it.inner with
  | (.row rowBytes, inner) =>
      some ((some ·) <$> RowDeserializer.deserialize enc ⟨it.schema.kinds⟩ rowBytes,
        { it with inner })
  | (.exhausted, inner) => some (.ok none, { it with inner })
  | (.fail error, inner) => some (.error error, { it with inner })
  | (.panic, _) => none

-- `n` successive calls of `next`: their results and the iterator after them;
-- `none` if one of them panics.
def MViewTableIter.calls (enc : Encoding Kind Datum) :
    Nat → MViewTableIter Kind → Option (List (Result (Option (Row Datum))) × MViewTableIter Kind)
  | 0, it => some ([], it)
  | n + 1, it =>
      match it.next enc with
      | none => none
      | some (result, it) => (calls enc n it).map fun (results, last) => (result :: results, last)

section Loop

variable {prefixLen schemaLen : Nat}

theorem restore_short {key value : Bytes} (short : key.length < prefixLen + 4) (pkBuf : Bytes)
    (restored : Nat) (rowBytes : Bytes) (inner : StateStoreIter) :
    restore prefixLen schemaLen pkBuf restored rowBytes (.ok (key, value) :: inner) =
      (.fail corruptedKey, inner) := by
  rw [restore, if_pos short]

-- One cell with a long key: the pk check, then a full row or the next cell.
theorem restore_long {key value : Bytes} (long : LongKey prefixLen key) (pkBuf : Bytes) (restored : Nat)
    (rowBytes : Bytes) (inner : StateStoreIter) :
    restore prefixLen schemaLen pkBuf restored rowBytes (.ok (key, value) :: inner) =
      if restored ≠ 0 ∧ pkBuf ≠ pkSegment prefixLen key then (.fail incompleteItem, inner)
      else if restored + 1 = schemaLen then (.row (rowBytes ++ value), inner)
      else restore prefixLen schemaLen (if restored = 0 then pkSegment prefixLen key else pkBuf) (restored + 1)
        (rowBytes ++ value) inner := by
  rw [restore, if_neg (not_lt.mpr long), curPkBuf_of_long long]

-- The guard on the key length is checked before the slice, so the slice never panics.
theorem restore_ne_panic (pkBuf : Bytes) (restored : Nat) (rowBytes : Bytes)
    (inner : StateStoreIter) :
    (restore prefixLen schemaLen pkBuf restored rowBytes inner).1 ≠ .panic := by
  induction inner generalizing pkBuf restored rowBytes with
  | nil => unfold restore; split <;> simp
  | cons answer inner ih =>
      rcases answer with error | ⟨key, value⟩
      · simp [restore]
      · by_cases short : key.length < prefixLen + 4
        · simp [restore_short short]
        · rw [restore_long (not_lt.mp short)]
          split
          · simp
          · split
            · simp
            · exact ih _ _ _

def SamePk (prefixLen : Nat) (pk : Bytes) (cells : List (Bytes × Bytes)) : Prop :=
  ∀ cell ∈ cells, LongKey prefixLen cell.1 ∧ pkSegment prefixLen cell.1 = pk

-- One call consumes exactly the cells that complete the row it has begun.
theorem restore_samePk {pk : Bytes} {cells : List (Bytes × Bytes)} (same : SamePk prefixLen pk cells)
    (rest : StateStoreIter) :
    ∀ {pkBuf : Bytes} {restored : Nat} (rowBytes : Bytes), cells ≠ [] →
      restored + cells.length = schemaLen → (restored = 0 ∨ pkBuf = pk) →
      restore prefixLen schemaLen pkBuf restored rowBytes (cells.map .ok ++ rest) =
        (.row (rowBytes ++ cells.flatMap Prod.snd), rest) := by
  induction cells with
  | nil => intro _ _ _ absurd; exact absurd rfl |>.elim
  | cons cell cells ih =>
      intro pkBuf restored rowBytes _ filled adopted
      obtain ⟨key, value⟩ := cell
      obtain ⟨long, segment⟩ : LongKey prefixLen key ∧ pkSegment prefixLen key = pk :=
        same (key, value) (List.mem_cons_self _ _)
      have tail : SamePk prefixLen pk cells := fun c mem => same c (List.mem_cons_of_mem _ mem)
      simp only [List.map_cons, List.cons_append, restore_long long, segment]
      have agree : ¬ (restored ≠ 0 ∧ pkBuf ≠ pk) := fun ⟨started, differ⟩ => adopted.elim started differ
      rw [if_neg agree]
      by_cases last : restored + 1 = schemaLen
      · have empty : cells = [] := List.eq_nil_of_length_eq_zero (by simp at filled; omega)
        subst empty
        simp [last]
      · have more : cells ≠ [] := fun empty => by subst empty; simp at filled; omega
        have adoptedNext : (if restored = 0 then pk else pkBuf) = pk := by
          split_ifs with zero
          · rfl
          · exact adopted.resolve_left zero
        have filledNext : restored + 1 + cells.length = schemaLen := by simp at filled; omega
        rw [if_neg last, ih tail (rowBytes ++ value) more filledNext (.inr adoptedNext)]
        simp

-- A cell of the pk the row has adopted, which does not complete the row.
theorem restore_adopt {key value pk pkBuf : Bytes} {restored : Nat} (long : LongKey prefixLen key)
    (segment : pkSegment prefixLen key = pk) (adopted : restored = 0 ∨ pkBuf = pk)
    (unfilled : restored + 1 ≠ schemaLen) (rowBytes : Bytes) (inner : StateStoreIter) :
    restore prefixLen schemaLen pkBuf restored rowBytes (.ok (key, value) :: inner) =
      restore prefixLen schemaLen pk (restored + 1) (rowBytes ++ value) inner := by
  have agree : ¬ (restored ≠ 0 ∧ pkBuf ≠ pk) := fun ⟨started, differ⟩ => adopted.elim started differ
  rw [restore_long long, segment, if_neg agree, if_neg unfilled]
  rcases adopted with zero | rfl
  · rw [if_pos zero]
  · split_ifs <;> rfl

-- Inside a started row, a cell of another pk ends the call with `incomplete item`.
theorem restore_clash {key value pkBuf : Bytes} {restored : Nat} (long : LongKey prefixLen key)
    (started : restored ≠ 0) (differ : pkSegment prefixLen key ≠ pkBuf) (rowBytes : Bytes)
    (inner : StateStoreIter) :
    restore prefixLen schemaLen pkBuf restored rowBytes (.ok (key, value) :: inner) =
      (.fail incompleteItem, inner) := by
  rw [restore_long long, if_pos ⟨started, Ne.symm differ⟩]

-- Cells of one pk too few to fill the row are read on into whatever follows them.
theorem restore_samePk_short {pk : Bytes} {cells : List (Bytes × Bytes)} (same : SamePk prefixLen pk cells)
    (rest : StateStoreIter) :
    ∀ {pkBuf : Bytes} {restored : Nat} (rowBytes : Bytes), cells ≠ [] →
      restored + cells.length < schemaLen → (restored = 0 ∨ pkBuf = pk) →
      restore prefixLen schemaLen pkBuf restored rowBytes (cells.map .ok ++ rest) =
        restore prefixLen schemaLen pk (restored + cells.length) (rowBytes ++ cells.flatMap Prod.snd) rest := by
  induction cells with
  | nil => intro _ _ _ absurd; exact absurd rfl |>.elim
  | cons cell cells ih =>
      intro pkBuf restored rowBytes _ short adopted
      obtain ⟨key, value⟩ := cell
      obtain ⟨long, segment⟩ := same (key, value) (List.mem_cons_self _ _)
      have tail : SamePk prefixLen pk cells := fun c mem => same c (List.mem_cons_of_mem _ mem)
      simp only [List.length_cons] at short
      rw [List.map_cons, List.cons_append, restore_adopt long segment adopted (by omega)]
      by_cases empty : cells = []
      · subst empty
        simp
      · rw [ih tail _ empty (by omega) (.inr rfl), List.length_cons, ← Nat.add_assoc,
          Nat.add_right_comm restored 1]
        simp

-- A row is returned only after a run of cells of one pk that fills the schema.
theorem restore_row_inv {pkBuf : Bytes} {restored : Nat} {rowBytes : Bytes} {inner rest : StateStoreIter}
    {bytes : Bytes} (done : restore prefixLen schemaLen pkBuf restored rowBytes inner = (.row bytes, rest)) :
    ∃ cells pk, inner = cells.map .ok ++ rest ∧ SamePk prefixLen pk cells ∧ cells ≠ [] ∧
      restored + cells.length = schemaLen ∧ (restored = 0 ∨ pkBuf = pk) ∧
      bytes = rowBytes ++ cells.flatMap Prod.snd := by
  induction inner generalizing pkBuf restored rowBytes with
  | nil => unfold restore at done; split at done <;> simp at done
  | cons answer inner ih =>
      rcases answer with error | ⟨key, value⟩
      · simp [restore] at done
      by_cases short : key.length < prefixLen + 4
      · simp [restore_short short] at done
      have long : LongKey prefixLen key := not_lt.mp short
      rw [restore_long long] at done
      by_cases clash : restored ≠ 0 ∧ pkBuf ≠ pkSegment prefixLen key
      · simp [clash] at done
      rw [if_neg clash] at done
      have adopted : restored = 0 ∨ pkBuf = pkSegment prefixLen key :=
        (not_and_or.mp clash).imp not_not.mp not_not.mp
      by_cases last : restored + 1 = schemaLen
      · simp only [last, if_true, Prod.mk.injEq, Exit.row.injEq] at done
        obtain ⟨rfl, rfl⟩ := done
        refine ⟨[(key, value)], pkSegment prefixLen key, rfl, ?_, by simp, by simpa using last,
          adopted, by simp⟩
        intro cell mem
        simp only [List.mem_singleton] at mem
        subst mem
        exact ⟨long, rfl⟩
      rw [if_neg last] at done
      obtain ⟨cells, pk, rfl, same, nonempty, filled, adoptedNext, rfl⟩ := ih done
      have samePk : (if restored = 0 then pkSegment prefixLen key else pkBuf) = pk := by
        rcases adoptedNext with impossible | equal
        · omega
        · exact equal
      have headPk : pkSegment prefixLen key = pk := by
        rcases adopted with zero | equal
        · simpa [zero] using samePk
        · simpa [← equal, clash] using samePk
      refine ⟨(key, value) :: cells, pk, rfl, ?_, by simp, by simp; omega, adopted.imp id
        (fun equal => equal.trans headPk), by simp⟩
      intro cell mem
      rcases List.mem_cons.mp mem with rfl | later
      · exact ⟨long, headPk⟩
      · exact same cell later

theorem restore_exhausted_inv {pkBuf : Bytes} {restored : Nat} {rowBytes : Bytes}
    {inner rest : StateStoreIter}
    (done : restore prefixLen schemaLen pkBuf restored rowBytes inner = (.exhausted, rest)) :
    restored = 0 ∧ inner = [] := by
  induction inner generalizing pkBuf restored rowBytes with
  | nil => unfold restore at done; split at done <;> simp_all
  | cons answer inner ih =>
      rcases answer with error | ⟨key, value⟩
      · simp [restore] at done
      by_cases short : key.length < prefixLen + 4
      · simp [restore_short short] at done
      rw [restore_long (not_lt.mp short)] at done
      split at done
      · simp at done
      split at done
      · simp at done
      exact absurd (ih done).1 (Nat.succ_ne_zero _)

def RowBlocks (prefixLen schemaLen : Nat) (blocks : List (List (Bytes × Bytes))) : Prop :=
  ∀ block ∈ blocks, block ≠ [] ∧ block.length = schemaLen ∧ ∃ pk, SamePk prefixLen pk block

theorem rowBlocks_cons {prefixLen schemaLen : Nat} {block : List (Bytes × Bytes)}
    {blocks : List (List (Bytes × Bytes))} :
    RowBlocks prefixLen schemaLen (block :: blocks) ↔
      (block ≠ [] ∧ block.length = schemaLen ∧ ∃ pk, SamePk prefixLen pk block) ∧
        RowBlocks prefixLen schemaLen blocks :=
  List.forall_mem_cons

end Loop

section Calls

variable (enc : Encoding Kind Datum)

theorem next_ne_none (it : MViewTableIter Kind) : it.next enc ≠ none := by
  unfold MViewTableIter.next
  have := @restore_ne_panic it.prefixKey.length it.schema.len [] 0 [] it.inner
  split <;> simp_all

theorem calls_succ {n : Nat} {it it' : MViewTableIter Kind} {result : Result (Option (Row Datum))}
    (step : it.next enc = some (result, it')) :
    it.calls enc (n + 1) = (it'.calls enc n).map fun (results, last) => (result :: results, last) := by
  simp only [MViewTableIter.calls, step]

-- A call that starts on a full run of one pk returns that run's row and consumes nothing more.
theorem next_samePk {it : MViewTableIter Kind} {pk : Bytes} {cells : List (Bytes × Bytes)}
    {rest : StateStoreIter} (same : SamePk it.prefixKey.length pk cells)
    (filled : cells.length = it.schema.len) (nonempty : cells ≠ [])
    (starts : it.inner = cells.map .ok ++ rest) :
    it.next enc = some ((some ·) <$> RowDeserializer.deserialize enc ⟨it.schema.kinds⟩
      (cells.flatMap Prod.snd), { it with inner := rest }) := by
  unfold MViewTableIter.next
  rw [starts, restore_samePk same rest [] nonempty (by simpa using filled) (.inl rfl)]
  rfl

theorem next_nil {it : MViewTableIter Kind} (empty : it.inner = []) :
    it.next enc = some (.ok none, it) := by
  cases it
  subst empty
  rfl

theorem next_fail {it : MViewTableIter Kind} {error : ErrorCode} {rest : StateStoreIter}
    (done : restore it.prefixKey.length it.schema.len [] 0 [] it.inner = (.fail error, rest)) :
    it.next enc = some (.error error, { it with inner := rest }) := by
  unfold MViewTableIter.next
  rw [done]

-- Once the inner iterator is exhausted, every call returns `Ok(None)` and changes nothing.
theorem calls_exhausted {it : MViewTableIter Kind} (empty : it.inner = []) :
    ∀ m, it.calls enc m = some (List.replicate m (.ok none), it)
  | 0 => rfl
  | m + 1 => by rw [calls_succ enc (next_nil enc empty), calls_exhausted empty m]; rfl

-- Every row a call returns decodes the next cells of the inner iterator,
-- as many as the schema has columns and all of one pk.
theorem next_row_inv {it it' : MViewTableIter Kind} {row : Row Datum}
    (step : it.next enc = some (.ok (some row), it')) :
    ∃ cells pk rest, it' = { it with inner := rest } ∧ it.inner = cells.map .ok ++ rest ∧
      cells ≠ [] ∧ cells.length = it.schema.len ∧ SamePk it.prefixKey.length pk cells ∧
      RowDeserializer.deserialize enc ⟨it.schema.kinds⟩ (cells.flatMap Prod.snd) = .ok row := by
  unfold MViewTableIter.next at step
  split at step
  · next bytes rest done =>
      obtain ⟨cells, pk, starts, same, nonempty, filled, -, rfl⟩ := restore_row_inv done
      simp only [Option.some.injEq, Prod.mk.injEq] at step
      obtain ⟨decoded, rfl⟩ := step
      refine ⟨cells, pk, rest, rfl, starts, nonempty, by simpa using filled, same, ?_⟩
      cases decodes : RowDeserializer.deserialize enc ⟨it.schema.kinds⟩ (cells.flatMap Prod.snd) <;>
        simp_all
  all_goals simp at step

theorem next_none_inv {it it' : MViewTableIter Kind}
    (step : it.next enc = some (.ok none, it')) : it.inner = [] ∧ it' = it := by
  unfold MViewTableIter.next at step
  split at step
  · next bytes rest _ =>
      simp only [Option.some.injEq, Prod.mk.injEq] at step
      cases decodes : RowDeserializer.deserialize enc ⟨it.schema.kinds⟩ bytes <;> simp_all
  · next rest done =>
      obtain ⟨-, empty⟩ := restore_exhausted_inv done
      simp only [Option.some.injEq, Prod.mk.injEq, true_and] at step
      subst step
      cases it
      simp_all [restore]
  all_goals simp at step

theorem calls_cons_inv {n : Nat} {it last : MViewTableIter Kind} {result : Result (Option (Row Datum))}
    {results : List (Result (Option (Row Datum)))}
    (run : it.calls enc (n + 1) = some (result :: results, last)) :
    ∃ it', it.next enc = some (result, it') ∧ it'.calls enc n = some (results, last) := by
  simp only [MViewTableIter.calls] at run
  split at run
  · cases run
  · next result' it' step =>
      obtain ⟨⟨results', last'⟩, rest, same⟩ := Option.map_eq_some'.mp run
      simp only [Prod.mk.injEq, List.cons.injEq] at same
      obtain ⟨⟨rfl, rfl⟩, rfl⟩ := same
      exact ⟨it', step, rest⟩

-- Calls over whole rows return one decoded row per block, then go on after them.
theorem calls_blocks (m : Nat) (rest : StateStoreIter) :
    ∀ (blocks : List (List (Bytes × Bytes))) (it : MViewTableIter Kind),
      RowBlocks it.prefixKey.length it.schema.len blocks →
      it.inner = blocks.flatten.map .ok ++ rest →
      it.calls enc (blocks.length + m) = ({ it with inner := rest }.calls enc m).map
        fun (results, last) => (blocks.map (fun (block : List (Bytes × Bytes)) => (some ·) <$>
          RowDeserializer.deserialize enc ⟨it.schema.kinds⟩ (block.flatMap Prod.snd)) ++ results, last)
  | [], it, _, starts => by
      cases it
      simp only [List.flatten, List.map_nil, List.nil_append] at starts
      subst starts
      simp
  | block :: blocks, it, rows, starts => by
      obtain ⟨⟨nonempty, filled, pk, same⟩, others⟩ := rowBlocks_cons.mp rows
      have step := next_samePk enc same filled nonempty
        (by rw [starts, List.flatten_cons, List.map_append, List.append_assoc])
      have tail := calls_blocks m rest blocks { it with inner := blocks.flatten.map .ok ++ rest }
        others rfl
      rw [List.length_cons, Nat.add_right_comm, calls_succ enc step, tail]
      cases { it with inner := rest }.calls enc m <;> rfl

-- From inside a row, on remaining cells `tail` too few to fill it, every call
-- fails with `incomplete item`: it reads on into the next row, whose first cell
-- has another pk, and leaves the following call inside that row in turn.
theorem calls_desync (m : Nat) :
    ∀ {pks : List Bytes} {blocks : List (List (Bytes × Bytes))} {p : Bytes} {tail : List (Bytes × Bytes)}
      (it : MViewTableIter Kind),
      List.Forall₂ (fun pk block => block.length = it.schema.len ∧ SamePk it.prefixKey.length pk block)
        pks blocks →
      List.Chain (· ≠ ·) p pks → SamePk it.prefixKey.length p tail → tail ≠ [] →
      tail.length < it.schema.len → it.inner = (tail ++ blocks.flatten).map Except.ok →
      it.calls enc (blocks.length + 1 + m) = ({ it with inner := [] }.calls enc m).map
        fun (results, last) =>
          (List.replicate (blocks.length + 1) (.error incompleteItem : Result (Option (Row Datum))) ++ results, last)
  | [], [], p, tail, it, .nil, _, same, nonempty, short, starts => by
      have done : restore it.prefixKey.length it.schema.len [] 0 [] it.inner = (.fail incompleteItem, []) := by
        rw [starts, List.flatten_nil, List.append_nil, ← List.append_nil (tail.map Except.ok),
          restore_samePk_short same [] [] nonempty (by simpa using short) (.inl rfl)]
        simp [restore, List.length_pos.mpr nonempty |>.ne']
      rw [List.length_nil, Nat.zero_add, Nat.add_comm, calls_succ enc (next_fail enc done)]
      rfl
  | pk :: pks, block :: blocks, p, tail, it, .cons ⟨filled, sameBlock⟩ rest, chain, same, nonempty,
      short, starts => by
      obtain ⟨differ, chain⟩ := List.chain_cons.mp chain
      obtain ⟨⟨key, value⟩, cells, rfl⟩ := List.exists_cons_of_ne_nil
        (List.ne_nil_of_length_pos (show 0 < block.length by omega))
      obtain ⟨long, segment⟩ := sameBlock (key, value) (List.mem_cons_self _ _)
      have sameCells : SamePk it.prefixKey.length pk cells :=
        fun c mem => sameBlock c (List.mem_cons_of_mem _ mem)
      have started : 0 < tail.length := List.length_pos.mpr nonempty
      have done : restore it.prefixKey.length it.schema.len [] 0 [] it.inner =
          (.fail incompleteItem, (cells ++ blocks.flatten).map .ok) := by
        rw [starts, List.flatten_cons, List.map_append, List.map_append, List.map_cons, List.cons_append,
          restore_samePk_short same _ [] nonempty (by simpa using short) (.inl rfl),
          restore_clash long (by omega) fun same => differ (same.symm.trans segment), List.map_append]
      have tailRun := calls_desync m { it with inner := (cells ++ blocks.flatten).map .ok } rest chain
        sameCells (List.ne_nil_of_length_pos (by simp at filled; omega)) (by simp at filled ⊢; omega) rfl
      rw [List.length_cons, Nat.add_right_comm, calls_succ enc (next_fail enc done), tailRun]
      cases ({ it with inner := [] } : MViewTableIter Kind).calls enc m <;> rfl

end Calls

end RisingWave.Table
