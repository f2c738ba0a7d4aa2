import RisingWave.Table

/-!
What a scan returns for an arbitrary inner iterator, corrupted or not. The
scan reads consecutive blocks of `schema.len()` cells and each block must
carry one pk: it succeeds exactly when the pk segments come in maximal runs
whose lengths are multiples of the schema length, over long keys only, and
every block decodes. Decoding is `RowDeserializer::deserialize`, whose error a
call returns like its own.
-/

namespace RisingWave.ScanSound

open Keys Common Store Table

section Runs

-- `n` copies of `pk` put in front of the runs `rs`, merged into the first run
-- when it has the same pk.
def pushRun (pk : Bytes) (n : Nat) : List (Bytes × Nat) → List (Bytes × Nat)
  | [] => [(pk, n)]
  | (other, m) :: more => if pk = other then (other, n + m) :: more else (pk, n) :: (other, m) :: more

/-- The maximal runs of equal pk segments, each with its length. -/
def runs : List Bytes → List (Bytes × Nat)
  | [] => []
  | pk :: rest => pushRun pk 1 (runs rest)

theorem pushRun_ne_nil (pk : Bytes) (n : Nat) (rs : List (Bytes × Nat)) : pushRun pk n rs ≠ [] := by
  cases rs with
  | nil => simp [pushRun]
  | cons r more =>
      obtain ⟨other, m⟩ := r
      simp only [pushRun]
      split <;> simp

theorem runs_eq_nil {xs : List Bytes} (empty : runs xs = []) : xs = [] := by
  cases xs with
  | nil => rfl
  | cons pk rest => exact absurd empty (pushRun_ne_nil _ _ _)

theorem pushRun_one_pushRun (pk : Bytes) (n : Nat) (rs : List (Bytes × Nat)) :
    pushRun pk 1 (pushRun pk n rs) = pushRun pk (n + 1) rs := by
  cases rs with
  | nil => simp [pushRun, Nat.add_comm]
  | cons r more =>
      obtain ⟨other, m⟩ := r
      by_cases same : pk = other
      · subst same
        simp only [pushRun, if_true]
        congr 2
        omega
      · simp [pushRun, same, Nat.add_comm]

theorem runs_replicate_append (pk : Bytes) (ys : List Bytes) :
    ∀ n, 0 < n → runs (List.replicate n pk ++ ys) = pushRun pk n (runs ys)
  | 1, _ => rfl
  | n + 2, _ => by
      rw [List.replicate_succ, List.cons_append, runs,
        runs_replicate_append pk ys (n + 1) (Nat.succ_pos n), pushRun_one_pushRun]

theorem pushRun_dvd {L n : Nat} {pk : Bytes} {rs : List (Bytes × Nat)} (head : L ∣ n)
    (tail : ∀ r ∈ rs, L ∣ r.2) : ∀ r ∈ pushRun pk n rs, L ∣ r.2 := by
  cases rs with
  | nil => simpa [pushRun] using head
  | cons r more =>
      obtain ⟨other, m⟩ := r
      have first : L ∣ m := tail _ (List.mem_cons_self _ _)
      simp only [pushRun]
      split
      · intro r mem
        rcases List.mem_cons.mp mem with rfl | later
        · exact Nat.dvd_add head first
        · exact tail r (List.mem_cons_of_mem _ later)
      · intro r mem
        rcases List.mem_cons.mp mem with rfl | later
        · exact head
        · exact tail r later

theorem runs_pos : ∀ (xs : List Bytes), ∀ r ∈ runs xs, 0 < r.2
  | [] => by simp [runs]
  | pk :: rest => by
      have tail := runs_pos rest
      simp only [runs]
      cases more : runs rest with
      | nil => simp [pushRun]
      | cons r others =>
          obtain ⟨other, m⟩ := r
          rw [more] at tail
          simp only [pushRun]
          split
          · intro r mem
            rcases List.mem_cons.mp mem with rfl | later
            · exact Nat.succ_pos m |>.trans_eq (Nat.add_comm m 1)
            · exact tail r (List.mem_cons_of_mem _ later)
          · intro r mem
            rcases List.mem_cons.mp mem with rfl | later
            · exact Nat.one_pos
            · exact tail r later

-- The first run of a list is a replicate; what follows starts with another pk.
theorem runs_eq_cons {xs : List Bytes} {pk : Bytes} {n : Nat} {more : List (Bytes × Nat)}
    (split : runs xs = (pk, n) :: more) :
    ∃ ys, xs = List.replicate n pk ++ ys ∧ runs ys = more ∧ 0 < n ∧ ∀ r ∈ more.head?, r.1 ≠ pk := by
  induction xs generalizing pk n more with
  | nil => cases split
  | cons x xs ih =>
      simp only [runs] at split
      cases tail : runs xs with
      | nil =>
          rw [tail] at split
          simp only [pushRun, List.cons.injEq, Prod.mk.injEq] at split
          obtain ⟨⟨rfl, rfl⟩, rfl⟩ := split
          exact ⟨[], by simp [runs_eq_nil tail], rfl, Nat.one_pos, by simp⟩
      | cons r rest =>
          obtain ⟨other, m⟩ := r
          rw [tail] at split
          by_cases same : x = other
          · subst same
            simp only [pushRun, if_true, List.cons.injEq, Prod.mk.injEq] at split
            obtain ⟨⟨rfl, rfl⟩, rfl⟩ := split
            obtain ⟨ys, rfl, rest', _, apart⟩ := ih tail
            exact ⟨ys, by rw [Nat.add_comm, List.replicate_succ]; rfl, rest', by omega, apart⟩
          · simp only [pushRun, same, if_false, List.cons.injEq, Prod.mk.injEq] at split
            obtain ⟨⟨rfl, rfl⟩, rfl⟩ := split
            exact ⟨xs, rfl, tail, Nat.one_pos, by simpa [eq_comm] using same⟩

end Runs

section Grouping

variable {prefixLen schemaLen : Nat}

def segments (prefixLen : Nat) (entries : List (Bytes × Bytes)) : List Bytes :=
  entries.map fun entry => pkSegment prefixLen entry.1

-- `entries` cut into consecutive blocks of `schemaLen` cells of one pk each.
def Grouped (prefixLen schemaLen : Nat) (entries : List (Bytes × Bytes))
    (blocks : List (List (Bytes × Bytes))) : Prop :=
  entries = blocks.flatten ∧ RowBlocks prefixLen schemaLen blocks

theorem segments_samePk {pk : Bytes} {block : List (Bytes × Bytes)}
    (same : SamePk prefixLen pk block) :
    segments prefixLen block = List.replicate block.length pk :=
  List.map_eq_replicate_iff.mpr fun entry mem => (same entry mem).2

theorem runs_of_grouped : ∀ {entries : List (Bytes × Bytes)} {blocks : List (List (Bytes × Bytes))},
    Grouped prefixLen schemaLen entries blocks →
      (∀ entry ∈ entries, LongKey prefixLen entry.1) ∧
        ∀ r ∈ runs (segments prefixLen entries), schemaLen ∣ r.2
  | _, [], ⟨rfl, _⟩ => by simp [segments, runs]
  | _, block :: blocks, ⟨rfl, rows⟩ => by
      obtain ⟨nonempty, filled, pk, same⟩ := rows block (List.mem_cons_self _ _)
      obtain ⟨long, multiple⟩ := @runs_of_grouped blocks.flatten blocks
        ⟨rfl, fun b mem => rows b (List.mem_cons_of_mem _ mem)⟩
      have segs : segments prefixLen (block :: blocks).flatten =
          List.replicate schemaLen pk ++ segments prefixLen blocks.flatten := by
        rw [List.flatten_cons, segments, List.map_append, ← segments, segments_samePk same, filled]
        rfl
      have positive : 0 < schemaLen := filled ▸ List.length_pos.mpr nonempty
      refine ⟨?_, ?_⟩
      · intro entry mem
        rcases List.mem_append.mp (List.flatten_cons ▸ mem) with here | later
        · exact (same entry here).1
        · exact long entry later
      · rw [segs, runs_replicate_append pk _ schemaLen positive]
        exact pushRun_dvd (Nat.dvd_refl _) multiple

theorem grouped_of_runs (positive : 0 < schemaLen) :
    ∀ (n : Nat) (entries : List (Bytes × Bytes)), entries.length = n →
      (∀ entry ∈ entries, LongKey prefixLen entry.1) →
      (∀ r ∈ runs (segments prefixLen entries), schemaLen ∣ r.2) →
      ∃ blocks, Grouped prefixLen schemaLen entries blocks := by
  intro n
  induction n using Nat.strong_induction_on with
  | _ n ih =>
  intro entries size long multiple
  cases split : runs (segments prefixLen entries) with
  | nil =>
      have empty : entries = [] := List.map_eq_nil_iff.mp (runs_eq_nil split)
      exact ⟨[], by simp [Grouped, RowBlocks, empty]⟩
  | cons r more =>
      obtain ⟨pk, count⟩ := r
      obtain ⟨ys, segs, tail, counted, apart⟩ := runs_eq_cons split
      obtain ⟨first, second, rfl, firstSegs, secondSegs⟩ := List.map_eq_append_iff.mp segs
      have firstLength : first.length = count := by
        simpa using congrArg List.length firstSegs
      have head : schemaLen ∣ count := multiple (pk, count) (by simp [split])
      have enough : schemaLen ≤ count := Nat.le_of_dvd counted head
      have samePk : SamePk prefixLen pk (first.take schemaLen) := fun entry mem =>
        ⟨long entry (List.mem_append_left _ (List.mem_of_mem_take mem)),
          (List.map_eq_replicate_iff.mp (firstLength ▸ firstSegs)) entry (List.mem_of_mem_take mem)⟩
      have restSegs : segments prefixLen (first.drop schemaLen ++ second) =
          List.replicate (count - schemaLen) pk ++ ys := by
        simp only [segments, List.map_append, List.map_drop, firstSegs, List.drop_replicate,
          secondSegs]
      have restRuns : ∀ r ∈ runs (segments prefixLen (first.drop schemaLen ++ second)),
          schemaLen ∣ r.2 := by
        rw [restSegs]
        rcases Nat.eq_zero_or_pos (count - schemaLen) with none | some
        · rw [none, List.replicate_zero, List.nil_append, tail]
          exact fun r mem => multiple r (by simp [split, mem])
        · rw [runs_replicate_append pk ys _ some, tail]
          cases more with
          | nil => simpa [pushRun] using Nat.dvd_sub' head (Nat.dvd_refl _)
          | cons r rest =>
              obtain ⟨other, m⟩ := r
              have differ : pk ≠ other := fun same => apart (other, m) rfl same.symm
              intro r mem
              simp only [pushRun, differ, if_false, List.mem_cons] at mem
              rcases mem with rfl | rfl | later
              · exact Nat.dvd_sub' head (Nat.dvd_refl _)
              · exact multiple _ (by simp [split])
              · exact multiple r (by simp [split, later])
      have shorter : (first.drop schemaLen ++ second).length < n := by
        simp only [← size, List.length_append, List.length_drop]
        omega
      obtain ⟨blocks, restEq, rows⟩ := ih (first.drop schemaLen ++ second).length shorter _ rfl
        (fun entry mem => long entry (by
          rcases List.mem_append.mp mem with here | later
          · exact List.mem_append_left _ (List.mem_of_mem_drop here)
          · exact List.mem_append_right _ later))
        restRuns
      refine ⟨first.take schemaLen :: blocks, ?_, ?_⟩
      · rw [List.flatten_cons, ← restEq, ← List.append_assoc, List.take_append_drop]
      · intro block mem
        rcases List.mem_cons.mp mem with rfl | later
        · have size : (first.take schemaLen).length = schemaLen := by simp; omega
          exact ⟨List.ne_nil_of_length_pos (by omega), size, pk, samePk⟩
        · exact rows block later

-- Blocks of a fixed positive size cut a list in only one way.
theorem grouped_unique :
    ∀ {entries : List (Bytes × Bytes)} {blocks other : List (List (Bytes × Bytes))},
      Grouped prefixLen schemaLen entries blocks → Grouped prefixLen schemaLen entries other →
        blocks = other
  | _, [], [], _, _ => rfl
  | _, [], block :: _, ⟨rfl, _⟩, ⟨same, rows⟩ => by
      simp only [List.flatten_nil, List.flatten_cons] at same
      exact absurd (List.append_eq_nil.mp same.symm).1 (rows block (List.mem_cons_self _ _)).1
  | _, block :: _, [], ⟨rfl, rows⟩, ⟨same, _⟩ => by
      simp only [List.flatten_nil, List.flatten_cons] at same
      exact absurd (List.append_eq_nil.mp same).1 (rows block (List.mem_cons_self _ _)).1
  | _, block :: blocks, block' :: others, ⟨rfl, rows⟩, ⟨same, rows'⟩ => by
      simp only [List.flatten_cons] at same
      have sizes : block.length = block'.length :=
        (rows block (List.mem_cons_self _ _)).2.1.trans (rows' block' (List.mem_cons_self _ _)).2.1.symm
      obtain ⟨rfl, rest⟩ := List.append_inj same sizes
      rw [@grouped_unique blocks.flatten blocks others
        ⟨rfl, fun b mem => rows b (List.mem_cons_of_mem _ mem)⟩
        ⟨rest, fun b mem => rows' b (List.mem_cons_of_mem _ mem)⟩]

-- With no columns no run can have a length divisible by the schema length,
-- so only the empty store qualifies, and it is grouped into no blocks.
theorem grouped_iff_runs (entries : List (Bytes × Bytes)) :
    (∃ blocks, Grouped prefixLen schemaLen entries blocks) ↔
      (∀ entry ∈ entries, LongKey prefixLen entry.1) ∧
        ∀ r ∈ runs (segments prefixLen entries), schemaLen ∣ r.2 := by
  refine ⟨fun ⟨_, grouped⟩ => runs_of_grouped grouped, fun ⟨long, multiple⟩ => ?_⟩
  rcases Nat.eq_zero_or_pos schemaLen with zero | positive
  · refine ⟨[], ?_, by simp [RowBlocks]⟩
    cases split : runs (segments prefixLen entries) with
    | nil => exact List.map_eq_nil_iff.mp (runs_eq_nil split)
    | cons r _ =>
        have dvd := multiple r (by simp [split])
        rw [zero, Nat.zero_dvd] at dvd
        exact absurd dvd (runs_pos (segments prefixLen entries) r (by simp [split])).ne'
  · exact grouped_of_runs positive _ entries rfl long multiple

end Grouping

section Scan

variable {Kind Datum : Type} (enc : Encoding Kind Datum)

def ScanReturns (it : MViewTableIter Kind) (rows : List (Row Datum)) : Prop :=
  ∃ last, it.calls enc (rows.length + 1) =
    some (rows.map (fun row => .ok (some row)) ++ [.ok none], last)

def ScanFails (it : MViewTableIter Kind) (rows : List (Row Datum)) (error : ErrorCode) : Prop :=
  ∃ last, it.calls enc (rows.length + 1) =
    some (rows.map (fun row => .ok (some row)) ++ [.error error], last)

def Decoded (schema : Schema Kind) (blocks : List (List (Bytes × Bytes))) (rows : List (Row Datum)) :
    Prop :=
  List.Forall₂ (fun block row =>
    RowDeserializer.deserialize enc ⟨schema.kinds⟩ (block.flatMap Prod.snd) = .ok row) blocks rows

-- The rows of the first calls come from consecutive blocks of the inner
-- iterator, none skipped and none read twice.
theorem calls_rows_inv (m : Nat) (more : List (Result (Option (Row Datum)))) :
    ∀ (rows : List (Row Datum)) (it last : MViewTableIter Kind),
      it.calls enc (rows.length + m) = some (rows.map (fun row => .ok (some row)) ++ more, last) →
      ∃ blocks rest, it.inner = blocks.flatten.map .ok ++ rest ∧
        RowBlocks it.prefixKey.length it.schema.len blocks ∧ Decoded enc it.schema blocks rows ∧
        { it with inner := rest }.calls enc m = some (more, last)
  | [], it, last, run => ⟨[], it.inner, rfl, by simp [RowBlocks], .nil, by simpa using run⟩
  | row :: rows, it, last, run => by
      rw [List.length_cons, Nat.add_right_comm, List.map_cons, List.cons_append] at run
      obtain ⟨it', step, tail⟩ := calls_cons_inv enc run
      obtain ⟨cells, pk, rest, rfl, starts, nonempty, filled, same, decodes⟩ := next_row_inv enc step
      obtain ⟨blocks, rest', after, rows', decoded, calls⟩ := calls_rows_inv m more rows _ last tail
      dsimp only at after
      refine ⟨cells :: blocks, rest', ?_, rowBlocks_cons.mpr ⟨⟨nonempty, filled, pk, same⟩, rows'⟩,
        .cons decodes decoded, calls⟩
      rw [starts, after, List.flatten_cons, List.map_append, List.append_assoc]

-- Each call either ends the scan or consumes cells, so the scan ends.
theorem scan_ends : ∀ (n : Nat) (it : MViewTableIter Kind), it.inner.length = n →
    (∃ rows, ScanReturns enc it rows) ∨ ∃ rows error, ScanFails enc it rows error := by
  intro n
  induction n using Nat.strong_induction_on with
  | _ n ih =>
  intro it size
  obtain ⟨⟨result, it'⟩, step⟩ := Option.ne_none_iff_exists'.mp (next_ne_none enc it)
  have first : it.calls enc 1 = some ([result], it') := by rw [calls_succ enc step]; rfl
  rcases result with error | _ | row
  · exact .inr ⟨[], error, it', first⟩
  · exact .inl ⟨[], it', first⟩
  · obtain ⟨cells, pk, rest, rfl, starts, nonempty, -⟩ := next_row_inv enc step
    have shorter : rest.length < n := by
      rw [← size, starts, List.length_append, List.length_map]
      exact Nat.lt_add_of_pos_left (List.length_pos.mpr nonempty)
    rcases ih _ shorter { it with inner := rest } rfl with ⟨rows, last, run⟩ | ⟨rows, error, last, run⟩
    · exact .inl ⟨row :: rows, last, by simp [calls_succ enc step, run]⟩
    · exact .inr ⟨row :: rows, error, last, by simp [calls_succ enc step, run]⟩

theorem decoded_results {schema : Schema Kind} {blocks : List (List (Bytes × Bytes))}
    {rows : List (Row Datum)} (decoded : Decoded enc schema blocks rows) :
    blocks.map (fun block => (some ·) <$>
      RowDeserializer.deserialize enc ⟨schema.kinds⟩ (block.flatMap Prod.snd)) =
      rows.map (fun row => .ok (some row)) := by
  induction decoded with
  | nil => rfl
  | cons decodes _ ih => simp [decodes, ih]

theorem decoded_mem {schema : Schema Kind} {blocks : List (List (Bytes × Bytes))}
    {rows : List (Row Datum)} (decoded : Decoded enc schema blocks rows)
    {block : List (Bytes × Bytes)} (mem : block ∈ blocks) :
    ∃ row, RowDeserializer.deserialize enc ⟨schema.kinds⟩ (block.flatMap Prod.snd) = .ok row := by
  induction decoded with
  | nil => cases mem
  | cons decodes _ ih =>
      rcases List.mem_cons.mp mem with rfl | later
      · exact ⟨_, decodes⟩
      · exact ih later

theorem scanReturns_of_grouped {it : MViewTableIter Kind} {entries : List (Bytes × Bytes)}
    {blocks : List (List (Bytes × Bytes))} {rows : List (Row Datum)}
    (starts : it.inner = entries.map .ok)
    (grouped : Grouped it.prefixKey.length it.schema.len entries blocks)
    (decoded : Decoded enc it.schema blocks rows) : ScanReturns enc it rows := by
  have results := decoded_results enc decoded
  have sizes : blocks.length = rows.length := by simpa using congrArg List.length results
  have run := calls_blocks enc 1 [] blocks it grouped.2 (by rw [starts, grouped.1, List.append_nil])
  have ends : ({ it with inner := [] } : MViewTableIter Kind).next enc =
      some (.ok none, { it with inner := [] }) := next_nil enc rfl
  rw [sizes, results] at run
  exact ⟨{ it with inner := [] }, by simpa [MViewTableIter.calls, ends] using run⟩

theorem grouped_of_scanReturns {it : MViewTableIter Kind} {entries : List (Bytes × Bytes)}
    {rows : List (Row Datum)} (starts : it.inner = entries.map .ok)
    (returns : ScanReturns enc it rows) :
    ∃ blocks, Grouped it.prefixKey.length it.schema.len entries blocks ∧
      Decoded enc it.schema blocks rows := by
  obtain ⟨last, run⟩ := returns
  obtain ⟨blocks, rest, after, rows', decoded, tail⟩ := calls_rows_inv enc 1 _ rows it last run
  obtain ⟨_, step, -⟩ := calls_cons_inv enc tail
  obtain ⟨empty, -⟩ := next_none_inv enc step
  dsimp only at empty
  subst empty
  rw [List.append_nil, starts] at after
  exact ⟨blocks, ⟨List.map_injective_iff.mpr (fun _ _ same => Except.ok.inj same) after, rows'⟩,
    decoded⟩

theorem exists_decoded (schema : Schema Kind) : ∀ {blocks : List (List (Bytes × Bytes))},
    (∀ block ∈ blocks, ∃ row,
      RowDeserializer.deserialize enc ⟨schema.kinds⟩ (block.flatMap Prod.snd) = .ok row) →
    ∃ rows, Decoded enc schema blocks rows
  | [], _ => ⟨[], .nil⟩
  | block :: blocks, decodes => by
      obtain ⟨row, first⟩ := decodes block (List.mem_cons_self _ _)
      obtain ⟨rows, rest⟩ := exists_decoded schema fun b mem => decodes b (List.mem_cons_of_mem _ mem)
      exact ⟨row :: rows, .cons first rest⟩

theorem scanReturns_first {it : MViewTableIter Kind} {rows : List (Row Datum)}
    (returns : ScanReturns enc it rows) : ∃ result it', it.next enc = some (.ok result, it') := by
  obtain ⟨last, run⟩ := returns
  cases rows with
  | nil =>
      obtain ⟨it', step, -⟩ := calls_cons_inv enc run
      exact ⟨none, it', step⟩
  | cons row rows =>
      obtain ⟨it', step, -⟩ := calls_cons_inv enc run
      exact ⟨some row, it', step⟩

-- A pk whose cells are fewer than the schema's columns cannot lie in any block.
theorem scan_fails_of_short_pk {it : MViewTableIter Kind} {entries : List (Bytes × Bytes)}
    (starts : it.inner = entries.map .ok) {pk : Bytes}
    (present : ∃ entry ∈ entries, pkSegment it.prefixKey.length entry.1 = pk)
    (short : (entries.filter fun entry => pkSegment it.prefixKey.length entry.1 = pk).length <
      it.schema.len) :
    ∃ rows error, ScanFails enc it rows error := by
  refine (scan_ends enc _ it rfl).resolve_left fun ⟨rows, returns⟩ => ?_
  obtain ⟨blocks, ⟨rfl, rowBlocks⟩, -⟩ := grouped_of_scanReturns enc starts returns
  obtain ⟨entry, mem, segment⟩ := present
  obtain ⟨block, inBlocks, inBlock⟩ := List.mem_flatten.mp mem
  obtain ⟨-, filled, pk', same⟩ := rowBlocks block inBlocks
  have samePk : ∀ cell ∈ block, pkSegment it.prefixKey.length cell.1 = pk := fun cell here =>
    (same cell here).2.trans ((same entry inBlock).2.symm.trans segment)
  have kept : block.filter (fun cell => pkSegment it.prefixKey.length cell.1 = pk) = block :=
    List.filter_eq_self.mpr fun cell here => by simpa using samePk cell here
  have atMost := ((List.sublist_flatten_of_mem inBlocks).filter
    fun cell => decide (pkSegment it.prefixKey.length cell.1 = pk)).length_le
  rw [kept, filled] at atMost
  omega

/-- The scan of an arbitrary inner iterator: no call panics; a returned row
decodes the next block of cells, all of one pk, and the rows of successive
calls read successive blocks; the scan ends in `Ok(None)` with no error
exactly when the keys are long, the pk runs have lengths that are multiples of
the schema length and every block decodes; a pk with too few cells makes it
fail. -/
theorem scan_detects_corruption (schema : Schema Kind) (pre : Bytes) (pkColumns : List Nat)
    (entries : List (Bytes × Bytes)) :
    (∀ it : MViewTableIter Kind, it.next enc ≠ none) ∧
    (∀ (it it' : MViewTableIter Kind) (row : Row Datum), it.next enc = some (.ok (some row), it') →
      ∃ cells pk, it.inner = cells.map .ok ++ it'.inner ∧ cells.length = it.schema.len ∧
        SamePk it.prefixKey.length pk cells ∧
        RowDeserializer.deserialize enc ⟨it.schema.kinds⟩ (cells.flatMap Prod.snd) = .ok row) ∧
    (∀ (rows : List (Row Datum)) (last : MViewTableIter Kind),
      (MViewTableIter.new (entries.map .ok) pre schema pkColumns).calls enc rows.length =
        some (rows.map (fun row => .ok (some row)), last) →
      ∃ blocks remaining, entries = blocks.flatten ++ remaining ∧ last.inner = remaining.map .ok ∧
        RowBlocks pre.length schema.len blocks ∧ Decoded enc schema blocks rows) ∧
    ((∃ rows, ScanReturns enc (MViewTableIter.new (entries.map .ok) pre schema pkColumns) rows) ↔
      (∀ entry ∈ entries, LongKey pre.length entry.1) ∧
      (∀ r ∈ runs (segments pre.length entries), schema.len ∣ r.2) ∧
      ∀ blocks, Grouped pre.length schema.len entries blocks → ∀ block ∈ blocks, ∃ row,
        RowDeserializer.deserialize enc ⟨schema.kinds⟩ (block.flatMap Prod.snd) = .ok row) ∧
    (∀ pk, (∃ entry ∈ entries, pkSegment pre.length entry.1 = pk) →
      (entries.filter fun entry => pkSegment pre.length entry.1 = pk).length < schema.len →
      ∃ rows error, ScanFails enc (MViewTableIter.new (entries.map .ok) pre schema pkColumns) rows error) := by
  refine ⟨next_ne_none enc, fun it it' row step => ?_, fun rows last run => ?_, ⟨fun returns => ?_,
    fun ⟨long, multiple, decodes⟩ => ?_⟩, fun pk present short =>
      scan_fails_of_short_pk enc rfl present short⟩
  · obtain ⟨cells, pk, rest, rfl, starts, -, filled, same, decodes⟩ := next_row_inv enc step
    exact ⟨cells, pk, starts, filled, same, decodes⟩
  · obtain ⟨blocks, rest, after, rowBlocks, decoded, tail⟩ :=
      calls_rows_inv enc 0 [] rows _ last (by simpa using run)
    simp only [MViewTableIter.calls, Option.some.injEq, Prod.mk.injEq, true_and] at tail
    simp only [MViewTableIter.new] at after
    obtain ⟨first, second, split, firstOk, secondOk⟩ := List.map_eq_append_iff.mp after
    have sameFirst : first = blocks.flatten :=
      List.map_injective_iff.mpr (fun _ _ same => Except.ok.inj same) firstOk
    refine ⟨blocks, second, sameFirst ▸ split, ?_, rowBlocks, decoded⟩
    rw [← tail, secondOk]
  · obtain ⟨rows, returns⟩ := returns
    obtain ⟨blocks, grouped, decoded⟩ := grouped_of_scanReturns enc rfl returns
    obtain ⟨long, multiple⟩ := runs_of_grouped grouped
    refine ⟨long, multiple, fun other grouped' block mem => ?_⟩
    rw [← grouped_unique grouped grouped'] at mem
    exact decoded_mem enc decoded mem
  · obtain ⟨blocks, grouped⟩ := (grouped_iff_runs entries).mpr ⟨long, multiple⟩
    obtain ⟨rows, decoded⟩ := exists_decoded enc schema (decodes blocks grouped)
    exact ⟨rows, scanReturns_of_grouped enc rfl grouped decoded⟩

end Scan

-- A one-byte cell codec: each datum is one byte, and an empty buffer does not
-- decode, as memcomparable reports an unexpected end of input.
def byteEncoding : Encoding Unit UInt8 where
  deserializeDatumFrom _ bytes := match bytes with
    | byte :: rest => .ok (byte, rest)
    | [] => .error (.internalError "unexpected end of buffer")
  serializePk row _ := .ok row

def byteSchema : Schema Unit := ⟨[⟨()⟩]⟩

-- One cell with a long key and an empty value: the keys and runs are fine,
-- yet the row does not decode, and the scan returns that error.
theorem empty_cell_breaks_scan_iff :
    ¬ ((∃ rows, ScanReturns byteEncoding
        (MViewTableIter.new [.ok ([0, 0, 0, 0], [])] [] byteSchema []) rows) ↔
      (∀ entry ∈ [(([0, 0, 0, 0] : Bytes), ([] : Bytes))], LongKey 0 entry.1) ∧
      ∀ r ∈ runs (segments 0 [(([0, 0, 0, 0] : Bytes), ([] : Bytes))]), byteSchema.len ∣ r.2) := by
  intro equivalence
  obtain ⟨rows, returns⟩ := equivalence.mpr (by decide)
  obtain ⟨result, it', step⟩ := scanReturns_first byteEncoding returns
  have fails : (MViewTableIter.new [.ok ([0, 0, 0, 0], [])] [] byteSchema []).next byteEncoding =
      some (.error (.internalError "unexpected end of buffer"),
        MViewTableIter.new [] [] byteSchema []) := rfl
  rw [fails] at step
  simp at step

end RisingWave.ScanSound
