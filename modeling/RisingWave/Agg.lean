import Mathlib.Data.List.Sort
import Mathlib.Data.Rat.Floor
import RisingWave.Common

/-!
The `percentile_disc` aggregator, a consumer of the rows the table layer
produces. It buffers the non-null first-column datums of the rows fed to it,
in input order, and `get_output` reads the one at index `ceil(f * n) - 1`.
`ChunkRow` and `StreamChunk` stand for `risingwave_common`'s `StreamChunk`,
which is not under `src/`: each row with its visibility and the datum of its
first column, the only column the aggregator reads; `rows` yields the visible
rows and `rows_in` those whose position lies in the range. The `f64`
arithmetic is modelled as exact rational arithmetic, and
`f64::ceil(rn) as usize` as `⌈rn⌉₊`, which saturates negative values to `0` as
the cast does. The cast's saturation at `usize::MAX` is left out: it only
changes indices that no `Vec` reaches.
-/

namespace RisingWave.Agg

open Common

variable {Kind Scalar : Type}

structure ChunkRow (Scalar : Type) where
  visible : Bool
  datum : Option Scalar
  deriving DecidableEq, Repr

structure StreamChunk (Scalar : Type) where
  entries : List (ChunkRow Scalar)
  deriving DecidableEq, Repr

structure Range where
  start : Nat
  stop : Nat
  deriving DecidableEq, Repr

def StreamChunk.rows (input : StreamChunk Scalar) : List (ChunkRow Scalar) :=
  input.entries.filter (·.visible)

def StreamChunk.rowsIn (input : StreamChunk Scalar) (range : Range) : List (ChunkRow Scalar) :=
  ((input.entries.take range.stop).drop range.start).filter (·.visible)

structure PercentileDisc (Kind Scalar : Type) where
  fractions : Option ℚ
  returnType : Kind
  data : List Scalar

namespace PercentileDisc

def new (fractions : Option ℚ) (returnType : Kind) : PercentileDisc Kind Scalar :=
  { fractions, returnType, data := [] }

def addDatum (agg : PercentileDisc Kind Scalar) (datumRef : Option Scalar) :
    PercentileDisc Kind Scalar :=
  match datumRef with
  | some datum => { agg with data := agg.data ++ [datum] }
  | none => agg

def update (agg : PercentileDisc Kind Scalar) (input : StreamChunk Scalar) :
    Result (PercentileDisc Kind Scalar) :=
  .ok (input.rows.foldl (fun agg row => agg.addDatum row.datum) agg)

def updateRange (agg : PercentileDisc Kind Scalar) (input : StreamChunk Scalar) (range : Range) :
    Result (PercentileDisc Kind Scalar) :=
  .ok ((input.rowsIn range).foldl (fun agg row => agg.addDatum row.datum) agg)

/-- `get_output`; `none` is a panic: `ceil(rn) as usize - 1` underflowing, or
`self.data[..]` out of bounds. -/
def getOutput (agg : PercentileDisc Kind Scalar) : Option (Result (Option Scalar)) :=
  match agg.fractions, agg.data.isEmpty with
  | some fractions, false =>
    let rn := fractions * agg.data.length
    if fractions = 0 then (fun datum => .ok (some datum)) <$> agg.data[0]?
    else if ⌈rn⌉₊ = 0 then none
    else (fun datum => .ok (some datum)) <$> agg.data[⌈rn⌉₊ - 1]?
  | _, _ => some (.ok none)

def reset (agg : PercentileDisc Kind Scalar) : PercentileDisc Kind Scalar :=
  { agg with data := [] }

def output (agg : PercentileDisc Kind Scalar) :
    Option (Result (Option Scalar) × PercentileDisc Kind Scalar) :=
  agg.getOutput.map fun
    | .ok result => (.ok result, agg.reset)
    | .error error => (.error error, agg)

end PercentileDisc

inductive UpdateCall (Scalar : Type) where
  | update (input : StreamChunk Scalar)
  | updateRange (input : StreamChunk Scalar) (range : Range)

def UpdateCall.rows : UpdateCall Scalar → List (ChunkRow Scalar)
  | .update input => input.rows
  | .updateRange input range => input.rowsIn range

-- The non-null first-column datums of the rows fed by `calls`, in input order.
def fed (calls : List (UpdateCall Scalar)) : List Scalar :=
  calls.flatMap fun call => call.rows.filterMap (·.datum)

namespace PercentileDisc

def apply (agg : PercentileDisc Kind Scalar) : UpdateCall Scalar → Result (PercentileDisc Kind Scalar)
  | .update input => agg.update input
  | .updateRange input range => agg.updateRange input range

def feed (agg : PercentileDisc Kind Scalar) : List (UpdateCall Scalar) → Result (PercentileDisc Kind Scalar)
  | [] => .ok agg
  | call :: calls => do
    let agg ← agg.apply call
    agg.feed calls

section Feed

variable (agg : PercentileDisc Kind Scalar)

theorem foldl_addDatum : ∀ (rows : List (ChunkRow Scalar)) (agg : PercentileDisc Kind Scalar),
    rows.foldl (fun agg row => agg.addDatum row.datum) agg =
      { agg with data := agg.data ++ rows.filterMap (·.datum) }
  | [], agg => by simp
  | row :: rows, agg => by
    rw [List.foldl_cons, foldl_addDatum rows]
    obtain ⟨visible, datum⟩ := row
    cases datum <;> simp [addDatum]

theorem apply_eq (call : UpdateCall Scalar) :
    agg.apply call = .ok { agg with data := agg.data ++ call.rows.filterMap (·.datum) } := by
  cases call <;> simp only [apply, update, updateRange, UpdateCall.rows, foldl_addDatum]

-- A run of update calls only appends what it feeds: the fraction and the return type stay.
theorem feed_eq : ∀ (calls : List (UpdateCall Scalar)) (agg : PercentileDisc Kind Scalar),
    agg.feed calls = .ok { agg with data := agg.data ++ fed calls }
  | [], agg => by simp [feed, fed]
  | call :: calls, agg => by
    rw [feed, apply_eq, ok_bind, feed_eq calls]
    simp [fed]

@[simp] theorem new_data (fractions : Option ℚ) (returnType : Kind) :
    (new fractions returnType : PercentileDisc Kind Scalar).data = [] := rfl

@[simp] theorem reset_data : agg.reset.data = [] := rfl

theorem output_ok {result : Option Scalar} {next : PercentileDisc Kind Scalar}
    (out : agg.output = some (.ok result, next)) : next = agg.reset := by
  obtain ⟨answer, -, same⟩ := Option.map_eq_some'.mp out
  rcases answer with error | answer <;> simp_all

end Feed

section Output

variable {agg : PercentileDisc Kind Scalar}

theorem getOutput_empty (empty : agg.fractions = none ∨ agg.data = []) :
    agg.getOutput = some (.ok none) := by
  unfold getOutput
  rcases empty with none | nil
  · rw [none]
  · rw [nil]; cases agg.fractions <;> rfl

theorem getOutput_zero (fractions : agg.fractions = some 0) (nonempty : agg.data ≠ []) :
    agg.getOutput = (fun datum => .ok (some datum)) <$> agg.data[0]? := by
  simp [getOutput, fractions, List.isEmpty_eq_false.mpr nonempty]

theorem getOutput_pos {f : ℚ} (fractions : agg.fractions = some f) (positive : 0 < f)
    (nonempty : agg.data ≠ []) :
    agg.getOutput = (fun datum => .ok (some datum)) <$> agg.data[⌈f * agg.data.length⌉₊ - 1]? := by
  have pos : 0 < f * agg.data.length :=
    mul_pos positive (Nat.cast_pos.mpr (List.length_pos.mpr nonempty))
  simp [getOutput, fractions, List.isEmpty_eq_false.mpr nonempty, positive.ne', not_le.mpr pos]

-- For `0 < f ≤ 1` and `n ≥ 1`, `ceil(f * n) - 1` is the least index `k` with
-- `f * n ≤ k + 1`, and it is below `n`.
theorem ceil_sub_one_least {f : ℚ} {n : Nat} (positive : 0 < f) (atMostOne : f ≤ 1) (pos : 0 < n) :
    ⌈f * n⌉₊ - 1 < n ∧ f * n ≤ (⌈f * n⌉₊ - 1 : Nat) + 1 ∧
      ∀ i < ⌈f * n⌉₊ - 1, (i : ℚ) + 1 < f * n := by
  have up : 0 < ⌈f * n⌉₊ := Nat.ceil_pos.mpr (mul_pos positive (Nat.cast_pos.mpr pos))
  have down : ⌈f * n⌉₊ ≤ n := Nat.ceil_le.mpr (mul_le_of_le_one_left (Nat.cast_nonneg n) atMostOne)
  refine ⟨by omega, ?_, fun i lt => ?_⟩
  · rw [← Nat.cast_add_one, Nat.sub_add_cancel up]
    exact Nat.le_ceil _
  · exact_mod_cast Nat.lt_ceil.mp (show i + 1 < ⌈f * n⌉₊ by omega)

/-- `get_output` does not check its fraction: on a nonempty buffer, a fraction
below `0` makes `ceil(rn) as usize - 1` underflow, and one above `1` reads past
the end of the buffer. -/
theorem getOutput_outside_unit_panics {f : ℚ} (fractions : agg.fractions = some f)
    (outside : f < 0 ∨ 1 < f) (nonempty : agg.data ≠ []) : agg.getOutput = none := by
  have length : (0 : ℚ) < agg.data.length := Nat.cast_pos.mpr (List.length_pos.mpr nonempty)
  have notEmpty := List.isEmpty_eq_false.mpr nonempty
  rcases outside with below | above
  · have underflow : f * agg.data.length ≤ 0 := (mul_neg_of_neg_of_pos below length).le
    simp [getOutput, fractions, notEmpty, below.ne, underflow]
  · have past : agg.data.length < ⌈f * agg.data.length⌉₊ :=
      Nat.lt_ceil.mpr (lt_mul_of_one_lt_left length above)
    have inBounds : ¬ f * agg.data.length ≤ 0 := not_le.mpr (length.trans (lt_mul_of_one_lt_left length above))
    simp [getOutput, fractions, notEmpty, (zero_lt_one.trans above).ne', inBounds,
      List.getElem?_eq_none (show agg.data.length ≤ ⌈f * agg.data.length⌉₊ - 1 by omega)]

theorem twoFraction_panics :
    (⟨some 2, (), [5]⟩ : PercentileDisc Unit Nat).getOutput = none :=
  getOutput_outside_unit_panics rfl (.inr (by norm_num)) (by simp)

-- On a nonempty buffer with a fraction `f` in `[0, 1]`, `get_output` reads the
-- first datum whose position fraction `(k + 1) / n` reaches `f`.
theorem getOutput_least {f : ℚ} (fractions : agg.fractions = some f) (nonneg : 0 ≤ f)
    (atMostOne : f ≤ 1) (nonempty : agg.data ≠ []) :
    ∃ k < agg.data.length, f * agg.data.length ≤ k + 1 ∧
      (∀ i < k, (i : ℚ) + 1 < f * agg.data.length) ∧ agg.getOutput = some (.ok agg.data[k]?) := by
  have pos := List.length_pos.mpr nonempty
  rcases nonneg.eq_or_lt with zero | positive
  · subst zero
    refine ⟨0, pos, by simp, fun i lt => absurd lt (Nat.not_lt_zero i), ?_⟩
    rw [getOutput_zero fractions nonempty, List.getElem?_eq_getElem pos]
    rfl
  · obtain ⟨lt, least, below⟩ := ceil_sub_one_least positive atMostOne pos
    refine ⟨_, lt, least, below, ?_⟩
    rw [getOutput_pos fractions positive nonempty, List.getElem?_eq_getElem lt]
    rfl

end Output

section Sorted

variable [LinearOrder Scalar]

-- In ascending datums `a ++ v :: b`, the datums at most `v` include `a` and `v`,
-- and those at most a smaller `w` all lie in `a`.
theorem sorted_filter_le_length {a b : List Scalar} {v : Scalar} (sorted : (a ++ v :: b).Sorted (· ≤ ·)) :
    a.length + 1 ≤ ((a ++ v :: b).filter (· ≤ v)).length ∧
      ∀ w < v, ((a ++ v :: b).filter (· ≤ w)).length ≤ a.length := by
  obtain ⟨-, tail, before⟩ := List.pairwise_append.mp sorted
  have below : ∀ x ∈ a, x ≤ v := fun x mem => before x mem v (List.mem_cons_self v b)
  have above : ∀ x ∈ b, v ≤ x := List.rel_of_sorted_cons tail
  refine ⟨?_, fun w lt => ?_⟩
  · rw [List.filter_append, List.filter_eq_self.mpr (by simpa using below)]
    simp
  · have past : b.filter (· ≤ w) = [] :=
      List.filter_eq_nil_iff.mpr fun x mem => by simpa using lt.trans_le (above x mem)
    rw [List.filter_append, List.filter_cons_of_neg (by simpa using lt), past, List.append_nil]
    exact List.length_filter_le _ a

variable {agg : PercentileDisc Kind Scalar}

/-- On datums fed in ascending order, as the aggregate's `ORDER BY` delivers
them, and a fraction `f` in `[0, 1]`, `get_output` returns the first value of
the ordering whose cumulative distribution reaches `f`: a buffered datum `v`
with at least `f * n` datums at most `v`, and no buffered datum below `v` has
as many. -/
theorem getOutput_cume_dist {f : ℚ} (sorted : agg.data.Sorted (· ≤ ·)) (fractions : agg.fractions = some f)
    (nonneg : 0 ≤ f) (atMostOne : f ≤ 1) (nonempty : agg.data ≠ []) :
    ∃ v ∈ agg.data, agg.getOutput = some (.ok (some v)) ∧
      f * agg.data.length ≤ (agg.data.filter (· ≤ v)).length ∧
      ∀ w ∈ agg.data, f * agg.data.length ≤ (agg.data.filter (· ≤ w)).length → v ≤ w := by
  obtain ⟨k, lt, reach, before, out⟩ := getOutput_least fractions nonneg atMostOne nonempty
  have split : agg.data = agg.data.take k ++ agg.data[k] :: agg.data.drop (k + 1) := by
    rw [← List.drop_eq_getElem_cons lt, List.take_append_drop]
  rw [split] at sorted
  have counts := sorted_filter_le_length sorted
  rw [← split, List.length_take_of_le lt.le] at counts
  obtain ⟨atLeast, atMost⟩ := counts
  refine ⟨agg.data[k], List.getElem_mem lt, by rw [out, List.getElem?_eq_getElem lt], ?_,
    fun w mem covers => ?_⟩
  · exact reach.trans (by exact_mod_cast atLeast)
  · by_contra smaller
    have count := atMost w (not_le.mp smaller)
    have pos : 0 < (agg.data.filter (· ≤ w)).length :=
      List.length_pos_of_mem (List.mem_filter.mpr ⟨mem, by simp⟩)
    have short := before _ (show (agg.data.filter (· ≤ w)).length - 1 < k by omega)
    rw [← Nat.cast_add_one, Nat.sub_add_cancel pos] at short
    exact absurd covers (not_le.mpr short)

def sortedBuffer : PercentileDisc Unit Nat := ⟨some (1 / 2), (), [1, 2, 2, 3]⟩

theorem sortedBuffer_cume_dist :
    ∃ v ∈ sortedBuffer.data, sortedBuffer.getOutput = some (.ok (some v)) ∧
      (1 / 2 : ℚ) * sortedBuffer.data.length ≤ (sortedBuffer.data.filter (· ≤ v)).length ∧
      ∀ w ∈ sortedBuffer.data,
        (1 / 2 : ℚ) * sortedBuffer.data.length ≤ (sortedBuffer.data.filter (· ≤ w)).length → v ≤ w :=
  getOutput_cume_dist (by decide) rfl (by norm_num) (by norm_num) (by simp [sortedBuffer])

end Sorted

end PercentileDisc

open PercentileDisc

/-- The discrete percentile: after update calls from the state `new` builds, or
one that `reset` or a successful `output` leaves, with `xs` the datums fed and
`n = |xs|`, `get_output` returns `None` when there is no fraction or no datum,
and for a fraction `f` in `[0, 1]` returns `xs[k]` for the least `k` with
`f * n ≤ k + 1`; in particular it does not panic. -/
theorem getOutput_percentile (start : PercentileDisc Kind Scalar)
    (fresh : (∃ fractions returnType, start = new fractions returnType) ∨
      (∃ agg : PercentileDisc Kind Scalar, start = agg.reset) ∨
      ∃ (agg : PercentileDisc Kind Scalar) (result : Option Scalar), agg.output = some (.ok result, start))
    (calls : List (UpdateCall Scalar)) :
    ∃ agg, start.feed calls = .ok agg ∧
      ((start.fractions = none ∨ fed calls = []) → agg.getOutput = some (.ok none)) ∧
      ∀ f, start.fractions = some f → 0 ≤ f → f ≤ 1 → fed calls ≠ [] →
        ∃ k < (fed calls).length, f * (fed calls).length ≤ k + 1 ∧
          (∀ i < k, (i : ℚ) + 1 < f * (fed calls).length) ∧
          agg.getOutput = some (.ok (fed calls)[k]?) := by
  have empty : start.data = [] := by
    rcases fresh with ⟨fractions, returnType, rfl⟩ | ⟨agg, rfl⟩ | ⟨agg, result, out⟩
    · exact new_data fractions returnType
    · exact reset_data agg
    · exact output_ok agg out ▸ reset_data agg
  refine ⟨_, feed_eq calls start, fun none => getOutput_empty (by simpa [empty] using none),
    fun f fractions nonneg atMostOne nonempty => ?_⟩
  simpa [empty] using @getOutput_least _ _ { start with data := start.data ++ fed calls } f
    fractions nonneg atMostOne (by simpa [empty] using nonempty)

def threeCalls : List (UpdateCall Nat) :=
  [.update ⟨[⟨true, some 1⟩, ⟨false, some 9⟩, ⟨true, none⟩, ⟨true, some 2⟩]⟩,
    .updateRange ⟨[⟨true, some 7⟩, ⟨true, some 3⟩, ⟨true, some 8⟩]⟩ ⟨1, 2⟩]

theorem threeCalls_median :
    ∃ agg, (PercentileDisc.new (some (1 / 2)) () : PercentileDisc Unit Nat).feed threeCalls = .ok agg ∧
      agg.getOutput = some (.ok (some 2)) := by
  obtain ⟨agg, fedOk, -, least⟩ :=
    getOutput_percentile (PercentileDisc.new (some (1 / 2)) () : PercentileDisc Unit Nat)
      (.inl ⟨_, _, rfl⟩) threeCalls
  have xs : fed threeCalls = [1, 2, 3] := rfl
  obtain ⟨k, lt, reach, before, out⟩ := least (1 / 2) rfl (by norm_num) (by norm_num) (by simp [xs])
  rw [xs] at lt reach before out
  rcases k with _ | _ | k
  · norm_num at reach
  · exact ⟨agg, fedOk, out⟩
  · have := before 1 (by omega)
    norm_num at this

/-- The discrete percentile as the aggregate's documentation defines it: the
first value whose position `(k + 1) / n` in the ordering equals or exceeds the
fraction. -/
def discPercentile (fractions : Option ℚ) (xs : List Scalar) : Option Scalar :=
  match fractions with
  | none => none
  | some f =>
    ((List.range xs.length).find? fun (k : Nat) => decide (f * xs.length ≤ (k : ℚ) + 1)).bind
      fun (k : Nat) => xs[k]?

inductive Method (Scalar : Type) where
  | feed (call : UpdateCall Scalar)
  | output
  | reset

/-- What a sequence of calls is for: each `output` returns the discrete
percentile of the datums fed since the last `output` or `reset`. -/
def outputs (fractions : Option ℚ) : List Scalar → List (Method Scalar) → List (Option Scalar)
  | _, [] => []
  | buffer, .feed call :: methods => outputs fractions (buffer ++ call.rows.filterMap (·.datum)) methods
  | buffer, .output :: methods => discPercentile fractions buffer :: outputs fractions [] methods
  | _, .reset :: methods => outputs fractions [] methods

namespace PercentileDisc

/-- The calls made in order by a caller that stops at the first error; the list
holds what each `output` returned, and `none` is a panic. -/
def run (agg : PercentileDisc Kind Scalar) : List (Method Scalar) → Option (Result (List (Option Scalar)))
  | [] => some (.ok [])
  | .feed call :: methods =>
    match agg.apply call with
    | .ok agg => agg.run methods
    | .error error => some (.error error)
  | .output :: methods =>
    match agg.output with
    | some (.ok result, agg) => (agg.run methods).map (Except.map (result :: ·))
    | some (.error error, _) => some (.error error)
    | none => none
  | .reset :: methods => agg.reset.run methods

section Session

variable {agg : PercentileDisc Kind Scalar}

theorem getOutput_eq_discPercentile (valid : ∀ f, agg.fractions = some f → 0 ≤ f ∧ f ≤ 1) :
    agg.getOutput = some (.ok (discPercentile agg.fractions agg.data)) := by
  rcases fractions : agg.fractions with _ | f
  · rw [getOutput_empty (.inl fractions)]
    rfl
  by_cases nonempty : agg.data = []
  · rw [getOutput_empty (.inr nonempty), nonempty]
    rfl
  obtain ⟨k, lt, reach, before, out⟩ :=
    getOutput_least fractions (valid f fractions).1 (valid f fractions).2 nonempty
  have found : ((List.range agg.data.length).find? fun (k : Nat) =>
      decide (f * agg.data.length ≤ (k : ℚ) + 1)) = some k :=
    List.find?_range_eq_some.mpr
      ⟨decide_eq_true reach, List.mem_range.mpr lt, fun j earlier => by simpa using before j earlier⟩
  rw [out, discPercentile, found]
  rfl

theorem output_eq (valid : ∀ f, agg.fractions = some f → 0 ≤ f ∧ f ≤ 1) :
    agg.output = some (.ok (discPercentile agg.fractions agg.data), agg.reset) := by
  simp only [output, getOutput_eq_discPercentile valid, Option.map_some']

/-- For a fraction in `[0, 1]` or none, every sequence of `update`,
`update_range`, `output` and `reset` calls runs without an error or a panic,
and each `output` returns the discrete percentile of the datums fed since the
previous `output` or `reset`, or since construction. -/
theorem run_refines : ∀ (methods : List (Method Scalar)) (agg : PercentileDisc Kind Scalar),
    (∀ f, agg.fractions = some f → 0 ≤ f ∧ f ≤ 1) →
      agg.run methods = some (.ok (outputs agg.fractions agg.data methods))
  | [], _, _ => rfl
  | .feed call :: methods, agg, valid => by
    simp only [run, apply_eq]
    exact run_refines methods { agg with data := agg.data ++ call.rows.filterMap (·.datum) } valid
  | .output :: methods, agg, valid => by
    simp only [run, output_eq valid, run_refines methods agg.reset valid]
    rfl
  | .reset :: methods, agg, valid => run_refines methods agg.reset valid

end Session

end PercentileDisc

def session : List (Method Nat) :=
  threeCalls.map .feed ++
    [.output, .output, .feed (.update ⟨[⟨true, some 4⟩]⟩), .reset, .feed (.update ⟨[⟨true, some 6⟩]⟩),
      .output]

theorem session_outputs :
    (PercentileDisc.new (some (1 / 2)) () : PercentileDisc Unit Nat).run session =
      some (.ok [some 2, none, some 6]) :=
  (run_refines session _ fun f same => by
    obtain rfl := Option.some.inj same
    norm_num).trans (by
      norm_num [session, threeCalls, outputs, discPercentile, UpdateCall.rows, StreamChunk.rows,
        StreamChunk.rowsIn, PercentileDisc.new, List.filterMap_cons, List.range_succ, List.find?])

end RisingWave.Agg
