import RisingWave.Keys

/-!
The types `table.rs` exchanges with `risingwave_common`, and the encoders it
takes from its parent module. Only `table.rs` is in the repository: the cell
codec and `serialize_pk` are parameters (`Encoding`); `serialize_cell_idx` (the
column index as a fixed-width big-endian `u32`, the spec's "encode_cell_suffix")
and `RowDeserializer::deserialize` (the buffer decoded column by column per
schema field type) are modelled from the spec. A codec reads from a buffer and
hands back what it did not consume, as `memcomparable::Deserializer` does.
`ErrorCode` keeps the one variant `table.rs` raises, through which the codec
and the store report their errors too; a schema field keeps only its
`data_type_kind()`, all `table.rs` reads of it.
-/

namespace RisingWave.Common

open Keys

inductive ErrorCode
  | internalError (message : String)
  deriving DecidableEq, Repr

abbrev Result (α : Type) := Except ErrorCode α

abbrev Row (Datum : Type) := List Datum

inductive OrderType
  | ascending
  | descending
  deriving DecidableEq, Repr

section Except
variable {ε α β : Type}

@[simp] theorem ok_bind (a : α) (f : α → Except ε β) : (Except.ok a >>= f) = f a := rfl

@[simp] theorem error_bind (e : ε) (f : α → Except ε β) : (Except.error e >>= f) = .error e := rfl

@[simp] theorem map_ok (f : α → β) (a : α) : (f <$> Except.ok a : Except ε β) = .ok (f a) := rfl

@[simp] theorem map_error (f : α → β) (e : ε) : (f <$> Except.error e : Except ε β) = .error e :=
  rfl

-- A call that can fail or panic, its result mapped, succeeds exactly when the call does.
theorem map_map_eq_ok {f : α → β} {x : Option (Except ε α)} {b : β} :
    x.map (Except.map f) = some (.ok b) ↔ ∃ a, x = some (.ok a) ∧ f a = b := by
  rcases x with _ | _ | a <;> simp [Except.map]

end Except

variable {Kind Datum : Type}

structure Field (Kind : Type) where
  dataType : Kind

structure Schema (Kind : Type) where
  fields : List (Field Kind)

def Schema.len (schema : Schema Kind) : Nat := schema.fields.length

def Schema.kinds (schema : Schema Kind) : List Kind := schema.fields.map Field.dataType

@[simp] theorem Schema.length_kinds (schema : Schema Kind) : schema.kinds.length = schema.len :=
  List.length_map _ _

structure OrderedRowsSerializer where
  orderPairs : List (OrderType × Nat)

/-- The encoders `table.rs` imports without defining them. -/
structure Encoding (Kind Datum : Type) where
  deserializeDatumFrom : Kind → Bytes → Result (Datum × Bytes)
  serializePk : Row Datum → OrderedRowsSerializer → Result Bytes

def serializeCellIdx (idx : UInt32) : Result Bytes := .ok (be32 idx.toNat)

structure RowDeserializer (Kind : Type) where
  schema : List Kind

def deserializeColumns (enc : Encoding Kind Datum) : List Kind → Bytes → Result (Row Datum)
  | [], _ => .ok []
  | kind :: rest, bytes => do
      let (datum, left) ← enc.deserializeDatumFrom kind bytes
      let tail ← deserializeColumns enc rest left
      pure (datum :: tail)

def RowDeserializer.deserialize (enc : Encoding Kind Datum) (deserializer : RowDeserializer Kind)
    (bytes : Bytes) : Result (Row Datum) :=
  deserializeColumns enc deserializer.schema bytes

-- Cells that each decode on their own, whatever follows them, decode as a row.
theorem deserializeColumns_cells (enc : Encoding Kind Datum) (cell : Nat → Bytes)
    (datum : Nat → Datum) (rest : Bytes) :
    ∀ (kinds : List Kind) (start : Nat),
      (∀ j kind, kinds[j]? = some kind → ∀ tail,
        enc.deserializeDatumFrom kind (cell (start + j) ++ tail) = .ok (datum (start + j), tail)) →
      deserializeColumns enc kinds ((List.range' start kinds.length).flatMap cell ++ rest) =
        .ok ((List.range' start kinds.length).map datum)
  | [], _, _ => rfl
  | kind :: kinds, start, decodes => by
      have head := decodes 0 kind (by simp) ((List.range' (start + 1) kinds.length).flatMap cell ++ rest)
      have tail := deserializeColumns_cells enc cell datum rest kinds (start + 1) fun j kind found =>
        by simpa [Nat.add_assoc, Nat.add_comm 1 j] using decodes (j + 1) kind (by simpa using found)
      simp only [Nat.add_zero] at head
      simp [List.range'_succ, deserializeColumns, head, tail]

-- A row whose cells each decode with their column's type, whatever follows
-- them, deserializes to its datums.
theorem deserialize_cells (enc : Encoding Kind Datum) (schema : Schema Kind) (cell : Nat → Bytes)
    (datum : Nat → Datum)
    (decodes : ∀ j < schema.len, ∀ kind, schema.kinds[j]? = some kind → ∀ rest,
      enc.deserializeDatumFrom kind (cell j ++ rest) = .ok (datum j, rest)) :
    RowDeserializer.deserialize enc ⟨schema.kinds⟩ ((List.range schema.len).flatMap cell) =
      .ok ((List.range schema.len).map datum) := by
  have row := deserializeColumns_cells enc cell datum [] schema.kinds 0 fun j kind typed => by
    have lt : j < schema.len := by simpa using (List.getElem?_eq_some_iff.mp typed).1
    simpa using decodes j lt kind typed
  rwa [Schema.length_kinds, ← List.range_eq_range', List.append_nil] at row

-- Datums that each decode from their encoding, whatever follows it, decode
-- from the encodings laid end to end.
theorem deserializeColumns_row (enc : Encoding Kind Datum) (serialize : Datum → Bytes) :
    ∀ (kinds : List Kind) (row : Row Datum), kinds.length = row.length →
      (∀ (j : Nat) kind datum, kinds[j]? = some kind → row[j]? = some datum → ∀ rest,
        enc.deserializeDatumFrom kind (serialize datum ++ rest) = .ok (datum, rest)) →
      deserializeColumns enc kinds (row.flatMap serialize) = .ok row
  | [], [], _, _ => rfl
  | kind :: kinds, datum :: row, same, decodes => by
    have head := decodes 0 kind datum (by simp) (by simp) (row.flatMap serialize)
    have tail := deserializeColumns_row enc serialize kinds row (Nat.succ.inj same)
      fun j kind datum typed found rest =>
        decodes (j + 1) kind datum (by simpa using typed) (by simpa using found) rest
    simp [deserializeColumns, head, tail]
  | [], _ :: _, same, _ => absurd same (by simp)
  | _ :: _, [], same, _ => absurd same (by simp)

end RisingWave.Common
