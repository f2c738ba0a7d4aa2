import Mathlib.Data.List.Lex

/-!
Byte strings and the cell-key layout of `mview/table.rs`. A cell key is the
keyspace prefix, then `serialize_pk` of the primary key, then
`serialize_cell_idx` of the column index: four big-endian bytes. The state
store orders keys lexicographically by unsigned byte, a proper prefix first.
`next` reads the pk back as `key[prefix.len()..key.len() - 4]`; `curPkBuf`
keeps the two places where that expression panics in Rust, as `slice` returns
`none` where `&key[lo..hi]` panics. `LongKey` is the guard of `next`,
`key.len() >= prefix.len() + 4`, under which the pk segment is `pkSegment`.
-/

namespace RisingWave.Keys

abbrev Bytes := List UInt8

def KeyLt (a b : Bytes) : Prop := List.Lex (· < ·) a b

instance keyLtDecidable : DecidableRel KeyLt := fun a b =>
  inferInstanceAs (Decidable (List.Lex (· < ·) a b))

instance byteOrder : IsStrictTotalOrder UInt8 (· < ·) where
  trichotomous a b := by
    rcases Nat.lt_trichotomy a.toNat b.toNat with lt | same | gt
    · exact .inl lt
    · exact .inr (.inl (UInt8.toNat.inj same))
    · exact .inr (.inr gt)
  irrefl a := Nat.lt_irrefl a.toNat
  trans _ _ _ := Nat.lt_trans

theorem keyLt_irrefl (a : Bytes) : ¬ KeyLt a a := irrefl_of (List.Lex (· < ·)) a

theorem keyLt_asymm {a b : Bytes} (lt : KeyLt a b) : ¬ KeyLt b a :=
  asymm_of (List.Lex (· < ·)) lt

theorem keyLt_trans {a b c : Bytes} (first : KeyLt a b) (second : KeyLt b c) : KeyLt a c :=
  trans_of (List.Lex (· < ·)) first second

theorem keyLt_trichotomous (a b : Bytes) : KeyLt a b ∨ a = b ∨ KeyLt b a :=
  trichotomous_of (List.Lex (· < ·)) a b

theorem keyLt_append_left (p : Bytes) {s t : Bytes} (lt : KeyLt s t) : KeyLt (p ++ s) (p ++ t) :=
  List.Lex.append_left _ lt p

-- Two pk encodings neither of which extends the other differ inside both,
-- so whatever follows them cannot change their order.
theorem keyLt_append_of_apart {p q : Bytes} (lt : KeyLt p q) (apart : ¬ p <+: q)
    (s t : Bytes) : KeyLt (p ++ s) (q ++ t) := by
  induction lt with
  | nil => exact absurd (List.nil_prefix) apart
  | @cons a _ _ _ ih =>
      exact .cons (ih fun pre => apart ((List.prefix_cons_inj a).mpr pre))
  | rel lt => exact .rel lt

/-- `serialize_cell_idx`: the column index as a memcomparable `u32`, four
big-endian bytes, each the next base-256 digit. -/
def be32 (idx : Nat) : Bytes :=
  [UInt8.ofNat (idx / 256 / 256 / 256), UInt8.ofNat (idx / 256 / 256), UInt8.ofNat (idx / 256),
    UInt8.ofNat idx]

@[simp] theorem be32_length (idx : Nat) : (be32 idx).length = 4 := rfl

theorem byte_lt {m n : Nat} : UInt8.ofNat m < UInt8.ofNat n ↔ m % 256 < n % 256 := Iff.rfl

theorem byte_eq {m n : Nat} (same : m % 256 = n % 256) : UInt8.ofNat m = UInt8.ofNat n :=
  UInt8.toNat.inj same

-- For a fixed pk, ascending key order enumerates the columns in index order.
theorem be32_lt_be32 {i j : Nat} (lt : i < j) (bound : j < UInt32.size) :
    KeyLt (be32 i) (be32 j) := by
  have bound : j < 4294967296 := bound
  unfold KeyLt be32
  by_cases d3 : i / 256 / 256 / 256 % 256 < j / 256 / 256 / 256 % 256
  · exact .rel d3
  rw [byte_eq (by omega : i / 256 / 256 / 256 % 256 = j / 256 / 256 / 256 % 256)]
  by_cases d2 : i / 256 / 256 % 256 < j / 256 / 256 % 256
  · exact .cons (.rel d2)
  rw [byte_eq (by omega : i / 256 / 256 % 256 = j / 256 / 256 % 256)]
  by_cases d1 : i / 256 % 256 < j / 256 % 256
  · exact .cons (.cons (.rel d1))
  rw [byte_eq (by omega : i / 256 % 256 = j / 256 % 256)]
  exact .cons (.cons (.cons (.rel (byte_lt.mpr (by omega)))))

theorem be32_injective {i j : Nat} (same : be32 i = be32 j) (hi : i < UInt32.size)
    (hj : j < UInt32.size) : i = j := by
  rcases Nat.lt_trichotomy i j with lt | eq | gt
  · exact absurd (same ▸ be32_lt_be32 lt hj) (keyLt_irrefl _)
  · exact eq
  · exact absurd (same ▸ be32_lt_be32 gt hi) (keyLt_irrefl _)

def slice (key : Bytes) (lo hi : Nat) : Option Bytes :=
  if lo ≤ hi ∧ hi ≤ key.length then some ((key.take hi).drop lo) else none

/-- `key[prefix.len()..key.len() - 4]` as `next` computes it: `none` on the
`usize` underflow of `key.len() - 4` or on an out-of-range slice. -/
def curPkBuf (prefixLen : Nat) (key : Bytes) : Option Bytes :=
  if 4 ≤ key.length then slice key prefixLen (key.length - 4) else none

def pkSegment (prefixLen : Nat) (key : Bytes) : Bytes := (key.take (key.length - 4)).drop prefixLen

def LongKey (prefixLen : Nat) (key : Bytes) : Prop := prefixLen + 4 ≤ key.length

instance longKeyDecidable (prefixLen : Nat) (key : Bytes) : Decidable (LongKey prefixLen key) :=
  inferInstanceAs (Decidable (_ ≤ _))

-- The guard is exactly what keeps the slice in bounds.
theorem curPkBuf_of_long {prefixLen : Nat} {key : Bytes} (long : LongKey prefixLen key) :
    curPkBuf prefixLen key = some (pkSegment prefixLen key) := by
  unfold LongKey at long
  simp only [curPkBuf, slice, pkSegment, if_pos (by omega : 4 ≤ key.length),
    if_pos (⟨by omega, by omega⟩ : prefixLen ≤ key.length - 4 ∧ key.length - 4 ≤ key.length)]

theorem long_cellKey (pre p : Bytes) (idx : Nat) : LongKey pre.length (pre ++ p ++ be32 idx) := by
  simp only [LongKey, List.length_append, be32_length]
  omega

theorem pkSegment_cellKey (pre p : Bytes) (idx : Nat) :
    pkSegment pre.length (pre ++ p ++ be32 idx) = p := by
  have drop4 : (pre ++ p ++ be32 idx).length - 4 = (pre ++ p).length := by simp; omega
  rw [pkSegment, drop4, List.take_left, List.drop_left]

end RisingWave.Keys
