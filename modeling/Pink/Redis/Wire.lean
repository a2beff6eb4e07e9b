import Mathlib.Data.Nat.Digits.Defs
import Mathlib.Data.Nat.Digits.Lemmas
import Mathlib.Tactic

/-! # Bytes on the wire

Byte strings, the limits of `pink_define.h`, and decimal numbers: `decimal` is the rendering of
`std::to_string`, and `slash::string2l`, which is not part of this repository, is a parameter of
the parser that is only known to accept exactly the canonical decimal renderings of `long` values
(`String2lSpec`). `string2l` is a function with this property (`string2l_spec`). -/

namespace Pink.Redis.Wire

abbrev Bytes := List UInt8

/-- `RedisCmdArgsType`: the arguments of one command. -/
abbrev Argv := List Bytes

def ch (c : Char) : UInt8 := c.toNat.toUInt8

def bytes (s : String) : Bytes := s.toList.map ch

abbrev CR : UInt8 := 13
abbrev LF : UInt8 := 10

def REDIS_INLINE_MAXLEN : ℤ := 1024 * 64
def REDIS_IOBUF_LEN : ℤ := 16384

/-! ### Machine integers -/

def LONG_MAX : ℤ := 2 ^ 63 - 1
def LONG_MIN : ℤ := -2 ^ 63

/-- A value fits in `long`. -/
def InLong (v : ℤ) : Prop := LONG_MIN ≤ v ∧ v ≤ LONG_MAX

instance (v : ℤ) : Decidable (InLong v) := by unfold InLong; infer_instance

/-- Conversion of a `size_t` to `int`. -/
@[irreducible] def toInt32 (n : ℕ) : ℤ := Int.bmod n (2 ^ 32)

/-- Conversion of a signed value to `size_t`. -/
@[irreducible] def sizeT (v : ℤ) : ℕ := (v % 2 ^ 64).toNat

/-- Difference of two `size_t`. -/
def subSize (a b : ℕ) : ℕ := if b ≤ a then a - b else 2 ^ 64 - (b - a)

theorem subSize_of_le {a b : ℕ} (h : b ≤ a) : subSize a b = a - b := if_pos h

theorem toInt32_of_lt {n : ℕ} (h : n < 2 ^ 31) : toInt32 n = n := by
  unfold toInt32
  exact Int.bmod_eq_of_le (by omega) (by omega)

theorem sizeT_of_nonneg {v : ℤ} (h0 : 0 ≤ v) (h1 : v < 2 ^ 64) : sizeT v = v.toNat := by
  unfold sizeT; rw [Int.emod_eq_of_lt h0 h1]

/-! ### Decimal renderings -/

/-- The byte of a decimal digit. -/
def digit (d : ℕ) : UInt8 := UInt8.ofNat (48 + d)

/-- `std::to_string` of an unsigned value. -/
def decimalNat (n : ℕ) : Bytes :=
  if n = 0 then [digit 0] else (Nat.digits 10 n).reverse.map digit

/-- `std::to_string` of a signed value. -/
def decimal (v : ℤ) : Bytes :=
  if v < 0 then ch '-' :: decimalNat v.natAbs else decimalNat v.natAbs

theorem decimal_natCast (n : ℕ) : decimal n = decimalNat n := by
  unfold decimal; rw [if_neg (by omega)]; rfl

theorem mem_decimalNat {n : ℕ} {b : UInt8} (h : b ∈ decimalNat n) : ∃ d < 10, b = digit d := by
  unfold decimalNat at h
  split_ifs at h with h0
  · exact ⟨0, by norm_num, by simpa using h⟩
  · simp only [List.mem_map, List.mem_reverse] at h
    obtain ⟨d, hd, rfl⟩ := h
    exact ⟨d, Nat.digits_lt_base (by norm_num) hd, rfl⟩

theorem digit_ne_LF {d : ℕ} (h : d < 10) : digit d ≠ LF := by
  interval_cases d <;> decide

theorem digit_ne_minus {d : ℕ} (h : d < 10) : digit d ≠ ch '-' := by
  interval_cases d <;> decide

theorem digit_toNat {d : ℕ} (h : d < 10) : (digit d).toNat - 48 = d := by
  interval_cases d <;> decide

theorem LF_not_mem_decimalNat (n : ℕ) : LF ∉ decimalNat n := fun h => by
  obtain ⟨d, hd, he⟩ := mem_decimalNat h
  exact digit_ne_LF hd he.symm

theorem decimalNat_ne_nil (n : ℕ) : decimalNat n ≠ [] := by
  unfold decimalNat
  split_ifs with h
  · simp
  · simpa using Nat.digits_ne_nil_iff_ne_zero.mpr h

/-! ### `slash::string2l` -/

/-- What the parser relies on of `slash::string2l(s, slen, &value)`, given the bytes readable from
`s` on: it accepts exactly the canonical renderings of `long` values and returns their value. -/
structure String2lSpec (string2l : Bytes → ℕ → Option ℤ) : Prop where
  accepts : ∀ s slen v, string2l s slen = some v ↔
    slen ≤ s.length ∧ s.take slen = decimal v ∧ InLong v

/-- The value of a string of digits. -/
def natValue (s : Bytes) : ℕ := Nat.ofDigits 10 (s.reverse.map fun b => b.toNat - 48)

def longValue (s : Bytes) : ℤ :=
  match s with
  | [] => 0
  | b :: t => if b = ch '-' then -(natValue t : ℤ) else natValue (b :: t)

/-- A function that behaves as `slash::string2l` is assumed to. -/
def string2l (s : Bytes) (slen : ℕ) : Option ℤ :=
  let v := longValue (s.take slen)
  if slen ≤ s.length ∧ s.take slen = decimal v ∧ InLong v then some v else none

theorem natValue_decimalNat (n : ℕ) : natValue (decimalNat n) = n := by
  unfold natValue decimalNat
  split_ifs with h
  · subst h; decide
  · simp only [List.map_reverse, List.reverse_reverse, List.map_map]
    have hd : ∀ d ∈ Nat.digits 10 n, ((fun b : UInt8 => b.toNat - 48) ∘ digit) d = id d :=
      fun d hd => digit_toNat (Nat.digits_lt_base (by norm_num) hd)
    rw [List.map_congr_left hd, List.map_id, Nat.ofDigits_digits]

theorem longValue_decimal (v : ℤ) : longValue (decimal v) = v := by
  unfold decimal
  split_ifs with h
  · simp only [longValue, if_true, natValue_decimalNat]; omega
  · have hv := natValue_decimalNat v.natAbs
    rcases hd : decimalNat v.natAbs with _ | ⟨b, t⟩
    · exact absurd hd (decimalNat_ne_nil _)
    · obtain ⟨d, hlt, rfl⟩ := mem_decimalNat (n := v.natAbs) (b := b) (by rw [hd]; simp)
      rw [hd] at hv
      simp only [longValue, if_neg (digit_ne_minus hlt), hv]; omega

theorem string2l_spec : String2lSpec string2l where
  accepts s slen v := by
    unfold string2l
    constructor
    · intro h
      dsimp only at h
      split_ifs at h with hc
      obtain rfl := Option.some.inj h
      exact hc
    · rintro ⟨h1, h2, h3⟩
      have hv : longValue (s.take slen) = v := by rw [h2, longValue_decimal]
      simp only [hv]
      rw [if_pos ⟨h1, h2, h3⟩]

section Spec
variable {string2l : Bytes → ℕ → Option ℤ} (hs : String2lSpec string2l)
include hs

/-- Only the first `slen` bytes matter. -/
theorem String2lSpec.append (s t : Bytes) {slen : ℕ} (h : slen ≤ s.length) :
    string2l (s ++ t) slen = string2l s slen := by
  refine Option.ext fun v => ?_
  rw [hs.accepts, hs.accepts, List.take_append_of_le_length h]
  simp only [List.length_append, and_congr_left_iff]
  intro _; omega

theorem String2lSpec.of_long {s : Bytes} {slen : ℕ} (h : s.length < slen) :
    string2l s slen = none := by
  refine Option.eq_none_iff_forall_ne_some.mpr fun v hv => ?_
  have := ((hs.accepts s slen v).mp hv).1; omega

theorem String2lSpec.decimal {v : ℤ} (hv : InLong v) (t : Bytes) :
    string2l (decimal v ++ t) (decimal v).length = some v := by
  rw [hs.accepts]; simp [hv]

end Spec

end Pink.Redis.Wire
