import Mathlib.Data.Nat.Init
import Mathlib.Data.List.DropRight
import Mathlib.Tactic.Ring
import Mathlib.Tactic.IntervalCases

/-!
# Positional numerals

The digits of a number as bytes, and the number that such bytes stand for, in a base up to
sixteen:

* `bytes base n`: the digits of `n`, the most significant first, as few as there are;
* `padded base width n`: the same, with zeros before them up to a width;
* `value base ds`: the number that digits stand for.

A number is the value of its digits (`value_bytes`, `value_padded`), and the zeros at the end
of a numeral scale it by powers of the base (`value_rdropWhile_zero`).
-/

namespace Digits

/-- The byte of a digit: `0` to `9`, then `a` to `f`. -/
def byte (d : Nat) : UInt8 := d.digitChar.toUInt8

/-- The digit of a byte, in either case. -/
def digit (c : UInt8) : Nat :=
  if c.toNat < 58 then c.toNat - 48 else if c.toNat < 91 then c.toNat - 55 else c.toNat - 87

/-- The digits of a number. -/
def bytes (base n : Nat) : List UInt8 := (Nat.toDigits base n).map Char.toUInt8

/-- The digits of a number, with zeros before them up to a width. -/
def padded (base width n : Nat) : List UInt8 :=
  List.replicate (width - (bytes base n).length) (byte 0) ++ bytes base n

/-- The number that digits stand for. -/
def value (base : Nat) (ds : List UInt8) : Nat := ds.foldl (fun n c => n * base + digit c) 0

variable {base n width k : Nat} {c : UInt8} {ds es : List UInt8}

theorem digit_byte {d : Nat} (h : d < 16) : digit (byte d) = d := by
  interval_cases d <;> rfl

@[simp] theorem value_nil : value base [] = 0 := rfl

theorem foldl_eq (n : Nat) (ds : List UInt8) :
    ds.foldl (fun n c => n * base + digit c) n = n * base ^ ds.length + value base ds := by
  induction ds generalizing n with
  | nil => simp
  | cons c ds ih =>
    rw [value, List.foldl_cons, List.foldl_cons, ih, ih (0 * base + digit c), List.length_cons, pow_succ]
    ring

theorem value_cons : value base (c :: ds) = digit c * base ^ ds.length + value base ds := by
  rw [value, List.foldl_cons, foldl_eq, Nat.zero_mul, Nat.zero_add]

theorem value_append : value base (ds ++ es) = value base ds * base ^ es.length + value base es := by
  rw [value, List.foldl_append, foldl_eq]
  rfl

/-- Zeros before a numeral do not count. -/
theorem value_replicate_zero : value base (List.replicate k (byte 0)) = 0 := by
  induction k with
  | zero => rfl
  | succ k ih =>
    rw [List.replicate_succ, value_cons, ih, digit_byte (by norm_num), Nat.zero_mul]

/-- Every byte of a number's digits is that of a digit below the base. -/
theorem exists_of_mem_bytes (hb : 1 < base) (hc : c ∈ bytes base n) : ∃ d, d < base ∧ c = byte d := by
  induction n using Nat.strongRecOn with
  | ind n ih =>
    rw [bytes, Nat.toDigits_eq_if hb] at hc
    split at hc
    · rename_i hlt
      simp only [List.map_cons, List.map_nil, List.mem_singleton] at hc
      exact ⟨n, hlt, hc⟩
    · rename_i hge
      simp only [List.map_append, List.map_cons, List.map_nil, List.mem_append, List.mem_singleton] at hc
      rcases hc with hc | hc
      · exact ih (n / base) (Nat.div_lt_self (by omega) hb) hc
      · exact ⟨n % base, Nat.mod_lt n (by omega), hc⟩

theorem bytes_ne_nil : bytes base n ≠ [] := by
  rw [bytes, ne_eq, List.map_eq_nil_iff]
  exact Nat.toDigits_ne_nil

/-- A number is the value of its digits. -/
theorem value_bytes (hb : 1 < base) (hle : base ≤ 16) : value base (bytes base n) = n := by
  induction n using Nat.strongRecOn with
  | ind n ih =>
    rw [bytes, Nat.toDigits_eq_if hb]
    split
    · rename_i hlt
      rw [List.map_singleton, value_cons]
      exact (Nat.mul_one _).trans (digit_byte (by omega))
    · rename_i hge
      have hlast : digit (n % base).digitChar.toUInt8 = n % base :=
        digit_byte ((Nat.mod_lt n (by omega)).trans_le hle)
      have hfront : value base ((Nat.toDigits base (n / base)).map Char.toUInt8) = n / base :=
        ih (n / base) (Nat.div_lt_self (by omega) hb)
      rw [List.map_append, value_append, hfront, List.map_singleton, value_cons, hlast]
      simp only [List.length_cons, List.length_nil, Nat.zero_add, pow_one, pow_zero, Nat.mul_one,
        value_nil, Nat.add_zero]
      exact Nat.div_add_mod' n base

theorem length_bytes_le (hb : 1 < base) (hk : 0 < k) (h : n < base ^ k) : (bytes base n).length ≤ k := by
  rw [bytes, List.length_map]
  exact (Nat.length_toDigits_le_iff hb hk).2 h

/-! ## Padding -/

theorem exists_of_mem_padded (hb : 1 < base) (hc : c ∈ padded base width n) :
    ∃ d, d < base ∧ c = byte d := by
  rw [padded, List.mem_append] at hc
  rcases hc with hc | hc
  · exact ⟨0, by omega, List.eq_of_mem_replicate hc⟩
  · exact exists_of_mem_bytes hb hc

theorem value_padded (hb : 1 < base) (hle : base ≤ 16) : value base (padded base width n) = n := by
  rw [padded, value_append, value_replicate_zero, Nat.zero_mul, Nat.zero_add, value_bytes hb hle]

theorem length_padded (hb : 1 < base) (hw : 0 < width) (h : n < base ^ width) :
    (padded base width n).length = width := by
  have := length_bytes_le hb hw h
  rw [padded, List.length_append, List.length_replicate]
  omega

/-! ## Zeros at the end -/

/-- A numeral without its last zeros is smaller by as many powers of the base. -/
theorem value_rdropWhile_zero (ds : List UInt8) : ∃ z,
    (ds.rdropWhile (· == byte 0)).length + z = ds.length ∧
      value base (ds.rdropWhile (· == byte 0)) * base ^ z = value base ds := by
  induction ds using List.reverseRecOn with
  | nil => exact ⟨0, rfl, rfl⟩
  | append_singleton ds c ih =>
    rw [List.rdropWhile_concat]
    split
    · rename_i hc
      obtain ⟨z, hlen, hval⟩ := ih
      obtain rfl : c = byte 0 := by simpa using hc
      refine ⟨z + 1, ?_, ?_⟩
      · rw [List.length_append, List.length_singleton]
        omega
      · rw [value_append, value_cons, digit_byte (by norm_num), pow_succ, ← mul_assoc, hval]
        simp
    · exact ⟨0, rfl, Nat.mul_one _⟩

end Digits
