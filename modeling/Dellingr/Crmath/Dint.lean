import Dellingr.Lib.WideFloat
import Dellingr.Lib.Word

/-!
# Floats of two words

The 128-bit arithmetic of `crmath/dint.rs`: a significand of two words, an exponent and a sign. There are two copies
of it, whose roundings differ: `V1` for `log` and `log10`, `V2` for `pow`, `cos` and `tan`.

Words wrap where the source says so, and a function fails (`none`) where the amount of a shift is out of range.
Exponents are integers: those of the operands are words of 64 bits (`Dint.InRange`), so small that no sum of theirs
leaves such a word. Only where the source takes a difference of exponents to a narrower or to an unsigned type it is
taken there.
-/

namespace Dellingr.Crmath

open Word

/-- `dint64_t`: the sign is a word that is zero or one. -/
structure Dint where
  hi : UInt64
  lo : UInt64
  ex : Int
  sgn : Bool
  deriving DecidableEq, Repr

namespace Dint

/-- The significand. -/
def r (a : Dint) : Nat := a.hi.toNat * 2 ^ 64 + a.lo.toNat

def setR (a : Dint) (r : Nat) : Dint := { a with hi := .ofNat (r / 2 ^ 64), lo := .ofNat r }

/-- What it stands for: `r / 2 ^ 127 * 2 ^ ex`, with its sign. -/
def wide (a : Dint) : WideFloat := ⟨a.sgn, a.r, a.ex⟩

def toRat (a : Dint) : ℚ := a.wide.toRat 128

/-- The first bit of the significand is set. -/
def Normal (a : Dint) : Prop := 2 ^ 63 ≤ a.hi.toNat

/-- The exponent is a word of 64 bits. -/
def InRange (a : Dint) : Prop := -2 ^ 63 ≤ a.ex ∧ a.ex < 2 ^ 63

def IsZero (a : Dint) : Prop := a.hi = 0 ∧ a.lo = 0

instance (a : Dint) : Decidable a.Normal := inferInstanceAs (Decidable (_ ≤ _))
instance (a : Dint) : Decidable a.InRange := inferInstanceAs (Decidable (_ ∧ _))
instance (a : Dint) : Decidable a.IsZero := inferInstanceAs (Decidable (_ ∧ _))

end Dint

/-- A difference of exponents as an unsigned word. -/
def exDiff (a b : Int) : Nat := ((a - b) % 2 ^ 64).toNat

/-! ## The arithmetic of the logarithms -/

namespace V1

def ZERO : Dint := ⟨0, 0, 0, false⟩

/-- The sum of two words of 128 bits, and whether it carries. -/
def addu128 (a b : Nat) : Nat × Bool :=
  let al := a % 2 ^ 64
  let ah := a / 2 ^ 64
  let bl := b % 2 ^ 64
  let bh := b / 2 ^ 64
  let rl := wrappingAdd 64 al bl
  let rh := wrappingAdd 64 (wrappingAdd 64 ah bh) (if rl < al then 1 else 0)
  let carry := if rh = ah then decide (rl < al) else decide (rh < ah)
  (rh * 2 ^ 64 ||| rl, carry)

def subu128 (a b : Nat) : Nat :=
  let c := wrappingSub 128 0 b
  let al := a % 2 ^ 64
  let ah := a / 2 ^ 64
  let cl := c % 2 ^ 64
  let ch := c / 2 ^ 64
  let rl := wrappingAdd 64 al cl
  let rh := wrappingAdd 64 (wrappingAdd 64 ah ch) (if rl < al then 1 else 0)
  rh * 2 ^ 64 ||| rl

def cmpDint (a b : Dint) : Ordering :=
  (compare a.ex b.ex).then ((compare a.hi.toNat b.hi.toNat).then (compare a.lo.toNat b.lo.toNat))

/-- A significand shifted by so many bits, rounded. -/
def shiftNearest (bb : Nat) (sh : Int) : Option Nat := do
  -- Round to nearest.
  let bb ← if sh ≤ 128 then (shr 128 bb (sh - 1)).map fun half => wrappingAdd 128 bb (1 &&& half) else some bb
  if sh < 128 then shr 128 bb sh else some 0

/-- The smaller significand, at the exponent of the larger number. -/
def shifted (a b : Dint) : Option Nat :=
  if b.ex < a.ex then shiftNearest b.r (Int.bmod (a.ex - b.ex) (2 ^ 32)) else some b.r

/-- The significand of the sum, and its exponent. -/
def combine (aa bb : Nat) (mEx : Int) (subtract : Bool) : Nat × Int :=
  if subtract then (subu128 aa bb, mEx)
  else
    let (c, carry) := addu128 aa bb
    if carry then
      let c := wrappingAdd 128 c (c &&& 0x1)
      (2 ^ 127 ||| c / 2, mEx + 1)
    else (c, mEx)

/-- The sum of two numbers, the first of the greater magnitude. -/
def addLarger (a b : Dint) : Option Dint := do
  let aa := a.r
  let bb ← shifted a b
  let (c, mEx) := combine aa bb a.ex (a.sgn ^^ b.sgn)
  let ch := c / 2 ^ 64
  let cl := c % 2 ^ 64
  let ex :=
    if ch ≠ 0 then clz 64 ch
    else wrappingAdd 64 64 (if cl ≠ 0 then clz 64 cl else (a.ex % 2 ^ 64).toNat)
  let c ← if ex < 128 then shl 128 c ex else some 0
  some (Dint.setR ⟨0, 0, mEx - Int.bmod ex (2 ^ 64), a.sgn⟩ c)

/-- The sum of two numbers, within so many calls of the function. -/
def addDint : Nat → Dint → Dint → Option Dint
  | 0, _, _ => none
  | calls + 1, a, b =>
    if a.hi ||| a.lo = 0 then some b
    else if b.hi ||| b.lo = 0 then some a
    else
      match cmpDint a b with
      | .eq => if a.sgn ^^ b.sgn then some ZERO else some { a with ex := a.ex + 1 }
      | .lt => addDint calls b a
      | .gt => addLarger a b

/-- Multiply with 126 bits of accuracy. -/
def mulDint (a b : Dint) : Dint :=
  let t := a.hi.toNat * b.hi.toNat
  let m1 := a.hi.toNat * b.lo.toNat
  let m2 := a.lo.toNat * b.hi.toNat
  let (m, carry) := addu128 m1 m2
  let t := wrappingAdd 128 t (if carry then 2 ^ 64 else 0)
  let t := wrappingAdd 128 t (m / 2 ^ 64)
  -- Ensure that hi starts with a 1.
  let ex : Nat := if t / 2 ^ 127 = 0 then 1 else 0
  let t := if ex ≠ 0 then t * 2 % 2 ^ 128 else t
  let t := wrappingAdd 128 t (m % 2 ^ 64 / 2 ^ 63)
  Dint.setR ⟨0, 0, a.ex + b.ex - ex + 1, a.sgn ^^ b.sgn⟩ t

/-- Multiply by a small integer. -/
def mulDint2 (b : Int64) (a : Dint) : Option Dint :=
  if b = 0 then some ZERO
  else do
    let c := b.toInt.natAbs
    let sgn := if b < 0 then !a.sgn else a.sgn
    let t := a.hi.toNat * c
    let th := t / 2 ^ 64
    let m := if th ≠ 0 then clz 64 th else 64
    let t ← shl 128 t m
    let l := a.lo.toNat * c
    let l ← shl 128 l (m - 1)
    let l := l / 2 ^ 63
    let (s, carry) := addu128 l t
    if carry then
      let s := wrappingAdd 128 s (s &&& 0x1)
      some (Dint.setR ⟨0, 0, a.ex + 64 - (m - 1), sgn⟩ (2 ^ 127 ||| s / 2))
    else some (Dint.setR ⟨0, 0, a.ex + 64 - m, sgn⟩ s)

end V1

/-! ## The arithmetic of the power -/

namespace V2

/-- Zero, with an exponent below those of the subnormal doubles. -/
def ZERO : Dint := ⟨0, 0, -1076, false⟩

def dintZeroP (a : Dint) : Bool := a.hi == 0

/-- Compare magnitudes. -/
def cmpDintAbs (a b : Dint) : Ordering :=
  if dintZeroP a then if dintZeroP b then .eq else .lt
  else if dintZeroP b then .gt
  else (compare a.ex b.ex).then (compare a.r b.r)

def cmpDint11 (a b : Dint) : Ordering := (compare a.ex b.ex).then (compare a.hi.toNat b.hi.toNat)

/-- The difference of two significands, the second one already shifted by `k`, with its first bit set, and by how
    much the exponent decreases. -/
def subtract (aa bb br k : Nat) : Option (Nat × Nat) := do
  let c := wrappingSub 128 aa bb
  let ch := c / 2 ^ 64
  let ex := if ch ≠ 0 then clz 64 ch else 64 + clz 64 (c % 2 ^ 64)
  if 0 < ex then
    let shifted ← if k = 1 then shl 128 br ((ex : Int) - 1) else shl 128 bb ex
    let c := wrappingSub 128 (← shl 128 aa ex) shifted
    let again := clz 64 (c / 2 ^ 64)
    some (← shl 128 c again, ex + again)
  else some (← shl 128 c ex, ex)

/-- The smaller significand, shifted to the exponent of the larger one. -/
def shifted (bb k : Nat) : Option Nat := if 0 < k then if k < 128 then shr 128 bb k else some 0 else some bb

/-- The sum of two numbers, the first of the greater magnitude. -/
def addLarger (a b : Dint) : Option Dint := do
  let aa := a.r
  let k := exDiff a.ex b.ex
  let bb ← shifted b.r k
  if a.sgn ^^ b.sgn then
    let (c, ex) ← subtract aa bb b.r k
    some (Dint.setR ⟨0, 0, a.ex - ex, a.sgn⟩ c)
  else
    let c := wrappingAdd 128 aa bb
    if c < aa then some (Dint.setR ⟨0, 0, a.ex + 1, a.sgn⟩ (2 ^ 127 ||| c / 2))
    else some (Dint.setR ⟨0, 0, a.ex, a.sgn⟩ c)

/-- Sum with error below 2 ulps; exact in the Sterbenz case. -/
def addDint (a b : Dint) : Option Dint :=
  if a.hi ||| a.lo = 0 then some b
  else
    match cmpDintAbs a b with
    | .eq => if a.sgn ^^ b.sgn then some ZERO else some { a with ex := a.ex + 1 }
    | .lt => addLarger b a
    | .gt => addLarger a b

/-- The smaller first word, shifted to the exponent of the larger number. -/
def shifted11 (a b : Dint) : Option Nat :=
  if b.ex < a.ex then
    let k := exDiff a.ex b.ex
    if k < 64 then shr 64 b.hi.toNat k else some 0
  else some b.hi.toNat

/-- The sum of two numbers without lower words, the first of the greater magnitude. -/
def addLarger11 (a b : Dint) (destinationLo : UInt64) : Option Dint := do
  let aa := a.hi.toNat
  let bb ← shifted11 a b
  if a.sgn ^^ b.sgn then
    let c := wrappingSub 64 aa bb
    let ex := clz 64 c
    if 0 < ex then
      let c := wrappingSub 64 (← shl 64 aa ex) (← shl 64 bb ex)
      let again := clz 64 c
      let c ← shl 64 c again
      some ⟨.ofNat c, destinationLo, a.ex - ex - again, a.sgn⟩
    else
      let c ← shl 64 c ex
      some ⟨.ofNat c, destinationLo, a.ex - ex, a.sgn⟩
  else
    let c := wrappingAdd 64 aa bb
    if c < aa then some ⟨.ofNat (2 ^ 63 ||| c / 2), destinationLo, a.ex + 1, a.sgn⟩
    else some ⟨.ofNat c, destinationLo, a.ex, a.sgn⟩

/-- Sum of numbers whose lower words are zero. The lower word of the result is that of the second operand. -/
def addDint11 (a b : Dint) : Option Dint :=
  let destinationLo := b.lo
  if a.hi = 0 then some b
  else if b.hi = 0 then some a
  else
    match cmpDint11 a b with
    | .eq => if a.sgn ^^ b.sgn then some ZERO else some { a with ex := a.ex + 1 }
    | .lt => addLarger11 b a destinationLo
    | .gt => addLarger11 a b destinationLo

/-- The upper half of a product, shifted so that its first bit is set. -/
def normalised (a b : Dint) (r : Nat) : Option Dint := do
  let ex : Nat := r / 2 ^ 127
  let r ← shl 128 r (1 - (ex : Int))
  some (Dint.setR ⟨0, 0, a.ex + b.ex + ex, a.sgn ^^ b.sgn⟩ r)

/-- Product with error below 6 ulps. -/
def mulDint (a b : Dint) : Option Dint :=
  let bh := b.hi.toNat
  let bl := b.lo.toNat
  let m1 := a.hi.toNat * bl
  let m2 := a.lo.toNat * bh
  let r := a.hi.toNat * bh
  let r := wrappingAdd 128 r (m1 / 2 ^ 64 + m2 / 2 ^ 64)
  normalised a b r

/-- Product assuming the lower word of `b` is zero; error below 2 ulps. -/
def mulDint21 (a b : Dint) : Option Dint :=
  let bh := b.hi.toNat
  let hi := a.hi.toNat * bh
  let lo := a.lo.toNat * bh
  let r := wrappingAdd 128 hi (lo / 2 ^ 64)
  normalised a b r

/-- Exact product assuming both lower words are zero. -/
def mulDint11 (a b : Dint) : Option Dint := normalised a b (a.hi.toNat * b.hi.toNat)

/-- Product with a small integer, error below 1 ulp. -/
def mulDintInt64 (a : Dint) (b : Int64) : Option Dint :=
  if b = 0 then some ZERO
  else do
    let c := b.toInt.natAbs
    let sgn := if b < 0 then !a.sgn else a.sgn
    let r := a.hi.toNat * c
    let rh := r / 2 ^ 64
    -- If c = 1 the upper word may be zero.
    let m := if rh ≠ 0 then clz 64 rh else 64
    let r ← shl 128 r m
    let ex := a.ex + 64 - m
    let l := a.lo.toNat * c
    let l ← shl 128 l (m - 1)
    let l := l / 2 ^ 63
    let r := wrappingAdd 128 r l
    if r < l then some (Dint.setR ⟨0, 0, ex + 1, sgn⟩ (2 ^ 127 ||| r / 2))
    else some (Dint.setR ⟨0, 0, ex, sgn⟩ r)

end V2

/-! ## The significand -/

namespace Dint

variable {a : Dint} {n : Nat} {e : Int} {s : Bool}

theorem r_lt : a.r < 2 ^ 128 := by
  have hhi := a.hi.toNat_lt
  have hlo := a.lo.toNat_lt
  rw [r]
  omega

theorem r_setR (hn : n < 2 ^ 128) : (a.setR n).r = n := by
  have hhi : (UInt64.ofNat (n / 2 ^ 64)).toNat = n / 2 ^ 64 := by
    rw [UInt64.toNat_ofNat']
    exact Nat.mod_eq_of_lt (by omega)
  have hlo : (UInt64.ofNat n).toNat = n % 2 ^ 64 := UInt64.toNat_ofNat'
  rw [r, setR]
  simp only [hhi, hlo]
  omega

theorem wide_setR (hn : n < 2 ^ 128) : (a.setR n).wide = ⟨a.sgn, n, a.ex⟩ := by
  rw [wide, r_setR hn]
  rfl

theorem normal_iff : a.Normal ↔ a.wide.Normal 128 := by
  have hlo := a.lo.toNat_lt
  have hlt := @r_lt a
  simp only [Normal, WideFloat.Normal, wide]
  rw [and_iff_left hlt, r]
  omega

end Dint

theorem exDiff_eq {a b : Int} (h : b ≤ a) (hlt : a - b < 2 ^ 64) : (exDiff a b : Int) = a - b := by
  rw [exDiff]
  omega

/-! ## Sums and differences of 128 bits -/

namespace V1

variable {a b : Nat}

theorem or_low {x y : Nat} (hy : y < 2 ^ 64) : x * 2 ^ 64 ||| y = x * 2 ^ 64 + y := by
  rw [Nat.mul_comm, ← Nat.two_pow_add_eq_or_of_lt hy]

/-- The words of a sum, the lower one with its carry. -/
theorem add_words (a b : Nat) : ∃ rl rh,
    rl = wrappingAdd 64 (a % 2 ^ 64) (b % 2 ^ 64) ∧
    rh = wrappingAdd 64 (wrappingAdd 64 (a / 2 ^ 64) (b / 2 ^ 64)) (if rl < a % 2 ^ 64 then 1 else 0) ∧
    rh * 2 ^ 64 + rl = wrappingAdd 128 a b ∧
    rl = (a % 2 ^ 64 + b % 2 ^ 64) % 2 ^ 64 ∧
    rh = (a / 2 ^ 64 + b / 2 ^ 64 + (a % 2 ^ 64 + b % 2 ^ 64) / 2 ^ 64) % 2 ^ 64 := by
  obtain ⟨rl, hrl⟩ : ∃ rl, rl = wrappingAdd 64 (a % 2 ^ 64) (b % 2 ^ 64) := ⟨_, rfl⟩
  obtain ⟨rh, hrh⟩ : ∃ rh, rh = wrappingAdd 64 (wrappingAdd 64 (a / 2 ^ 64) (b / 2 ^ 64))
    (if rl < a % 2 ^ 64 then 1 else 0) := ⟨_, rfl⟩
  refine ⟨rl, rh, hrl, hrh, ?_⟩
  have hrl' : rl = (a % 2 ^ 64 + b % 2 ^ 64) % 2 ^ 64 := hrl
  have hrh' : rh = (a / 2 ^ 64 + b / 2 ^ 64 + (a % 2 ^ 64 + b % 2 ^ 64) / 2 ^ 64) % 2 ^ 64 := by
    by_cases hcarry : rl < a % 2 ^ 64
    · rw [hrh, if_pos hcarry, wrappingAdd, wrappingAdd]
      omega
    · rw [hrh, if_neg hcarry, wrappingAdd, wrappingAdd]
      omega
  refine ⟨?_, hrl', hrh'⟩
  rw [wrappingAdd]
  omega

theorem addu128_eq (ha : a < 2 ^ 128) (hb : b < 2 ^ 128) :
    addu128 a b = (wrappingAdd 128 a b, decide (2 ^ 128 ≤ a + b)) := by
  obtain ⟨rl, rh, hrl, hrh, hsum, hrl', hrh'⟩ := add_words a b
  rw [addu128]
  simp only [← hrl, ← hrh]
  refine Prod.ext ?_ ?_
  · exact (or_low (hrl ▸ wrappingAdd_lt)).trans hsum
  · dsimp only
    split <;> rw [decide_eq_decide] <;> omega

theorem subu128_eq : subu128 a b = wrappingSub 128 a b := by
  obtain ⟨c, hc⟩ : ∃ c, c = wrappingSub 128 0 b := ⟨_, rfl⟩
  obtain ⟨rl, rh, hrl, hrh, hsum, -, -⟩ := add_words a c
  rw [subu128]
  simp only [← hc, ← hrl, ← hrh]
  rw [or_low (hrl ▸ wrappingAdd_lt), hsum, hc]
  simp only [wrappingAdd, wrappingSub]
  omega

end V1

end Dellingr.Crmath
