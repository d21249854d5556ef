import Dellingr.Crmath.Dint

/-!
# Floats of four words

The 256-bit arithmetic of `crmath/qint.rs`, of the last phase of `pow`: a significand of four words in two halves, an
exponent and a sign. The conventions are those of the floats of two words. Sums of so few numbers below `2 ^ 64` that
they cannot leave 128 bits are plain sums.
-/

namespace Dellingr.Crmath

open Word

/-- `qint64_t`: the sign is a word that is zero or one. -/
structure Qint where
  hh : UInt64
  hl : UInt64
  lh : UInt64
  ll : UInt64
  ex : Int
  sgn : Bool
  deriving DecidableEq, Repr

namespace Qint

/-- The upper half of the significand. -/
def rh (a : Qint) : Nat := a.hh.toNat * 2 ^ 64 + a.hl.toNat

/-- The lower half of the significand. -/
def rl (a : Qint) : Nat := a.lh.toNat * 2 ^ 64 + a.ll.toNat

/-- `Qint::with` -/
def ofHalves (rh rl : Nat) (ex : Int) (sgn : Bool) : Qint :=
  ⟨.ofNat (rh / 2 ^ 64), .ofNat rh, .ofNat (rl / 2 ^ 64), .ofNat rl, ex, sgn⟩

/-- The significand. -/
def r (a : Qint) : Nat := a.rh * 2 ^ 128 + a.rl

/-- What it stands for: `r / 2 ^ 255 * 2 ^ ex`, with its sign. -/
def wide (a : Qint) : WideFloat := ⟨a.sgn, a.r, a.ex⟩

def toRat (a : Qint) : ℚ := a.wide.toRat 256

/-- The upper half as a number. -/
def upperWide (a : Qint) : WideFloat := ⟨a.sgn, a.rh, a.ex⟩

/-- The first bit of the significand is set. -/
def Normal (a : Qint) : Prop := 2 ^ 63 ≤ a.hh.toNat

/-- The exponent is a word of 64 bits. -/
def InRange (a : Qint) : Prop := -2 ^ 63 ≤ a.ex ∧ a.ex < 2 ^ 63

def IsZero (a : Qint) : Prop := a.hh = 0 ∧ a.hl = 0 ∧ a.lh = 0 ∧ a.ll = 0

instance (a : Qint) : Decidable a.Normal := inferInstanceAs (Decidable (_ ≤ _))
instance (a : Qint) : Decidable a.InRange := inferInstanceAs (Decidable (_ ∧ _))
instance (a : Qint) : Decidable a.IsZero := inferInstanceAs (Decidable (_ ∧ _))

/-- A number with its first words only. -/
def upper (words : Nat) (a : Qint) : Qint :=
  { a with
    hl := if 2 ≤ words then a.hl else 0
    lh := if 3 ≤ words then a.lh else 0
    ll := if 4 ≤ words then a.ll else 0 }

end Qint

def ZERO_Q : Qint := ⟨0, 0, 0, 0, 0, false⟩

/-- The wrapping sum and its carry. -/
def addu128 (a b : Nat) : Nat × Nat :=
  let r := wrappingAdd 128 a b
  (r, if r < a then 1 else 0)

/-- The wrapping difference and whether it borrows. -/
def subu128 (a b : Nat) : Nat × Bool :=
  let r := wrappingSub 128 a b
  (r, decide (a < r))

/-- The leading zeros of the 256-bit number `ch:cl`. -/
def clz256 (ch cl : Nat) : Nat :=
  let chh := ch / 2 ^ 64
  let clh := cl / 2 ^ 64
  if chh ≠ 0 then clz 64 chh
  else if ch ≠ 0 then 64 + clz 64 (ch % 2 ^ 64)
  else if clh ≠ 0 then 128 + clz 64 clh
  else 192 + clz 64 (cl % 2 ^ 64)

/-- Compare magnitudes. -/
def cmpQint (a b : Qint) : Ordering := (compare a.ex b.ex).then ((compare a.rh b.rh).then (compare a.rl b.rl))

/-- Compare magnitudes on the upper two words. -/
def cmpQint22 (a b : Qint) : Ordering := (compare a.ex b.ex).then (compare a.rh b.rh)

/-! ## Sums -/

/-- A significand shifted to the right: its two halves. -/
def shiftRight (h l : Nat) (k : Int) : Option (Nat × Nat) := do
  if 128 ≤ k then some (0, ← shr 128 h (k - 128))
  else some (← shr 128 h k, (← shr 128 l k) ||| (← shl 128 h (128 - k)))

/-- A significand shifted to the left: its two halves. -/
def shiftLeft (h l : Nat) (k : Int) : Option (Nat × Nat) := do
  if 128 ≤ k then some (← shl 128 l (k - 128), 0)
  else some ((← shl 128 h k) ||| (← shr 128 l (128 - k)), ← shl 128 l k)

/-- The difference of two significands of two halves. -/
def subHalves (ah al bh bl : Nat) : Nat × Nat :=
  let ch := wrappingSub 128 ah bh
  let (cl, borrow) := subu128 al bl
  (if borrow then wrappingSub 128 ch 1 else ch, cl)

/-- What is left of a cancellation, shifted out. -/
def finishShift (ch cl ex : Nat) : Option (Nat × Nat) := do
  if ex ≠ 0 then some ((← shl 128 ch ex) ||| (← shr 128 cl (128 - (ex : Int))), ← shl 128 cl ex)
  else some (ch, cl)

/-- A significand shifted to the left, or to the right if the amount is negative. -/
def realigned (bh bl : Nat) (sh : Int) : Option (Nat × Nat) :=
  if 0 < sh then shiftLeft bh bl sh
  else if sh = 0 then some (bh, bl)
  else shiftRight bh bl (-sh)

/-- The difference of the significands of two numbers, the second one shifted by `k`, with its first bit set, and by
    how much the exponent decreases. -/
def subtractQint (a b : Qint) (bh bl : Nat) (k : Int) : Option (Nat × Nat × Nat) := do
  let (ch, cl) := subHalves a.rh a.rl bh bl
  let ex := clz256 ch cl
  if 0 < ex then
    -- Shift A left by ex bits and B left by ex - k bits.
    let (ah, al) ← shiftLeft a.rh a.rl ex
    let (bh, bl) ← realigned b.rh b.rl (ex - k)
    let (ch, cl) := subHalves ah al bh bl
    let again := clz256 ch cl
    let (ch, cl) ← finishShift ch cl again
    some (ch, cl, ex + again)
  else some (ch, cl, ex)

/-- The sum of two significands of two halves, and by how much the exponent increases. -/
def addHalves (ah al bh bl : Nat) : Nat × Nat × Nat :=
  let (ch, cy) := addu128 ah bh
  let (cl, carryLow) := addu128 al bl
  let (ch, cy) :=
    if carryLow ≠ 0 then
      let ch := wrappingAdd 128 ch 1
      (ch, cy + if ch = 0 then 1 else 0)
    else (ch, cy)
  if cy ≠ 0 then (2 ^ 127 ||| ch / 2, ch * 2 ^ 127 % 2 ^ 128 ||| cl / 2, 1) else (ch, cl, 0)

/-- The smaller significand, shifted to the exponent of the larger one. -/
def shiftedHalves (bh bl : Nat) (k : Int) : Option (Nat × Nat) :=
  if 0 < k then
    if 128 ≤ k then if k < 256 then (shr 128 bh (k - 128)).map fun bl => (0, bl) else some (0, 0)
    else shiftRight bh bl k
  else some (bh, bl)

/-- The sum of two numbers, the second one's significand already shifted by `k`. -/
def combineQint (a b : Qint) (bh bl : Nat) (k : Int) : Option Qint := do
  if a.sgn ^^ b.sgn then
    let (ch, cl, ex) ← subtractQint a b bh bl k
    some (Qint.ofHalves ch cl (a.ex - ex) a.sgn)
  else
    let (ch, cl, ex) := addHalves a.rh a.rl bh bl
    some (Qint.ofHalves ch cl (a.ex + ex) a.sgn)

/-- The sum of two numbers, the first of the greater magnitude. -/
def addLargerQint (a b : Qint) : Option Qint := do
  let k := a.ex - b.ex
  let (bh, bl) ← shiftedHalves b.rh b.rl k
  combineQint a b bh bl k

/-- Sum with error below 2 ulps (256-bit); exact in the Sterbenz case. It has so many calls of the function. -/
def addQint : Nat → Qint → Qint → Option Qint
  | 0, _, _ => none
  | calls + 1, a, b =>
    if a.rh = 0 ∧ a.rl = 0 then some b
    else if b.rh = 0 ∧ b.rl = 0 then some a
    else
      match cmpQint a b with
      | .eq => if a.sgn ^^ b.sgn then some ZERO_Q else some { a with ex := a.ex + 1 }
      | .lt => addQint calls b a
      | .gt => addLargerQint a b

/-- An upper half shifted to the left by `ex - k`, or to the right. -/
def realigned22 (bh ex k : Nat) : Option Nat :=
  if k ≤ ex then shl 128 bh ((ex : Int) - k) else shr 128 bh ((k : Int) - ex)

/-- The smaller upper half, shifted to the exponent of the larger number. -/
def shifted22 (bh k : Nat) : Option Nat := if 0 < k then if 128 ≤ k then some 0 else shr 128 bh k else some bh

/-- The difference of the upper halves of two numbers, the second one shifted by `k`, with its first bit set, and by
    how much the exponent decreases. -/
def subtractQint22 (a b : Qint) (bh k : Nat) : Option (Nat × Nat) := do
  let zeros := fun ch => if ch / 2 ^ 64 ≠ 0 then clz 64 (ch / 2 ^ 64) else 64 + clz 64 (ch % 2 ^ 64)
  let ch := wrappingSub 128 a.rh bh
  let ex := zeros ch
  if 0 < ex then
    let ah ← shl 128 a.rh ex
    let bh ← realigned22 b.rh ex k
    let ch := wrappingSub 128 ah bh
    let again := zeros ch
    some (← shl 128 ch again, ex + again)
  else some (← shl 128 ch ex, ex)

/-- The sum of the upper halves of two numbers, the first of the greater magnitude. -/
def addLargerQint22 (a b : Qint) : Option Qint := do
  let k := exDiff a.ex b.ex
  let bh ← shifted22 b.rh k
  if a.sgn ^^ b.sgn then
    let (ch, ex) ← subtractQint22 a b bh k
    some (Qint.ofHalves ch 0 (a.ex - ex) a.sgn)
  else
    let (ch, cy) := addu128 a.rh bh
    if cy ≠ 0 then some (Qint.ofHalves (2 ^ 127 ||| ch / 2) 0 (a.ex + 1) a.sgn)
    else some (Qint.ofHalves ch 0 a.ex a.sgn)

/-- Sum on the upper two words only, error below 2 ulps (128-bit). It has so many calls of the function. -/
def addQint22 : Nat → Qint → Qint → Option Qint
  | 0, _, _ => none
  | calls + 1, a, b =>
    if a.rh = 0 then some b
    else if b.rh = 0 then some a
    else
      match cmpQint22 a b with
      | .eq => if a.sgn ^^ b.sgn then some ZERO_Q else some { a with ex := a.ex + 1 }
      | .lt => addQint22 calls b a
      | .gt => addLargerQint22 a b

/-! ## Products -/

/-- Normalise the 256-bit product `t6:t5`, and attach exponent and sign. -/
def finishProduct (t6 t5 : Nat) (a b : Qint) : Qint :=
  let ex : Nat := if t6 / 2 ^ 127 = 0 then 1 else 0
  let (rh, rl) := if ex ≠ 0 then (t6 * 2 % 2 ^ 128 ||| t5 / 2 ^ 127, t5 * 2 % 2 ^ 128) else (t6, t5)
  Qint.ofHalves rh rl (a.ex + b.ex + 1 - ex) (a.sgn ^^ b.sgn)

def mul64 (a b : UInt64) : Nat := a.toNat * b.toNat

/-- Product with error below 14 ulps. -/
def mulQint (a b : Qint) : Qint :=
  let r33 := mul64 a.hh b.hh
  let r32 := mul64 a.hh b.hl
  let r23 := mul64 a.hl b.hh
  let r31 := mul64 a.hh b.lh
  let r13 := mul64 a.lh b.hh
  let r22 := mul64 a.hl b.hl
  let r30 := mul64 a.hh b.ll
  let r03 := mul64 a.ll b.hh
  let r21 := mul64 a.hl b.lh
  let r12 := mul64 a.lh b.hl
  let t3 := r12 / 2 ^ 64 + r21 / 2 ^ 64 + r03 / 2 ^ 64 + r30 / 2 ^ 64
  let (t4, c4a) := addu128 r22 t3
  let (t4, c4b) := addu128 r13 t4
  let (t4, c4c) := addu128 r31 t4
  let c4 := c4a + c4b + c4c
  let (t5, c5a) := addu128 r23 (t4 / 2 ^ 64)
  let (t5, c5b) := addu128 r32 t5
  let c5 := c5a + c5b
  let t6 := wrappingAdd 128 (wrappingAdd 128 r33 (c5 * 2 ^ 64 ||| t5 / 2 ^ 64)) c4
  let t5 := t5 * 2 ^ 64 % 2 ^ 128 ||| (t4 &&& 0xffffffffffffffff)
  finishProduct t6 t5 a b

/-- Product of the upper three words, error below 6 ulps. -/
def mulQint33 (a b : Qint) : Qint :=
  let r33 := mul64 a.hh b.hh
  let r32 := mul64 a.hh b.hl
  let r23 := mul64 a.hl b.hh
  let r31 := mul64 a.hh b.lh
  let r13 := mul64 a.lh b.hh
  let r22 := mul64 a.hl b.hl
  let r21 := mul64 a.hl b.lh
  let r12 := mul64 a.lh b.hl
  let t3 := r12 / 2 ^ 64 + r21 / 2 ^ 64
  let (t4, c4a) := addu128 r22 t3
  let (t4, c4b) := addu128 r13 t4
  let (t4, c4c) := addu128 r31 t4
  let c4 := c4a + c4b + c4c
  let (t5, c5a) := addu128 r23 (t4 / 2 ^ 64)
  let (t5, c5b) := addu128 r32 t5
  let c5 := c5a + c5b
  let t6 := wrappingAdd 128 (wrappingAdd 128 r33 (c5 * 2 ^ 64 ||| t5 / 2 ^ 64)) c4
  let t5 := t5 * 2 ^ 64 % 2 ^ 128 ||| (t4 &&& 0xffffffffffffffff)
  finishProduct t6 t5 a b

/-- Product with the first word of `b` only, error below 2 ulps. -/
def mulQint41 (a b : Qint) : Qint :=
  let r33 := mul64 a.hh b.hh
  let r23 := mul64 a.hl b.hh
  let r13 := mul64 a.lh b.hh
  let r03 := mul64 a.ll b.hh
  let t3 := r03 / 2 ^ 64
  let (t4, c4) := addu128 r13 t3
  let (t5, c5) := addu128 r23 (t4 / 2 ^ 64)
  let t6 := wrappingAdd 128 (wrappingAdd 128 r33 (c5 * 2 ^ 64 ||| t5 / 2 ^ 64)) c4
  let t5 := t5 * 2 ^ 64 % 2 ^ 128 ||| (t4 &&& 0xffffffffffffffff)
  finishProduct t6 t5 a b

/-- Exact product of the upper three words of `a` by the first word of `b`. -/
def mulQint31 (a b : Qint) : Qint :=
  let r33 := mul64 a.hh b.hh
  let r23 := mul64 a.hl b.hh
  let r13 := mul64 a.lh b.hh
  let t4 := r13
  let (t5, c5) := addu128 r23 (t4 / 2 ^ 64)
  let t6 := wrappingAdd 128 r33 (c5 * 2 ^ 64 ||| t5 / 2 ^ 64)
  let t5 := t5 * 2 ^ 64 % 2 ^ 128 ||| (t4 &&& 0xffffffffffffffff)
  finishProduct t6 t5 a b

/-- Exact product of the upper two words. -/
def mulQint22 (a b : Qint) : Qint :=
  let r33 := mul64 a.hh b.hh
  let r32 := mul64 a.hh b.hl
  let r23 := mul64 a.hl b.hh
  let r22 := mul64 a.hl b.hl
  let t4 := r22
  let (t5, c5a) := addu128 r23 (t4 / 2 ^ 64)
  let (t5, c5b) := addu128 r32 t5
  let c5 := c5a + c5b
  let t6 := wrappingAdd 128 r33 (c5 * 2 ^ 64 ||| t5 / 2 ^ 64)
  let t5 := t5 * 2 ^ 64 % 2 ^ 128 ||| (t4 &&& 0xffffffffffffffff)
  finishProduct t6 t5 a b

/-- Exact product of the upper two words of `a` by the first word of `b`. -/
def mulQint21 (a b : Qint) : Qint :=
  let r33 := mul64 a.hh b.hh
  let r23 := mul64 a.hl b.hh
  let t6 := wrappingAdd 128 r33 (r23 / 2 ^ 64)
  let t5 := r23 * 2 ^ 64 % 2 ^ 128
  finishProduct t6 t5 a b

/-- Exact product of the first words. -/
def mulQint11 (a b : Qint) : Option Qint := do
  let t6 := mul64 a.hh b.hh
  let ex : Nat := if t6 / 2 ^ 127 = 0 then 1 else 0
  some (Qint.ofHalves (← shl 128 t6 ex) 0 (a.ex + b.ex + 1 - ex) (a.sgn ^^ b.sgn))

/-- Product with a scaled integer. -/
def mulScaled (a : Qint) (c : Nat) (ex : Int) (sgn : Bool) : Qint :=
  let t3 := a.hh.toNat * c
  let t2 := a.hl.toNat * c
  let t1 := a.lh.toNat * c
  let t0 := a.ll.toNat * c
  let t := t0 / 2 ^ 64
  let (t1, cy) := addu128 t t1
  let t := cy * 2 ^ 64 ||| t1 / 2 ^ 64
  let (t2, cy) := addu128 t t2
  let t3 := wrappingAdd 128 t3 (cy * 2 ^ 64 ||| t2 / 2 ^ 64)
  let shift := clz 64 (t3 / 2 ^ 64)
  let t2 := t2 * 2 ^ 64 % 2 ^ 128 ||| (t1 &&& 0xffffffffffffffff)
  if shift ≠ 0 then Qint.ofHalves (t3 * 2 % 2 ^ 128 ||| t2 / 2 ^ 127) (t2 * 2 % 2 ^ 128) (ex - 1) sgn
  else Qint.ofHalves t3 t2 ex sgn

/-- Product with a small integer, error below 2 ulps. -/
def mulQint2 (b : Int64) (a : Qint) : Option Qint :=
  if b = 0 then some ZERO_Q
  else
    let c := b.toInt.natAbs
    let sgn := decide (b < 0) ^^ a.sgn
    if c = 1 then some { a with sgn := sgn }
    else do
      -- Scale c so that 2^63 <= c < 2^64.
      let k := clz 64 c
      let c ← shl 64 c k
      let ex := a.ex + 64 - k
      some (mulScaled a c ex sgn)

/-! ## The significand -/

namespace Qint

variable {a : Qint} {h l : Nat} {e : Int} {s : Bool}

theorem rh_lt : a.rh < 2 ^ 128 := by
  have hhi := a.hh.toNat_lt
  have hlo := a.hl.toNat_lt
  rw [rh]
  omega

theorem rl_lt : a.rl < 2 ^ 128 := by
  have hhi := a.lh.toNat_lt
  have hlo := a.ll.toNat_lt
  rw [rl]
  omega

theorem r_lt : a.r < 2 ^ 256 := by
  have hh := @rh_lt a
  have hl := @rl_lt a
  rw [r]
  omega

theorem halves_ofHalves (hh : h < 2 ^ 128) (hl : l < 2 ^ 128) :
    (ofHalves h l e s).rh = h ∧ (ofHalves h l e s).rl = l := by
  have hdiv : ∀ {n : Nat}, n < 2 ^ 128 → (UInt64.ofNat (n / 2 ^ 64)).toNat = n / 2 ^ 64 := fun hn => by
    rw [UInt64.toNat_ofNat']
    exact Nat.mod_eq_of_lt (by omega)
  have hmod : ∀ {n : Nat}, (UInt64.ofNat n).toNat = n % 2 ^ 64 := UInt64.toNat_ofNat'
  rw [rh, rl, ofHalves]
  simp only [hdiv hh, hdiv hl, hmod]
  omega

theorem wide_ofHalves (hh : h < 2 ^ 128) (hl : l < 2 ^ 128) :
    (ofHalves h l e s).wide = ⟨s, h * 2 ^ 128 + l, e⟩ := by
  obtain ⟨hrh, hrl⟩ := @halves_ofHalves h l e s hh hl
  rw [wide, r, hrh, hrl]
  rfl

theorem normal_iff : a.Normal ↔ a.wide.Normal 256 := by
  have hl := @rl_lt a
  have hlo := a.hl.toNat_lt
  have hlt := @r_lt a
  simp only [Normal, WideFloat.Normal, wide]
  rw [and_iff_left hlt, r, rh]
  omega

theorem normal_iff_upper : a.Normal ↔ a.upperWide.Normal 128 := by
  have hlo := a.hl.toNat_lt
  have hlt := @rh_lt a
  simp only [Normal, WideFloat.Normal, upperWide]
  rw [and_iff_left hlt, rh]
  omega

end Qint

theorem addu128_eq {a b : Nat} (ha : a < 2 ^ 128) (hb : b < 2 ^ 128) :
    (addu128 a b).1 < 2 ^ 128 ∧ (addu128 a b).2 * 2 ^ 128 + (addu128 a b).1 = a + b := by
  refine ⟨wrappingAdd_lt, ?_⟩
  rw [addu128]
  simp only [wrappingAdd_lt_iff ha hb]
  split
  · next h => rw [wrappingAdd_of_le ha hb h]; omega
  · next h => rw [wrappingAdd_of_lt (by omega)]; omega

end Dellingr.Crmath
