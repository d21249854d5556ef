import Dellingr.Lib.RejectionSampling

/-!
# The random numbers of a state

The generator of `vm/rng.rs`: a counter that steps by an odd word, and an output that mixes it
(SplitMix64), with the integers that `math.random` draws from it.

* Every output is reached within `2 ^ 64` draws, from every state (`exists_output_eq`), so that the loop that
  rejects outputs ends.
* Every value of a range comes from equally many outputs, the range of all integers included
  (`random_range_unbiased`).
-/

namespace Dellingr

open Rejection

/-- The generator: one word of state. -/
structure VmRng where
  state : UInt64
  deriving DecidableEq

namespace VmRng

/-- `next_u64` -/
def nextU64 (rng : VmRng) : UInt64 × VmRng :=
  let state := rng.state + 0x9e3779b97f4a7c15
  let z := (state ^^^ (state >>> 30)) * 0xbf58476d1ce4e5b9
  let z := (z ^^^ (z >>> 27)) * 0x94d049bb133111eb
  (z ^^^ (z >>> 31), { state })

/-- The result of an operation on `i128`; `none` where it overflows. -/
def i128 (n : Int) : Option Int := if -2 ^ 127 ≤ n ∧ n < 2 ^ 127 then some n else none

/-- One pass of the loop that rejects: the offset that a raw output gives, unless it is below the threshold
    `2^64 mod span`, which `span.wrapping_neg() % span` computes. -/
def acceptRaw (span raw : UInt64) : Option Nat :=
  let threshold := (-span) % span
  if threshold ≤ raw then some (raw % span).toNat else none

/-- `random_range_i64` over any source of raw outputs, with fuel for the loop; `none` where the fuel runs out
    or an operation overflows. -/
def randomRangeWith {σ : Type} (nextU64 : σ → UInt64 × σ) (fuel : Nat) (start stop : Int64) (s : σ) :
    Option (Int64 × σ) :=
  if stop ≤ start then
    some (start, s)
  else do
    let span := ((← i128 ((← i128 (stop.toInt - start.toInt)) + 1)) % 2 ^ 128).toNat
    let (draw, s) ←
      if 2 ^ 64 - 1 < span then
        some ((nextU64 s).1.toNat, (nextU64 s).2)
      else
        drawUntil nextU64 (acceptRaw (UInt64.ofNat span)) fuel s
    let value ← i128 (start.toInt + (draw : Int).bmod (2 ^ 128))
    some (Int64.ofInt value, s)

/-- `random_range_i64` -/
def randomRangeI64 (rng : VmRng) (fuel : Nat) (start stop : Int64) : Option (Int64 × VmRng) :=
  randomRangeWith nextU64 fuel start stop rng

-- The stream for the default seed is part of what a saved state replays.
example : (after nextU64 3 ⟨0⟩).nextU64.1 = 0xF88BB8A8724C81EC := by decide

/-! ## The outputs -/

/-- The output of a state, on words as bit vectors. -/
def mix (state : BitVec 64) : BitVec 64 :=
  let z := (state ^^^ (state >>> 30)) * 0xbf58476d1ce4e5b9#64
  let z := (z ^^^ (z >>> 27)) * 0x94d049bb133111eb#64
  z ^^^ (z >>> 31)

/-- A draw steps the counter and mixes it. -/
theorem nextU64_eq (rng : VmRng) : rng.nextU64 =
    (⟨mix (rng.state.toBitVec + 0x9e3779b97f4a7c15#64)⟩, ⟨rng.state + 0x9e3779b97f4a7c15⟩) := by
  refine Prod.ext (UInt64.toBitVec_inj.1 ?_) rfl
  simp only [nextU64, mix, UInt64.toBitVec_xor, UInt64.toBitVec_mul, UInt64.toBitVec_shiftRight,
    UInt64.toBitVec_add]
  rfl

theorem mix_injective : Function.Injective mix := by
  have hfirst := @mul_injective 64 0xbf58476d1ce4e5b9#64 0x96de1b173f119089#64 (by decide)
  have hsecond := @mul_injective 64 0x94d049bb133111eb#64 0x319642b2d24d8ec3#64 (by decide)
  exact (xorShift_injective (k := 31) (by omega)).comp <| hsecond.comp <|
    (xorShift_injective (k := 27) (by omega)).comp <| hfirst.comp (xorShift_injective (k := 30) (by omega))

/-- The state after some draws. -/
theorem after_state (n : Nat) (rng : VmRng) : (after nextU64 n rng).state.toBitVec
    = rng.state.toBitVec + BitVec.ofNat 64 n * 0x9e3779b97f4a7c15#64 := by
  induction n generalizing rng with
  | zero => rw [BitVec.zero_mul, BitVec.add_zero]; rfl
  | succ n ih =>
    rw [after_succ, ih, nextU64_eq, BitVec.ofNat_add, UInt64.toBitVec_add]
    show rng.state.toBitVec + 0x9e3779b97f4a7c15#64 + _ = _
    rw [BitVec.add_mul, BitVec.one_mul]
    ring

/-- Every output is drawn, from every state, within `2 ^ 64` draws. -/
theorem exists_output_eq (rng : VmRng) (raw : UInt64) : ∃ n < 2 ^ 64, output nextU64 n rng = raw := by
  obtain ⟨target, htarget⟩ := (Finite.injective_iff_surjective.1 mix_injective) raw.toBitVec
  obtain ⟨n, hn, hstate⟩ := @exists_counter_eq 64 0x9e3779b97f4a7c15#64 0xf1de83e19937733d#64 (by decide)
    rng.state.toBitVec target
  refine ⟨n, hn, UInt64.toBitVec_inj.1 ?_⟩
  rw [output, nextU64_eq]
  show mix _ = _
  rw [← htarget, ← hstate, after_state, BitVec.ofNat_add, BitVec.add_mul, BitVec.one_mul,
    BitVec.add_assoc]

/-! ## Ranges -/

variable {start stop value : Int64} {span : Nat}

/-- The value that a call returns where `raw` is the next raw output; `none` if it rejects that. -/
def drawn (start stop : Int64) (raw : UInt64) : Option Int64 :=
  (randomRangeWith (fun _ => (raw, ())) 1 start stop ()).map Prod.fst

/-- How many integers a range has. -/
def spanOf (start stop : Int64) : Nat := (stop.toInt - start.toInt + 1).toNat

theorem i128_of_lt {n : Int} (h : -2 ^ 65 ≤ n) (h' : n ≤ 2 ^ 65) : i128 n = some n :=
  if_pos ⟨by omega, by omega⟩

/-- The value at an offset of a range. -/
def valueAt (start : Int64) (offset : Nat) : Int64 := Int64.ofInt (start.toInt + offset)

/-- The offset that a raw output gives in a range of so many integers, if it is not rejected. -/
def offsetOf (span : Nat) (raw : UInt64) : Option Nat :=
  if 2 ^ 64 - 1 < span then some raw.toNat else acceptRaw (UInt64.ofNat span) raw

theorem offsetOf_lt {raw : UInt64} {offset : Nat} (h : offsetOf span raw = some offset) : offset < 2 ^ 64 := by
  rw [offsetOf] at h
  split at h
  · cases h
    exact raw.toNat_lt
  · rw [acceptRaw] at h
    split at h
    · cases h
      exact UInt64.toNat_lt _
    · cases h

/-- The span of a range, as the call computes it: nothing overflows. -/
theorem span_eq (h : start < stop) :
    (i128 (stop.toInt - start.toInt)).bind (fun n => i128 (n + 1)) = some (spanOf start stop : Int)
      ∧ ((spanOf start stop : Int) % 2 ^ 128).toNat = spanOf start stop ∧ 0 < spanOf start stop
      ∧ spanOf start stop ≤ 2 ^ 64 := by
  have hlt := Int64.lt_iff_toInt_lt.1 h
  have hstart := start.le_toInt
  have hstop := stop.toInt_lt
  have hspan : (spanOf start stop : Int) = stop.toInt - start.toInt + 1 := Int.toNat_of_nonneg (by omega)
  refine ⟨?_, by omega, by omega, by omega⟩
  rw [i128_of_lt (by omega) (by omega), Option.bind_some, i128_of_lt (by omega) (by omega), hspan]

/-- A draw is a loop over the offsets. -/
theorem randomRangeWith_eq {σ : Type} (nextU64 : σ → UInt64 × σ) {fuel : Nat} (hfuel : 0 < fuel)
    (h : start < stop) (s : σ) :
    randomRangeWith nextU64 fuel start stop s
      = (drawUntil nextU64 (offsetOf (spanOf start stop)) fuel s).map fun r => (valueAt start r.1, r.2) := by
  obtain ⟨hi128, hmod, -, -⟩ := span_eq h
  have hsum : ∀ {offset : Nat}, offset < 2 ^ 64 →
      i128 (start.toInt + (offset : Int).bmod (2 ^ 128)) = some (start.toInt + offset) := by
    intro offset hoff
    have hstart := start.le_toInt
    have hstop := start.toInt_lt
    rw [Int.bmod_eq_of_le (by omega) (by omega)]
    exact i128_of_lt (by omega) (by omega)
  rw [randomRangeWith, if_neg (Int64.not_le.2 h)]
  obtain ⟨n, hn, hn'⟩ := Option.bind_eq_some_iff.1 hi128
  simp only [hn, hn', hmod, Option.bind_eq_bind, Option.bind_some]
  by_cases hfull : 2 ^ 64 - 1 < spanOf start stop
  · -- The full range takes the first output.
    obtain ⟨fuel, rfl⟩ := Nat.exists_eq_succ_of_ne_zero (Nat.ne_of_gt hfuel)
    have hoff : offsetOf (spanOf start stop) (nextU64 s).1 = some (nextU64 s).1.toNat := if_pos hfull
    simp only [if_pos hfull, drawUntil, hoff, Option.map_some]
    rw [hsum (UInt64.toNat_lt _)]
    rfl
  · have haccept : offsetOf (spanOf start stop) = acceptRaw (UInt64.ofNat (spanOf start stop)) :=
      funext fun raw => if_neg hfull
    rw [if_neg hfull, ← haccept]
    cases hdraw : drawUntil nextU64 (offsetOf (spanOf start stop)) fuel s with
    | none => rfl
    | some r =>
      obtain ⟨raw, hraw⟩ := accept_of_drawUntil hdraw
      simp only [Option.bind_some, Option.map_some, hsum (offsetOf_lt hraw)]
      rfl

theorem toInt_valueAt {offset : Nat} (h : start ≤ stop) (hoff : offset < spanOf start stop) :
    (valueAt start offset).toInt = start.toInt + offset := by
  have hle := Int64.le_iff_toInt_le.1 h
  have hstart := start.le_toInt
  have hstop := stop.toInt_lt
  have hspan : (spanOf start stop : Int) = stop.toInt - start.toInt + 1 := Int.toNat_of_nonneg (by omega)
  exact Int64.toInt_ofInt_of_le (by omega) (by omega)

/-- The values of a range are those at its offsets. -/
theorem eq_valueAt_iff {offset : Nat} (h : start ≤ stop) (hoff : offset < spanOf start stop) :
    valueAt start offset = value ↔ start.toInt + offset = value.toInt := by
  rw [← Int64.toInt_inj, toInt_valueAt h hoff]

section Counting

variable (hspan : 0 < span) (hle : span ≤ 2 ^ 64)
include hspan hle

theorem acceptRaw_eq_some (hfull : ¬ 2 ^ 64 - 1 < span) {raw : UInt64} {offset : Nat} :
    acceptRaw (UInt64.ofNat span) raw = some offset ↔
      2 ^ 64 % span ≤ raw.toNat ∧ raw.toNat % span = offset := by
  have hnat : (UInt64.ofNat span).toNat = span := UInt64.toNat_ofNat_of_lt' (show span < 2 ^ 64 by omega)
  have hthreshold : ((-UInt64.ofNat span) % UInt64.ofNat span).toNat = 2 ^ 64 % span := by
    rw [UInt64.toNat_mod, UInt64.toNat_neg, hnat]
    show (2 ^ 64 - span) % 2 ^ 64 % span = 2 ^ 64 % span
    rw [Nat.mod_eq_of_lt (show 2 ^ 64 - span < 2 ^ 64 by omega)]
    exact (Nat.mod_eq_sub_mod hle).symm
  have hcmp : (-UInt64.ofNat span) % UInt64.ofNat span ≤ raw ↔ 2 ^ 64 % span ≤ raw.toNat := by
    rw [UInt64.le_iff_toNat_le, hthreshold]
  rw [acceptRaw]
  simp only [hcmp]
  split
  · next h => rw [Option.some.injEq, UInt64.toNat_mod, hnat, and_iff_right h]
  · next h => exact iff_of_false (fun hnone => nomatch hnone) fun hc => h hc.1

theorem offset_lt_span {raw : UInt64} {offset : Nat} (h : offsetOf span raw = some offset) : offset < span := by
  by_cases hfull : 2 ^ 64 - 1 < span
  · rw [offsetOf, if_pos hfull] at h
    cases h
    have := raw.toNat_lt
    omega
  · rw [offsetOf, if_neg hfull, acceptRaw_eq_some hspan hle hfull] at h
    exact h.2 ▸ Nat.mod_lt _ hspan

/-- Each offset is given by equally many raw outputs. -/
theorem ncard_offsetOf {offset : Nat} (hoff : offset < span) :
    {raw | offsetOf span raw = some offset}.ncard = 2 ^ 64 / span := by
  have himage : UInt64.toNat '' {raw | offsetOf span raw = some offset}
      = {raw | raw < 2 ^ 64 ∧ 2 ^ 64 % span ≤ raw ∧ raw % span = offset} := by
    have hiff : ∀ raw, offsetOf span raw = some offset ↔
        2 ^ 64 % span ≤ raw.toNat ∧ raw.toNat % span = offset := by
      intro raw
      by_cases hfull : 2 ^ 64 - 1 < span
      · obtain rfl : span = 2 ^ 64 := by omega
        rw [offsetOf, if_pos hfull, Option.some.injEq, Nat.mod_self, Nat.mod_eq_of_lt raw.toNat_lt,
          and_iff_right (Nat.zero_le _)]
      · rw [offsetOf, if_neg hfull, acceptRaw_eq_some hspan hle hfull]
    ext n
    simp only [Set.mem_image, Set.mem_ofPred_eq, hiff]
    constructor
    · rintro ⟨raw, hraw, rfl⟩
      exact ⟨raw.toNat_lt, hraw⟩
    · rintro ⟨hn, hraw⟩
      have hnat : (UInt64.ofNat n).toNat = n := UInt64.toNat_ofNat_of_lt' hn
      exact ⟨UInt64.ofNat n, by rwa [hnat], hnat⟩
  rw [← ncard_accepted hspan hoff, ← himage,
    Set.ncard_image_of_injective _ fun a b hab => UInt64.toNat_inj.1 hab]

/-- The largest raw output is never rejected. -/
theorem offsetOf_max : (offsetOf span (UInt64.ofNat (2 ^ 64 - 1))).isSome = true := by
  by_cases hfull : 2 ^ 64 - 1 < span
  · rw [offsetOf, if_pos hfull]
    rfl
  · have hnat : (UInt64.ofNat (2 ^ 64 - 1)).toNat = 2 ^ 64 - 1 := UInt64.toNat_ofNat_of_lt' (by decide)
    have hmod := Nat.mod_lt (2 ^ 64) hspan
    rw [offsetOf, if_neg hfull, ((acceptRaw_eq_some hspan hle hfull).2 ⟨by omega, rfl⟩)]
    rfl

end Counting

theorem drawn_eq (h : start < stop) (raw : UInt64) :
    drawn start stop raw = (offsetOf (spanOf start stop) raw).map (valueAt start) := by
  rw [drawn, randomRangeWith_eq _ Nat.one_pos h]
  simp only [drawUntil]
  cases offsetOf (spanOf start stop) raw <;> rfl

/-- A value is drawn where its offset is. -/
theorem drawn_eq_some_iff (h : start < stop) {raw : UInt64} :
    drawn start stop raw = some value ↔
      ∃ offset, offsetOf (spanOf start stop) raw = some offset ∧ start.toInt + offset = value.toInt := by
  obtain ⟨-, -, hspan, hle⟩ := span_eq h
  rw [drawn_eq h, Option.map_eq_some_iff]
  refine exists_congr fun offset => and_congr_right fun hoff => ?_
  exact eq_valueAt_iff (Int64.le_of_lt h) (offset_lt_span hspan hle hoff)

theorem drawn_self {raw : UInt64} : drawn start start raw = some start := by
  rw [drawn, randomRangeWith, if_pos Int64.le_rfl]
  rfl

/-- A drawn value is in the range. -/
theorem drawn_mem (h : start ≤ stop) {raw : UInt64} (hv : drawn start stop raw = some value) :
    start ≤ value ∧ value ≤ stop := by
  obtain heq | hlt := Int64.le_iff_lt_or_eq.1 h |>.symm
  · subst heq
    obtain rfl := Option.some.inj (drawn_self.symm.trans hv)
    exact ⟨h, h⟩
  · obtain ⟨-, -, hspan, hle⟩ := span_eq hlt
    obtain ⟨offset, hoff, hval⟩ := (drawn_eq_some_iff hlt).1 hv
    have hbound := offset_lt_span hspan hle hoff
    have hlt := Int64.lt_iff_toInt_lt.1 hlt
    rw [spanOf] at hbound
    exact ⟨Int64.le_iff_toInt_le.2 (by omega), Int64.le_iff_toInt_le.2 (by omega)⟩

/-- Each value of a range is drawn from equally many raw outputs. -/
theorem ncard_drawn (h : start ≤ stop) (hv : start ≤ value) (hv' : value ≤ stop) :
    {raw | drawn start stop raw = some value}.ncard = 2 ^ 64 / spanOf start stop := by
  have hle := Int64.le_iff_toInt_le.1 hv
  have hle' := Int64.le_iff_toInt_le.1 hv'
  obtain heq | hlt := Int64.le_iff_lt_or_eq.1 h |>.symm
  · -- A range of one integer is not drawn from: every raw output leaves it.
    subst heq
    obtain rfl : start = value := Int64.toInt_inj.1 (by omega)
    have hspan : spanOf start start = 1 := by rw [spanOf, Int.sub_self]; rfl
    have hoff : ∀ raw, offsetOf 1 raw = some 0 := fun raw => by
      rw [offsetOf, if_neg (by decide), acceptRaw_eq_some (by decide) (by decide) (by decide)]
      exact ⟨by rw [Nat.mod_one]; exact Nat.zero_le _, Nat.mod_one _⟩
    rw [hspan, ← ncard_offsetOf Nat.one_pos (by decide) Nat.one_pos]
    simp only [drawn_self, hoff]
  · obtain ⟨-, -, hspan, hspan'⟩ := span_eq hlt
    have hoff : (value.toInt - start.toInt).toNat < spanOf start stop := by rw [spanOf]; omega
    rw [← ncard_offsetOf hspan hspan' hoff]
    congr 1
    ext raw
    rw [Set.mem_ofPred_eq, Set.mem_ofPred_eq, drawn_eq_some_iff hlt]
    constructor
    · rintro ⟨offset, hraw, hval⟩
      rw [hraw]
      congr 1
      omega
    · intro hraw
      exact ⟨_, hraw, by omega⟩

/-- **Bounded random integers.** From every state a draw from a range that is not empty ends, without
    overflow, in a value of the range: the value that the first accepted raw output gives. Each value of the
    range is given by the same number of the `2 ^ 64` raw outputs. -/
theorem random_range_unbiased (rng : VmRng) (start stop : Int64) (h : start ≤ stop) :
    (∃ value rng', rng.randomRangeI64 (2 ^ 64) start stop = some (value, rng') ∧
      start ≤ value ∧ value ≤ stop ∧
      (start = stop ∧ rng' = rng ∨
        ∃ n < 2 ^ 64, (∀ m < n, drawn start stop (output nextU64 m rng) = none) ∧
          drawn start stop (output nextU64 n rng) = some value ∧ rng' = after nextU64 (n + 1) rng)) ∧
    (∀ raw value, drawn start stop raw = some value → start ≤ value ∧ value ≤ stop) ∧
    ∀ value, start ≤ value → value ≤ stop →
      {raw | drawn start stop raw = some value}.ncard = 2 ^ 64 / spanOf start stop := by
  refine ⟨?_, fun raw value => drawn_mem h, fun value => ncard_drawn h⟩
  obtain heq | hlt := Int64.le_iff_lt_or_eq.1 h |>.symm
  · subst heq
    exact ⟨start, rng, if_pos h, h, h, .inl ⟨rfl, rfl⟩⟩
  obtain ⟨-, -, hspan, hle⟩ := span_eq hlt
  obtain ⟨k, hk, hmax⟩ := exists_output_eq rng (UInt64.ofNat (2 ^ 64 - 1))
  obtain ⟨n, hn, offset, hrej, hacc, hdraw⟩ := drawUntil_of_accepted
    ⟨k, hk, by rw [hmax]; exact offsetOf_max hspan hle⟩
  have hvalue : drawn start stop (output nextU64 n rng) = some (valueAt start offset) := by
    rw [drawn_eq hlt, hacc]
    rfl
  obtain ⟨hstart, hstop⟩ := drawn_mem h hvalue
  refine ⟨valueAt start offset, after nextU64 (n + 1) rng, ?_, hstart, hstop, .inr ⟨n, hn, ?_, hvalue, rfl⟩⟩
  · rw [randomRangeI64, randomRangeWith_eq _ (by decide) hlt, hdraw]
    rfl
  · intro m hm
    rw [drawn_eq hlt, hrej m hm]
    rfl

theorem random_range_unbiased_die :
    ∃ value rng', (⟨0⟩ : VmRng).randomRangeI64 (2 ^ 64) 1 6 = some (value, rng') ∧ 1 ≤ value ∧ value ≤ 6 :=
  (random_range_unbiased ⟨0⟩ 1 6 (by decide)).1.imp fun _ h => h.imp fun _ h => ⟨h.1, h.2.1, h.2.2.1⟩

end VmRng

end Dellingr
