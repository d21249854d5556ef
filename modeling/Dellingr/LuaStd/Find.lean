import Dellingr.Patterns.Match

/-!
# Plain search

`string.find` searches for a string that has no magic byte without the matcher
(`scanSubslice`). The scan jumps to the next occurrence of the first byte and charges the
comparisons it makes in bulk, a unit each. It polls the interrupt of the host once for every
candidate.

The scan cannot be told from one that compares and charges byte by byte at every position
(`naiveFind`): it finds the same position and leaves the same meter, and a finite budget runs out
at the same comparison (`findSubslice_naive`).
-/

namespace Dellingr

open Effect Patterns

/-- A scan of bytes on a meter, with the interrupt at hand. -/
abbrev Scan := Effect Clock MatchError

section Scan

variable (interrupt : Nat → Bool)

/-- Charge so many units as one operation. -/
def chargeOnce (units : Nat) : Scan Unit := do
  let clock ← get
  let (admitted, meter) := clock.meter.consume (saturatingMul (.ofNat units) clock.meter.unit)
  modify fun clock => { clock with meter }
  if admitted then return () else fail .budgetExceeded

/-- Charge units of work one at a time, as many as the budget admits. -/
def chargeUnits (n : Nat) : Scan Unit := do
  let clock ← get
  let (admitted, meter) := clock.meter.consumeUnitsAdmitted (.ofNat n)
  modify fun clock => { clock with meter }
  if admitted = .ofNat n then return () else fail .budgetExceeded

/-- Fail while the interrupt of the host is set. -/
def pollInterrupt : Scan Unit := do
  let clock ← get
  modify fun clock => { clock with polls := clock.polls + 1 }
  if interrupt clock.polls then fail .interrupted else return ()

/-- How many bytes of a window are those of the needle, up to the first that differs. -/
def commonPrefix (window needle : List UInt8) : Nat :=
  ((window.zip needle).takeWhile fun (hay, need) => hay == need).length

/-- Scan the start positions from `start` to `lastStart`. -/
def scanLoop (haystack needle : List UInt8) (first : UInt8) (lastStart start : Nat) :
    Scan (Option Nat) :=
  if _h : start ≤ lastStart then do
    require (lastStart < haystack.length)
    match ((haystack.drop start).take (lastStart + 1 - start)).findIdx? (· == first) with
    | none =>
      chargeUnits (lastStart - start + 1)
      return none
    | some offset =>
      chargeUnits offset
      pollInterrupt interrupt
      let cand := start + offset
      require (cand + needle.length ≤ haystack.length)
      let window := (haystack.drop cand).take needle.length
      let common := commonPrefix window needle
      if common = needle.length then
        chargeUnits needle.length
        return some cand
      else
        chargeUnits (common + 1)
        scanLoop haystack needle first lastStart (cand + 1)
  else return none
termination_by lastStart + 1 - start

/-- The first occurrence of the needle. -/
def scanSubslice (haystack needle : List UInt8) : Scan (Option Nat) :=
  match needle with
  | [] => return some 0
  | first :: _ =>
    if haystack.length < needle.length then return none
    else scanLoop interrupt haystack needle first (haystack.length - needle.length) 0

/-- The first occurrence of the needle from a position on, counted from there. -/
def findSubslice (haystack : List UInt8) (start : Nat) (needle : List UInt8) : Scan (Option Nat) := do
  require (start ≤ haystack.length)
  scanSubslice interrupt (haystack.drop start) needle

end Scan

/-- Charging nothing is never refused. -/
theorem chargeOnce_zero (clock : Clock) : chargeOnce 0 clock = .ok () clock := by
  have hzero : ∀ m : CostMeter, m.consume (saturatingMul (.ofNat 0) m.unit) = (true, m) := by
    intro m
    have hmul : saturatingMul (.ofNat 0) m.unit = 0 := by
      rw [CostMeter.saturatingMul_eq_unitsCost]
      exact CostMeter.unitsCost_zero
    rw [hmul]
    rcases m with _ | ⟨used, unit⟩ | ⟨remaining, used, unit⟩
    · rfl
    · rw [CostMeter.consume, saturatingAdd_zero]
    · rw [CostMeter.consume, if_neg (by simp), saturatingAdd_zero, saturatingSubUnsigned_zero]
  rw [chargeOnce, run_get_bind, hzero]
  rfl

theorem chargeOnce_one (clock : Clock) :
    chargeOnce 1 clock =
      match clock.meter.consume clock.meter.unit with
      | (true, meter) => .ok () { clock with meter }
      | (false, meter) => .fail .budgetExceeded { clock with meter } := by
  have hmul : saturatingMul (.ofNat 1) clock.meter.unit = clock.meter.unit := by
    rw [CostMeter.saturatingMul_eq_unitsCost]
    exact CostMeter.unitsCost_one
  rw [chargeOnce, run_get_bind, hmul]
  rcases clock.meter.consume clock.meter.unit with ⟨_ | _, meter⟩ <;> rfl

/-! ## The naive scan -/

/-- A scan of bytes on a meter alone. -/
abbrev NaiveScan := Effect CostMeter MatchError

/-- Charge a unit. -/
def chargeOne : NaiveScan Unit := fun m =>
  match m.consume m.unit with
  | (true, m) => .ok () m
  | (false, m) => .fail .budgetExceeded m

/-- Compare a needle with the bytes at a position, up to the first that differs. -/
def compareEach : List UInt8 → List UInt8 → NaiveScan Bool
  | _, [] => return true
  | [], _ :: _ => panic
  | hay :: haystack, need :: needle => do
    chargeOne
    if hay ≠ need then return false else compareEach haystack needle

/-- Try so many start positions. -/
def naiveLoop (haystack needle : List UInt8) : Nat → Nat → NaiveScan (Option Nat)
  | 0, _ => return none
  | n + 1, start => do
    if ← compareEach (haystack.drop start) needle then return some start
    else naiveLoop haystack needle n (start + 1)

/-- The first occurrence of the needle, comparing and charging byte by byte. -/
def naiveFind (haystack needle : List UInt8) : NaiveScan (Option Nat) :=
  if needle = [] then return some 0
  else if haystack.length < needle.length then return none
  else naiveLoop haystack needle (haystack.length - needle.length + 1) 0

/-- Charge so many units one after the other. -/
def chargeEach : Nat → NaiveScan Unit
  | 0 => return ()
  | n + 1 => do
    chargeOne
    chargeEach n

section Naive

variable {haystack needle : List UInt8} {start : Nat}

theorem chargeEach_add (m n : Nat) :
    chargeEach (m + n) = chargeEach m >>= fun _ => chargeEach n := by
  induction m with
  | zero => rw [Nat.zero_add, chargeEach, pure_bind]
  | succ m ih => rw [Nat.succ_add, chargeEach, chargeEach, ih, bind_assoc]

theorem commonPrefix_cons (hay need : UInt8) :
    commonPrefix (hay :: haystack) (need :: needle) =
      if hay = need then commonPrefix haystack needle + 1 else 0 := by
  rw [commonPrefix, List.zip_cons_cons, List.takeWhile_cons]
  by_cases heq : hay = need
  · simp only [heq, beq_self_eq_true, ↓reduceIte, List.length_cons]
    rfl
  · simp only [beq_false_of_ne heq, heq, Bool.false_eq_true, ↓reduceIte, List.length_nil]

theorem commonPrefix_le (haystack needle : List UInt8) :
    commonPrefix haystack needle ≤ needle.length := by
  have h := (@List.takeWhile_prefix _ (haystack.zip needle) fun (hay, need) => hay == need).length_le
  rw [List.length_zip] at h
  exact Nat.le_trans h (Nat.min_le_right _ _)

/-- A comparison makes one charge for each byte in common, and one for the first that differs. -/
theorem compareEach_eq (h : needle.length ≤ haystack.length) :
    compareEach haystack needle =
      if commonPrefix (haystack.take needle.length) needle = needle.length then
        chargeEach needle.length >>= fun _ => pure true
      else
        chargeEach (commonPrefix (haystack.take needle.length) needle + 1) >>= fun _ => pure false := by
  induction needle generalizing haystack with
  | nil => cases haystack <;> rfl
  | cons need needle ih =>
    cases haystack with
    | nil => exact absurd h (Nat.not_succ_le_zero _)
    | cons hay haystack =>
      rw [compareEach]
      simp only [List.length_cons, List.take_succ_cons, commonPrefix_cons]
      by_cases heq : hay = need
      · simp only [heq, ne_eq, not_true, ↓reduceIte, ih (Nat.le_of_succ_le_succ h), Nat.succ.injEq]
        split
        · conv_rhs => rw [chargeEach, bind_assoc]
        · conv_rhs => rw [chargeEach, bind_assoc]
      · simp only [ne_eq, heq, not_false_eq_true, ↓reduceIte]
        rw [if_neg (Nat.succ_ne_zero _).symm, chargeEach, chargeEach, bind_assoc, pure_bind]

/-- Start positions without the first byte of the needle are charged once and passed. -/
theorem naiveLoop_skip {first : UInt8} {rest : List UInt8} {offset n : Nat}
    (hl : start + offset ≤ haystack.length)
    (h : ∀ i < offset, haystack[start + i]? ≠ some first) :
    naiveLoop haystack (first :: rest) (offset + n) start =
      chargeEach offset >>= fun _ => naiveLoop haystack (first :: rest) n (start + offset) := by
  induction offset generalizing start with
  | zero => rw [Nat.zero_add, chargeEach, pure_bind, Nat.add_zero]
  | succ offset ih =>
    have hlt : start < haystack.length := by omega
    have hne : haystack[start] ≠ first := fun heq => h 0 (Nat.succ_pos _)
      ((List.getElem?_eq_getElem hlt).trans (congrArg some heq))
    have hskip := @ih (start + 1) (by omega) fun i hi => by
      have := h (i + 1) (Nat.succ_lt_succ hi)
      rwa [Nat.add_comm i 1, ← Nat.add_assoc] at this
    rw [Nat.succ_add, naiveLoop, List.drop_eq_getElem_cons hlt, compareEach]
    simp only [ne_eq, hne, not_false_eq_true, ↓reduceIte, bind_assoc, pure_bind, Bool.false_eq_true]
    rw [hskip, chargeEach, bind_assoc, Nat.add_right_comm, Nat.add_assoc]

end Naive

/-! ## The scan simulates the naive one -/

/-- A scan ends as a naive one does, with the same meter, unless the interrupt is set at a poll. -/
def Simulates {α : Type} (interrupt : Nat → Bool) (m : Scan α) (naive : NaiveScan α) : Prop :=
  ∀ clock, match m clock with
    | .ok a clock' => naive clock.meter = .ok a clock'.meter
    | .fail e clock' => naive clock.meter = .fail e clock'.meter ∨
      e = .interrupted ∧ ∃ poll < clock'.polls, interrupt poll = true
    | .panic | .timeout => False

section Simulation

variable {α β : Type} {interrupt : Nat → Bool} {m : Scan α} {naive : NaiveScan α}

theorem simulates_pure (a : α) : Simulates interrupt (pure a) (pure a) := fun _ => rfl

theorem Simulates.bind {f : α → Scan β} {g : α → NaiveScan β} (h : Simulates interrupt m naive)
    (hf : ∀ a, Simulates interrupt (f a) (g a)) :
    Simulates interrupt (m >>= f) (naive >>= g) := by
  intro clock
  have hm := h clock
  cases hr : m clock with
  | ok a clock' =>
    rw [hr] at hm
    rw [run_bind_of_ok hr, run_bind_of_ok hm]
    exact hf a clock'
  | fail e clock' =>
    rw [hr] at hm
    rw [run_bind_of_fail hr]
    exact hm.imp_left run_bind_of_fail
  | panic =>
    rw [hr] at hm
    exact hm.elim
  | timeout =>
    rw [hr] at hm
    exact hm.elim

theorem chargeEach_eq (n : Nat) (meter : CostMeter) :
    chargeEach n meter =
      if (CostMeter.consumeEach meter.unit n meter).1 = n then
        .ok () (CostMeter.consumeEach meter.unit n meter).2
      else .fail .budgetExceeded (CostMeter.consumeEach meter.unit n meter).2 := by
  induction n generalizing meter with
  | zero => rfl
  | succ n ih =>
    have hunit := meter.unit_consume meter.unit
    rw [chargeEach, CostMeter.consumeEach]
    rcases hm : meter.consume meter.unit with ⟨_ | _, meter'⟩
    · have hone : chargeOne meter = .fail .budgetExceeded meter' := by rw [chargeOne, hm]
      rw [run_bind_of_fail hone]
      exact (if_neg (Nat.succ_ne_zero n).symm).symm
    · have hone : chargeOne meter = .ok () meter' := by rw [chargeOne, hm]
      rw [hm] at hunit
      rw [run_bind_of_ok hone, ih, show meter'.unit = meter.unit from hunit]
      simp only [Nat.succ.injEq]

theorem chargeUnits_eq {n : Nat} (hn : n < 2 ^ 64) (clock : Clock) :
    chargeUnits n clock =
      if (CostMeter.consumeEach clock.meter.unit n clock.meter).1 = n then
        .ok () { clock with meter := (CostMeter.consumeEach clock.meter.unit n clock.meter).2 }
      else .fail .budgetExceeded
        { clock with meter := (CostMeter.consumeEach clock.meter.unit n clock.meter).2 } := by
  have hle := (@CostMeter.consumeEach_times clock.meter.unit n clock.meter).1
  have hnat : (UInt64.ofNat n).toNat = n := UInt64.toNat_ofNat_of_lt' hn
  have heq := clock.meter.consumeUnitsAdmitted_eq clock.meter.unit (.ofNat n)
  rw [CostMeter.withUnit_unit, hnat] at heq
  have hiff : UInt64.ofNat (CostMeter.consumeEach clock.meter.unit n clock.meter).1 = .ofNat n ↔
      (CostMeter.consumeEach clock.meter.unit n clock.meter).1 = n := by
    rw [← UInt64.toNat_inj, hnat, UInt64.toNat_ofNat_of_lt' (Nat.lt_of_le_of_lt hle hn)]
  rw [chargeUnits, run_get_bind, heq]
  simp only [hiff]
  split <;> rfl

/-- Charging in bulk is charging one unit after the other. -/
theorem simulates_chargeUnits {n : Nat} (hn : n < 2 ^ 64) :
    Simulates interrupt (chargeUnits n) (chargeEach n) := by
  intro clock
  rw [chargeUnits_eq hn, chargeEach_eq]
  by_cases hall : (CostMeter.consumeEach clock.meter.unit n clock.meter).1 = n
  · simp only [if_pos hall]
  · simp only [if_neg hall, true_or]

theorem simulates_pollInterrupt : Simulates interrupt (pollInterrupt interrupt) (pure ()) := by
  intro clock
  have hrun : pollInterrupt interrupt clock =
      (if interrupt clock.polls then fail .interrupted else pure () : Scan Unit)
        { clock with polls := clock.polls + 1 } := rfl
  rw [hrun]
  by_cases hi : interrupt clock.polls = true
  · rw [if_pos hi]
    exact .inr ⟨rfl, clock.polls, Nat.lt_succ_self _, hi⟩
  · rw [if_neg hi]
    rfl

/-- A poll of the interrupt charges nothing. -/
theorem Simulates.poll {f : Unit → Scan α} (h : Simulates interrupt (f ()) naive) :
    Simulates interrupt (pollInterrupt interrupt >>= f) naive := by
  rw [← pure_bind () fun _ => naive]
  exact simulates_pollInterrupt.bind fun _ => h

variable {haystack needle : List UInt8} {first : UInt8} {rest : List UInt8}

/-- From every start position on the scan finds what the naive one finds. -/
theorem simulates_scanLoop {lastStart start : Nat} (hn : needle = first :: rest)
    (hlast : lastStart + needle.length = haystack.length) (hl : haystack.length < 2 ^ 64) :
    Simulates interrupt (scanLoop interrupt haystack needle first lastStart start)
      (naiveLoop haystack needle (lastStart + 1 - start) start) := by
  have hpos : 0 < needle.length := by rw [hn]; exact Nat.succ_pos _
  rw [scanLoop]
  split
  · rename_i hle
    rw [require, if_pos (by omega), pure_bind]
    split
    · -- The first byte does not occur.
      rename_i hnone
      rw [List.findIdx?_eq_none_iff] at hnone
      have hskip := @naiveLoop_skip haystack start first rest (lastStart + 1 - start) 0 (by omega)
        fun i hi hb => by
          obtain ⟨hlt, hbyte⟩ := List.getElem?_eq_some_iff.1 hb
          have hmem : first ∈ (haystack.drop start).take (lastStart + 1 - start) := by
            rw [List.mem_take_iff_getElem]
            exact ⟨i, by rw [List.length_drop]; omega, by rw [List.getElem_drop]; exact hbyte⟩
          cases (hnone first hmem).symm.trans (beq_self_eq_true first)
      rw [Nat.add_zero, ← hn] at hskip
      rw [hskip, show lastStart - start + 1 = lastStart + 1 - start by omega]
      exact (simulates_chargeUnits (by omega)).bind fun _ => simulates_pure none
    · rename_i offset hsome
      obtain ⟨hlt, hfirst, hbefore⟩ := List.findIdx?_eq_some_iff_getElem.1 hsome
      rw [List.length_take, List.length_drop] at hlt
      have hskip := @naiveLoop_skip haystack start first rest offset (lastStart + 1 - start - offset)
        (by omega) fun i hi hb => by
          obtain ⟨hlt', hbyte⟩ := List.getElem?_eq_some_iff.1 hb
          refine hbefore i hi (beq_iff_eq.2 ?_)
          rw [List.getElem_take, List.getElem_drop]
          exact hbyte
      rw [← hn, show offset + (lastStart + 1 - start - offset) = lastStart + 1 - start by omega,
        show lastStart + 1 - start - offset = lastStart + 1 - (start + offset + 1) + 1 by omega] at hskip
      rw [hskip, naiveLoop, compareEach_eq (by rw [List.length_drop]; omega)]
      refine (simulates_chargeUnits (by omega)).bind fun _ => .poll ?_
      simp only [require]
      rw [if_pos (show start + offset + needle.length ≤ haystack.length by omega), pure_bind]
      split
      · simp only [bind_assoc, pure_bind, ↓reduceIte]
        exact (simulates_chargeUnits (by omega)).bind fun _ => simulates_pure _
      · rename_i hcommon
        have hle := commonPrefix_le ((haystack.drop (start + offset)).take needle.length) needle
        simp only [bind_assoc, pure_bind, Bool.false_eq_true, ↓reduceIte]
        exact (simulates_chargeUnits (by omega)).bind fun _ => simulates_scanLoop hn hlast hl
  · rename_i hgt
    rw [show lastStart + 1 - start = 0 by omega]
    exact simulates_pure none
termination_by lastStart + 1 - start

theorem simulates_scanSubslice (hl : haystack.length < 2 ^ 64) :
    Simulates interrupt (scanSubslice interrupt haystack needle) (naiveFind haystack needle) := by
  rw [naiveFind]
  cases needle with
  | nil => exact simulates_pure _
  | cons first rest =>
    rw [scanSubslice, if_neg (List.cons_ne_nil _ _)]
    split
    · exact simulates_pure none
    · exact simulates_scanLoop rfl (by omega) hl

theorem simulates_findSubslice {start : Nat} (hs : start ≤ haystack.length)
    (hl : haystack.length < 2 ^ 64) :
    Simulates interrupt (findSubslice interrupt haystack start needle)
      (naiveFind (haystack.drop start) needle) := by
  rw [findSubslice, require, if_pos hs, pure_bind]
  refine simulates_scanSubslice ?_
  rw [List.length_drop]
  omega

end Simulation

/-- The scan finds what the naive scan finds that compares and charges byte by byte, or finds
    nothing where it does, and leaves the same meter; a budget runs out in the same cases, with
    the same use. -/
theorem findSubslice_naive (haystack needle : List UInt8) (start : Nat)
    (hs : start ≤ haystack.length) (hl : haystack.length < 2 ^ 64) (interrupt : Nat → Bool) :
    Simulates interrupt (findSubslice interrupt haystack start needle)
      (naiveFind (haystack.drop start) needle) := simulates_findSubslice hs hl

theorem findSubslice_naive_letters :
    Simulates (fun _ => false) (findSubslice (fun _ => false) ("xaab".toList.map ascii) 1 [ascii 'a', ascii 'b'])
      (naiveFind (("xaab".toList.map ascii).drop 1) [ascii 'a', ascii 'b']) :=
  findSubslice_naive _ _ 1 (by decide) (by decide) _

end Dellingr
