import Dellingr.CostModel

/-!
# The cost meter

Runtime accounting: how much cost was used, and an optional budget with what
remains of it (`CostState`). Charges are made through a meter that borrows the
counters (`CostMeter`): atomic ones, which may cross the budget once, and ones
made unit by unit, which stop at the first unit that finds nothing left
(`consumeUnitsAdmitted_eq`).

Whatever sequence of operations led to a state (`CostState.Reachable`), a
configured budget has the limit less the use remaining, and a budget that
started exhausted was never used. These are the states a snapshot may restore
(`CostState.Consistent`, `consistent_iff_reachable`).
-/

namespace Dellingr

/-- A configured budget. -/
structure Budget where
  limit : Int64
  remaining : Int64
  deriving DecidableEq

/-- The accounting of a state. -/
structure CostState where
  costing : Costing
  /-- The weights charge sites read: every weight 0 when costing is off. -/
  effective : CostModel
  budget : Option Budget
  used : UInt64
  deriving DecidableEq

/-- A meter on borrowed counters, with the cost of a unit of work. -/
inductive CostMeter
  | off
  | countOnly (used unit : UInt64)
  | finiteBudget (remaining : Int64) (used unit : UInt64)

namespace CostMeter

/-- The meter with another cost of a unit. -/
def withUnit (unit : UInt64) : CostMeter → CostMeter
  | off => off
  | countOnly used _ => countOnly used unit
  | finiteBudget remaining used _ => finiteBudget remaining used unit

/-- The cost of a unit. -/
def unit : CostMeter → UInt64
  | off => 0
  | countOnly _ unit | finiteBudget _ _ unit => unit

/-- Nothing remains of a finite budget. -/
def Exhausted (m : CostMeter) : Prop :=
  ∃ remaining used unit, m = finiteBudget remaining used unit ∧ remaining ≤ 0

/-- Charge units of work one at a time: how many were admitted. -/
def consumeUnitsAdmitted (n : UInt64) : CostMeter → UInt64 × CostMeter
  | off => (n, off)
  | countOnly used unit => (n, countOnly (saturatingAdd used (saturatingMul n unit)) unit)
  | finiteBudget remaining used unit =>
    if n = 0 ∨ unit = 0 then (n, finiteBudget remaining used unit)
    else if remaining ≤ 0 then (0, finiteBudget remaining used unit)
    else
      -- The units that start with budget left.
      let startable := divCeil remaining.toUInt64 unit
      let allowed := min n startable
      let cost := saturatingMul allowed unit
      (allowed, finiteBudget (saturatingSubUnsigned remaining cost) (saturatingAdd used cost) unit)

/-- Charge a cost: whether it was admitted. -/
def consume (cost : UInt64) : CostMeter → Bool × CostMeter
  | off => (true, off)
  | countOnly used unit => (true, countOnly (saturatingAdd used cost) unit)
  | finiteBudget remaining used unit =>
    if 0 < cost ∧ remaining ≤ 0 then (false, finiteBudget remaining used unit)
    else (true, finiteBudget (saturatingSubUnsigned remaining cost) (saturatingAdd used cost) unit)

end CostMeter

namespace CostState

/-- Fresh counters with no budget. -/
def new (costing : Costing) : CostState where
  costing := costing
  effective := match costing with
    | .metered model => model
    | .off => .zero
  budget := none
  used := 0

/-- The weight of one unit of a charge. -/
def weight (s : CostState) (charge : Charge) : UInt64 := (s.effective.weight charge).toUInt64

/-- The cost of so many units of a charge. -/
def cost (s : CostState) (charge : Charge) (units : UInt64) : UInt64 :=
  s.effective.cost charge units

/-- Set a finite budget and zero the use. Refused when costing is off. -/
def setBudget (limit : Int64) (s : CostState) : Bool × CostState :=
  match s.costing with
  | .off => (false, s)
  | .metered _ => (true, { s with budget := some ⟨limit, limit⟩, used := 0 })

/-- What remains of the budget, the greatest integer when there is none. -/
def remaining (s : CostState) : Int64 := s.budget.elim Int64.maxValue Budget.remaining

/-- The limit of the budget, the greatest integer when there is none. -/
def limit (s : CostState) : Int64 := s.budget.elim Int64.maxValue Budget.limit

/-- Whether a pending cost would exhaust the budget. -/
def batchNeedsFlush (pending : UInt64) (s : CostState) : Bool :=
  match s.budget with
  | some budget => saturatingSubUnsigned budget.remaining pending ≤ 0
  | none => false

/-- A meter of raw cost. -/
def meter (s : CostState) : CostMeter :=
  match s.costing with
  | .off => .off
  | .metered _ =>
    match s.budget with
    | some budget => .finiteBudget budget.remaining s.used 1
    | none => .countOnly s.used 1

/-- The counters a meter borrowed, given back. -/
def settle (s : CostState) : CostMeter → CostState
  | .off => s
  | .countOnly used _ => { s with used := used }
  | .finiteBudget remaining used _ =>
    { s with budget := s.budget.map fun budget => { budget with remaining := remaining }, used := used }

/-- Charge a raw cost. -/
def consume (cost : UInt64) (s : CostState) : Bool × CostState :=
  let (admitted, meter) := s.meter.consume cost
  (admitted, s.settle meter)

/-- Charge units of a charge one at a time: how many were admitted. -/
def consumeUnitsAdmitted (charge : Charge) (n : UInt64) (s : CostState) : UInt64 × CostState :=
  let (admitted, meter) := (s.meter.withUnit (s.weight charge)).consumeUnitsAdmitted n
  (admitted, s.settle meter)

/-- The fields a snapshot saves. -/
def snapshotFields (s : CostState) : Int64 × Int64 × Bool × UInt64 :=
  (s.remaining, s.limit, s.budget.isSome, s.used)

/-- The accounting restored from the fields of a snapshot, where the runtime can
    reach them. -/
def fromSnapshot (costing : Costing) (remaining limit : Int64) (configured : Bool)
    (used : UInt64) : Option CostState := do
  let budget ← if configured then
      if (limit ≤ 0 ∧ used ≠ 0) ∨ remaining ≠ saturatingSubUnsigned limit used then none
      else some (some ⟨limit, remaining⟩)
    else if remaining ≠ Int64.maxValue ∨ limit ≠ Int64.maxValue then none
    else some none
  if costing = .off ∧ (budget.isSome ∨ used ≠ 0) then none
  else some { new costing with budget := budget, used := used }

/-! ## The dispatch loop's batch -/

/-- Charge a full batch. -/
def settleCost (next pending : UInt64) (s : CostState) : Bool × UInt64 × CostState :=
  match s.consume next with
  | (true, s) => (true, 0, s)
  | (false, s) => (false, pending, s)

/-- Add the cost of an instruction to the pending batch, and charge the batch
    when it is full or would exhaust the budget. -/
def addCost (interval cost pending : UInt64) (s : CostState) : Bool × UInt64 × CostState :=
  let next := saturatingAdd pending cost
  if interval ≤ next ∨ s.batchNeedsFlush next then s.settleCost next pending
  else (true, next, s)

/-- Settle the pending batch before control leaves the frame. -/
def flushLocalCost (pending : UInt64) (s : CostState) : Bool × UInt64 × CostState :=
  if 0 < pending then s.settleCost pending pending else (true, pending, s)

end CostState

/-! ## Unit charges -/

namespace CostMeter

variable {unit used : UInt64} {remaining : Int64}

theorem withUnit_unit (m : CostMeter) : m.withUnit m.unit = m := by
  cases m <;> rfl

@[simp] theorem unit_consume (m : CostMeter) (cost : UInt64) : (m.consume cost).2.unit = m.unit := by
  rcases m with _ | ⟨used, unit⟩ | ⟨remaining, used, unit⟩
  · rfl
  · rfl
  · rw [consume]
    split
    · rfl
    · rfl

/-- Charge units one at a time, up to the first that is refused. -/
def consumeEach (unit : UInt64) : Nat → CostMeter → Nat × CostMeter
  | 0, m => (0, m)
  | n + 1, m =>
    match m.consume unit with
    | (true, m) => ((consumeEach unit n m).1 + 1, (consumeEach unit n m).2)
    | (false, m) => (0, m)

/-- The cost of so many units. -/
def unitsCost (unit : UInt64) (n : Nat) : UInt64 := .ofNat (min (n * unit.toNat) (2 ^ 64 - 1))

theorem toNat_unitsCost (n : Nat) :
    (unitsCost unit n).toNat = min (n * unit.toNat) (2 ^ 64 - 1) :=
  UInt64.toNat_ofNat_of_lt' (by rw [UInt64.size]; omega)

theorem unitsCost_zero : unitsCost unit 0 = 0 := by
  rw [← UInt64.toNat_inj, toNat_unitsCost, UInt64.toNat_zero]
  omega

theorem unitsCost_succ (n : Nat) : unitsCost unit (n + 1) = saturatingAdd unit (unitsCost unit n) := by
  rw [← UInt64.toNat_inj, toNat_saturatingAdd, toNat_unitsCost, toNat_unitsCost, Nat.succ_mul]
  omega

theorem unitsCost_one : unitsCost unit 1 = unit := by
  rw [unitsCost_succ, unitsCost_zero, saturatingAdd_zero]

theorem saturatingMul_eq_unitsCost (n : UInt64) : saturatingMul n unit = unitsCost unit n.toNat := rfl

theorem toNat_min (m n : UInt64) : (min m n).toNat = min m.toNat n.toNat := by
  show (if m ≤ n then m else n).toNat = _
  split
  · rename_i h
    rw [Nat.min_eq_left (UInt64.le_iff_toNat_le.1 h)]
  · rename_i h
    rw [UInt64.le_iff_toNat_le] at h
    rw [Nat.min_eq_right (by omega)]

theorem consumeEach_off (n : Nat) : consumeEach unit n off = (n, off) := by
  induction n with
  | zero => rfl
  | succ n ih => simp only [consumeEach, consume, ih]

theorem consumeEach_countOnly (n : Nat) :
    consumeEach unit n (countOnly used unit) =
      (n, countOnly (saturatingAdd used (unitsCost unit n)) unit) := by
  induction n generalizing used with
  | zero => rw [consumeEach, unitsCost_zero, saturatingAdd_zero]
  | succ n ih => simp only [consumeEach, consume, ih, unitsCost_succ, saturatingAdd_assoc]

/-- No unit is admitted once nothing remains. -/
theorem consumeEach_exhausted (hu : 0 < unit) (hr : remaining ≤ 0) (n : Nat) :
    consumeEach unit n (finiteBudget remaining used unit) =
      (0, finiteBudget remaining used unit) := by
  cases n with
  | zero => rfl
  | succ n => simp only [consumeEach, consume, hu, hr, and_self, ↓reduceIte]

/-- Free units are all admitted. -/
theorem consumeEach_free (n : Nat) :
    consumeEach 0 n (finiteBudget remaining used 0) = (n, finiteBudget remaining used 0) := by
  induction n with
  | zero => rfl
  | succ n ih =>
    simp only [consumeEach, consume, UInt64.lt_irrefl, false_and, ↓reduceIte,
      saturatingSubUnsigned_zero, saturatingAdd_zero, ih]

/-- The units that start with budget left are admitted. -/
theorem consumeEach_finiteBudget (hu : 0 < unit.toNat) (n : Nat) (hr : 0 < remaining.toInt) :
    consumeEach unit n (finiteBudget remaining used unit) =
      let allowed := min n ((remaining.toInt.toNat + (unit.toNat - 1)) / unit.toNat)
      (allowed, finiteBudget (saturatingSubUnsigned remaining (unitsCost unit allowed))
        (saturatingAdd used (unitsCost unit allowed)) unit) := by
  induction n generalizing remaining used with
  | zero => simp only [consumeEach, Nat.zero_min, unitsCost_zero, saturatingSubUnsigned_zero,
      saturatingAdd_zero]
  | succ n ih =>
    have hadmit : ¬(0 < unit ∧ remaining ≤ 0) := by
      rintro ⟨-, hle⟩
      rw [Int64.le_iff_toInt_le] at hle
      exact absurd hr (not_lt.2 hle)
    have hsub := toInt_saturatingSubUnsigned (a := remaining) (n := unit)
    simp only [consumeEach, consume, if_neg hadmit]
    by_cases hr' : 0 < (saturatingSubUnsigned remaining unit).toInt
    · -- Budget is left after the first unit.
      have hdiv : (remaining.toInt.toNat + (unit.toNat - 1)) / unit.toNat =
          ((saturatingSubUnsigned remaining unit).toInt.toNat + (unit.toNat - 1)) / unit.toNat + 1 := by
        rw [← Nat.add_div_right _ hu]
        congr 1
        omega
      rw [ih hr', hdiv]
      simp only [Nat.succ_min_succ, unitsCost_succ, saturatingSubUnsigned_add, saturatingAdd_assoc]
    · -- The first unit crosses the budget.
      have hone : (remaining.toInt.toNat + (unit.toNat - 1)) / unit.toNat = 1 := by
        rw [Nat.div_eq_iff hu]
        omega
      have hzero : saturatingSubUnsigned remaining unit ≤ 0 := by
        rw [Int64.le_iff_toInt_le]
        exact not_lt.1 hr'
      rw [consumeEach_exhausted (UInt64.lt_iff_toNat_lt.2 hu) hzero, hone]
      simp only [Nat.zero_add, Nat.min_eq_right (Nat.le_add_left 1 n), unitsCost_one]

/-- Charging units has the outcome of charging them one at a time. -/
theorem consumeUnitsAdmitted_eq (m : CostMeter) (unit n : UInt64) :
    (m.withUnit unit).consumeUnitsAdmitted n =
      (.ofNat (consumeEach unit n.toNat (m.withUnit unit)).1,
        (consumeEach unit n.toNat (m.withUnit unit)).2) := by
  rcases m with _ | ⟨used, _⟩ | ⟨remaining, used, _⟩
  · simp only [withUnit, consumeUnitsAdmitted, consumeEach_off, UInt64.ofNat_toNat]
  · simp only [withUnit, consumeUnitsAdmitted, consumeEach_countOnly, UInt64.ofNat_toNat,
      saturatingMul_eq_unitsCost]
  · simp only [withUnit, consumeUnitsAdmitted]
    by_cases hu : unit = 0
    · subst hu
      simp only [or_true, ↓reduceIte, consumeEach_free, UInt64.ofNat_toNat]
    have hpos : 0 < unit.toNat := by
      rw [← UInt64.toNat_inj, UInt64.toNat_zero] at hu
      omega
    by_cases hn : n = 0
    · subst hn
      simp only [true_or, ↓reduceIte, UInt64.toNat_zero, consumeEach]
      rfl
    rw [if_neg (by simp [hn, hu])]
    by_cases hr : remaining ≤ 0
    · rw [if_pos hr, consumeEach_exhausted (UInt64.lt_iff_toNat_lt.2 hpos) hr]
      rfl
    · have hr' : 0 < remaining.toInt := by
        rw [Int64.le_iff_toInt_le] at hr
        exact not_le.1 hr
      have hcast : remaining.toUInt64.toNat = remaining.toInt.toNat :=
        Int64.toNat_toUInt64_of_le (Int64.le_iff_toInt_le.2 (Int.le_of_lt hr'))
      have hmin : (min n (divCeil remaining.toUInt64 unit)).toNat =
          min n.toNat ((remaining.toInt.toNat + (unit.toNat - 1)) / unit.toNat) := by
        rw [← hcast, ← toNat_divCeil hu, toNat_min]
      rw [if_neg hr, consumeEach_finiteBudget hpos _ hr', ← hmin]
      simp only [saturatingMul_eq_unitsCost, UInt64.ofNat_toNat]

/-- So many consecutive charges, if all are admitted. -/
def consumeTimes (unit : UInt64) : Nat → CostMeter → Option CostMeter
  | 0, m => some m
  | n + 1, m =>
    match m.consume unit with
    | (true, m) => consumeTimes unit n m
    | (false, _) => none

/-- Charging one at a time goes on until all units are charged or one is refused. -/
theorem consumeEach_times (n : Nat) (m : CostMeter) :
    (consumeEach unit n m).1 ≤ n ∧
    ∃ m₁, consumeTimes unit (consumeEach unit n m).1 m = some m₁ ∧
      ((consumeEach unit n m).1 = n → (consumeEach unit n m).2 = m₁) ∧
      ((consumeEach unit n m).1 < n → m₁.consume unit = (false, (consumeEach unit n m).2)) := by
  induction n generalizing m with
  | zero => exact ⟨Nat.le_refl _, m, rfl, fun _ => rfl, fun h => absurd h (Nat.lt_irrefl 0)⟩
  | succ n ih =>
    rw [consumeEach]
    rcases hm : m.consume unit with ⟨_ | _, m'⟩
    · exact ⟨Nat.zero_le _, m, rfl, nofun, fun _ => hm⟩
    · obtain ⟨hle, m₁, htimes, hall, hfew⟩ := ih m'
      refine ⟨Nat.succ_le_succ hle, m₁, ?_, fun h => hall (Nat.succ.inj h), fun h => hfew (Nat.lt_of_succ_lt_succ h)⟩
      simp only [consumeTimes, hm, htimes]

/-- Units are admitted and charged as by consecutive charges of one unit; where not all are
    admitted, the meter is left as the charge leaves it that is refused next. -/
theorem consumeUnitsAdmitted_times (m : CostMeter) (unit n : UInt64) :
    let (admitted, m') := (m.withUnit unit).consumeUnitsAdmitted n
    admitted ≤ n ∧
    ∃ m₁, consumeTimes unit admitted.toNat (m.withUnit unit) = some m₁ ∧
      (admitted = n → m' = m₁) ∧ (admitted < n → m₁.consume unit = (false, m')) := by
  rw [consumeUnitsAdmitted_eq]
  obtain ⟨hle, m₁, htimes, hall, hfew⟩ := @consumeEach_times unit n.toNat (m.withUnit unit)
  have hadmitted : (UInt64.ofNat (consumeEach unit n.toNat (m.withUnit unit)).1).toNat =
      (consumeEach unit n.toNat (m.withUnit unit)).1 :=
    UInt64.toNat_ofNat_of_lt' (Nat.lt_of_le_of_lt hle n.toNat_lt)
  simp only [UInt64.le_iff_toNat_le, UInt64.lt_iff_toNat_lt, ← UInt64.toNat_inj, hadmitted]
  exact ⟨hle, m₁, htimes, hall, hfew⟩

end CostMeter

/-! ## Reachable states -/

namespace CostState

/-- The states some sequence of operations leads to. -/
inductive Reachable (costing : Costing) : CostState → Prop
  | new : Reachable costing (new costing)
  | setBudget {s : CostState} (h : Reachable costing s) (limit : Int64) :
      Reachable costing (s.setBudget limit).2
  | consume {s : CostState} (h : Reachable costing s) (cost : UInt64) :
      Reachable costing (s.consume cost).2
  | consumeUnits {s : CostState} (h : Reachable costing s) (charge : Charge) (n : UInt64) :
      Reachable costing (s.consumeUnitsAdmitted charge n).2
  | addCost {s : CostState} (h : Reachable costing s) (interval cost pending : UInt64) :
      Reachable costing (s.addCost interval cost pending).2.2
  | flush {s : CostState} (h : Reachable costing s) (pending : UInt64) :
      Reachable costing (s.flushLocalCost pending).2.2

/-- What holds of a state whatever led to it. -/
structure Consistent (costing : Costing) (s : CostState) : Prop where
  same : s.costing = costing
  effective : s.effective = (new costing).effective
  off : costing = .off → s.budget = none ∧ s.used = 0
  remaining : ∀ b, s.budget = some b → b.remaining = saturatingSubUnsigned b.limit s.used
  exhausted : ∀ b, s.budget = some b → b.limit ≤ 0 → s.used = 0

section Charges

variable {s : CostState} {model : CostModel} {b : Budget}

theorem consume_off (h : s.costing = .off) (cost : UInt64) : s.consume cost = (true, s) := by
  simp only [consume, meter, h, CostMeter.consume, settle]

theorem consume_countOnly (h : s.costing = .metered model) (hb : s.budget = none) (cost : UInt64) :
    s.consume cost = (true, { s with used := saturatingAdd s.used cost }) := by
  simp only [consume, meter, h, hb, CostMeter.consume, settle]

theorem consume_refused (h : s.costing = .metered model) (hb : s.budget = some b) {cost : UInt64}
    (hc : 0 < cost ∧ b.remaining ≤ 0) : s.consume cost = (false, s) := by
  obtain ⟨costing, effective, budget, used⟩ := s
  simp only at h hb
  subst h hb
  simp only [consume, meter, CostMeter.consume, if_pos hc, settle, Option.map_some]

theorem consume_admitted (h : s.costing = .metered model) (hb : s.budget = some b) {cost : UInt64}
    (hc : ¬(0 < cost ∧ b.remaining ≤ 0)) :
    s.consume cost = (true, { s with
      budget := some { b with remaining := saturatingSubUnsigned b.remaining cost }
      used := saturatingAdd s.used cost }) := by
  simp only [consume, meter, h, hb, CostMeter.consume, if_neg hc, settle, Option.map_some]

/-- A refused charge changes nothing. -/
theorem consume_eq_false {cost : UInt64} (h : (s.consume cost).1 = false) :
    s.consume cost = (false, s) := by
  rcases hc : s.costing with model | _
  · rcases hb : s.budget with _ | b
    · simp [consume_countOnly hc hb] at h
    · by_cases hr : 0 < cost ∧ b.remaining ≤ 0
      · exact consume_refused hc hb hr
      · simp [consume_admitted hc hb hr] at h
  · simp [consume_off hc] at h

/-- A charge of nothing changes nothing. -/
theorem consume_zero : s.consume 0 = (true, s) := by
  rcases hc : s.costing with model | _
  · rcases hb : s.budget with _ | b
    · rw [consume_countOnly hc hb, saturatingAdd_zero]
    · rw [consume_admitted hc hb (by simp), saturatingAdd_zero, saturatingSubUnsigned_zero, ← hb]
  · exact consume_off hc 0

/-- Charging units changes a state as one charge does. -/
theorem consumeUnitsAdmitted_eq_consume (charge : Charge) (n : UInt64) :
    ∃ cost, (s.consumeUnitsAdmitted charge n).2 = (s.consume cost).2 := by
  rcases hs : s.costing with model | _
  · rcases hb : s.budget with _ | b
    · refine ⟨saturatingMul n (s.weight charge), ?_⟩
      rw [consume_countOnly hs hb]
      simp only [consumeUnitsAdmitted, meter, hs, hb, CostMeter.withUnit,
        CostMeter.consumeUnitsAdmitted, settle]
    · have hmeter : s.meter.withUnit (s.weight charge) =
          .finiteBudget b.remaining s.used (s.weight charge) := by
        simp only [meter, hs, hb, CostMeter.withUnit]
      have hsame : s.settle (.finiteBudget b.remaining s.used (s.weight charge)) = s := by
        obtain ⟨costing, effective, budget, used⟩ := s
        simp only at hb
        subst hb
        rfl
      simp only [consumeUnitsAdmitted, hmeter, CostMeter.consumeUnitsAdmitted]
      by_cases hfree : n = 0 ∨ s.weight charge = 0
      · refine ⟨0, ?_⟩
        rw [if_pos hfree, consume_admitted hs hb (by simp)]
        simp only [hsame, saturatingSubUnsigned_zero, saturatingAdd_zero, ← hb]
      · rw [if_neg hfree]
        by_cases hr : b.remaining ≤ 0
        · refine ⟨1, ?_⟩
          rw [if_pos hr, consume_refused hs hb ⟨by decide, hr⟩]
          exact hsame
        · refine ⟨saturatingMul (min n (divCeil b.remaining.toUInt64 (s.weight charge)))
            (s.weight charge), ?_⟩
          rw [if_neg hr, consume_admitted hs hb fun h => hr h.2]
          simp only [settle, hb, Option.map_some]
  · refine ⟨0, ?_⟩
    rw [consume_off hs]
    simp only [consumeUnitsAdmitted, meter, hs, CostMeter.withUnit,
      CostMeter.consumeUnitsAdmitted, settle]

/-- A batch is charged as one charge, or stays pending. -/
theorem settleCost_state (next pending : UInt64) :
    (s.settleCost next pending).2.2 = (s.consume next).2 := by
  rw [settleCost]
  split <;> simp_all

end Charges

section Consistent

variable {costing : Costing} {s : CostState}

theorem Consistent.consume (h : Consistent costing s) (cost : UInt64) :
    Consistent costing (s.consume cost).2 := by
  rcases hc : s.costing with model | _
  · rcases hb : s.budget with _ | b
    · rw [consume_countOnly hc hb]
      refine ⟨h.same, h.effective, fun hoff => ?_, ?_, ?_⟩
      · rw [← h.same, hc] at hoff
        cases hoff
      · simp only [hb, reduceCtorEq, false_implies, implies_true]
      · simp only [hb, reduceCtorEq, false_implies, implies_true]
    · by_cases hr : 0 < cost ∧ b.remaining ≤ 0
      · rw [consume_refused hc hb hr]
        exact h
      · rw [consume_admitted hc hb hr]
        refine ⟨h.same, h.effective, fun hoff => ?_, ?_, ?_⟩
        · rw [← h.same, hc] at hoff
          cases hoff
        · rintro _ ⟨⟩
          simp only [h.remaining b hb, saturatingSubUnsigned_add]
        · rintro _ ⟨⟩ hlimit
          -- Nothing positive is admitted against a budget that starts exhausted.
          have hused := h.exhausted b hb hlimit
          have hrem := h.remaining b hb
          rw [hused, saturatingSubUnsigned_zero] at hrem
          have hcost : cost = 0 := by
            by_contra hne
            exact hr ⟨UInt64.pos_iff_ne_zero.2 hne, hrem ▸ hlimit⟩
          simp only [hused, hcost, saturatingAdd_zero]
  · rw [consume_off hc]
    exact h

theorem Consistent.setBudget (h : Consistent costing s) (limit : Int64) :
    Consistent costing (s.setBudget limit).2 := by
  rw [CostState.setBudget]
  split
  · exact h
  · rename_i model hc
    refine ⟨h.same, h.effective, fun hoff => ?_, ?_, ?_⟩
    · rw [← h.same, hc] at hoff
      cases hoff
    · rintro _ ⟨⟩
      simp only [saturatingSubUnsigned_zero]
    · rintro _ ⟨⟩ -
      rfl

theorem Consistent.settleCost (h : Consistent costing s) (next pending : UInt64) :
    Consistent costing (s.settleCost next pending).2.2 := by
  rw [settleCost_state]
  exact h.consume next

/-- Every operation keeps a state consistent. -/
theorem Reachable.consistent (h : Reachable costing s) : Consistent costing s := by
  induction h with
  | new => exact ⟨rfl, rfl, fun _ => ⟨rfl, rfl⟩, nofun, nofun⟩
  | setBudget _ limit ih => exact ih.setBudget limit
  | consume _ cost ih => exact ih.consume cost
  | consumeUnits _ charge n ih =>
    obtain ⟨cost, hcost⟩ := consumeUnitsAdmitted_eq_consume charge n
    rw [hcost]
    exact ih.consume cost
  | addCost _ interval cost pending ih =>
    rw [CostState.addCost]
    split
    · exact ih.settleCost _ _
    · exact ih
  | flush _ pending ih =>
    rw [flushLocalCost]
    split
    · exact ih.settleCost _ _
    · exact ih

/-- A consistent state is reached by setting its budget and charging its use at
    once. -/
theorem Consistent.reachable (h : Consistent costing s) : Reachable costing s := by
  obtain ⟨costing', effective, budget, used⟩ := s
  obtain ⟨hsame, heffective, hoff, hrem, hexh⟩ := h
  simp only at hsame heffective hoff hrem hexh
  subst hsame heffective
  rcases costing' with model | _
  · rcases budget with _ | ⟨limit, remaining⟩
    · have hstep := (Reachable.new : Reachable (.metered model) _).consume used
      rw [consume_countOnly rfl rfl] at hstep
      simpa only [CostState.new, zero_saturatingAdd] using hstep
    · obtain rfl : remaining = saturatingSubUnsigned limit used := hrem _ rfl
      have hset : Reachable (.metered model) ⟨.metered model, model, some ⟨limit, limit⟩, 0⟩ :=
        Reachable.new.setBudget limit
      by_cases hlimit : limit ≤ 0
      · obtain rfl : used = 0 := hexh _ rfl hlimit
        rwa [saturatingSubUnsigned_zero]
      · have hstep := hset.consume used
        have hadmit : ¬(0 < used ∧ (Budget.mk limit limit).remaining ≤ 0) := fun hc => hlimit hc.2
        rw [consume_admitted rfl rfl hadmit, zero_saturatingAdd] at hstep
        exact hstep
  · obtain ⟨rfl, rfl⟩ := hoff rfl
    exact .new

/-- A snapshot of a consistent state restores it. -/
theorem Consistent.fromSnapshot (h : Consistent costing s) :
    fromSnapshot costing s.remaining s.limit s.budget.isSome s.used = some s := by
  obtain ⟨costing', effective, budget, used⟩ := s
  obtain ⟨hsame, heffective, hoff, hrem, hexh⟩ := h
  simp only at hsame heffective hoff hrem hexh
  subst hsame heffective
  rcases budget with _ | ⟨limit, remaining⟩
  · have hused : ¬(costing' = .off ∧ used ≠ 0) := fun hc => hc.2 (hoff hc.1).2
    simpa [CostState.fromSnapshot, CostState.remaining, CostState.limit, CostState.new] using hused
  · have hmetered : costing' ≠ .off := by
      intro hc
      have := (hoff hc).1
      simp at this
    obtain rfl : remaining = saturatingSubUnsigned limit used := hrem _ rfl
    have he : ¬(limit ≤ 0 ∧ used ≠ 0) := fun hc => hc.2 (hexh _ rfl hc.1)
    simp [CostState.fromSnapshot, CostState.remaining, CostState.limit, CostState.new, hmetered, he]

/-- What a snapshot restores is consistent, and has its fields. -/
theorem consistent_of_fromSnapshot {remaining limit : Int64} {configured : Bool} {used : UInt64}
    (h : CostState.fromSnapshot costing remaining limit configured used = some s) :
    Consistent costing s ∧ s.snapshotFields = (remaining, limit, configured, used) := by
  cases configured with
  | true =>
    by_cases hbad : (limit ≤ 0 ∧ used ≠ 0) ∨ remaining ≠ saturatingSubUnsigned limit used
    · simp [CostState.fromSnapshot, hbad] at h
    · obtain ⟨hexh, hrem⟩ := not_or.1 hbad
      by_cases hoff : costing = .off
      · simp [CostState.fromSnapshot, hbad, hoff] at h
      · simp only [CostState.fromSnapshot, hbad, hoff, ↓reduceIte, false_and, Option.bind_eq_bind,
          Option.bind_some, Option.some.injEq] at h
        subst h
        refine ⟨⟨rfl, rfl, fun hc => absurd hc hoff, ?_, ?_⟩, rfl⟩
        · rintro _ ⟨⟩
          exact not_not.1 hrem
        · rintro _ ⟨⟩ hlimit
          by_contra hused
          exact hexh ⟨hlimit, hused⟩
  | false =>
    by_cases hbad : remaining ≠ Int64.maxValue ∨ limit ≠ Int64.maxValue
    · simp [CostState.fromSnapshot, hbad] at h
    · obtain ⟨hrem, hlimit⟩ := not_or.1 hbad
      by_cases hoff : costing = .off ∧ used ≠ 0
      · simp [CostState.fromSnapshot, hbad, hoff] at h
      · simp only [CostState.fromSnapshot, hbad, hoff, ↓reduceIte, Option.bind_eq_bind,
          Option.bind_some, Option.some.injEq, Bool.false_eq_true, Option.isSome_none,
          false_or] at h
        subst h
        refine ⟨⟨rfl, rfl, fun hc => ⟨rfl, ?_⟩, nofun, nofun⟩, ?_⟩
        · by_contra hused
          exact hoff ⟨hc, hused⟩
        · rw [not_not.1 hrem, not_not.1 hlimit]
          rfl

end Consistent

/-! ## The meter of a run -/

/-- In every state a sequence of operations leads to: a configured budget has
    the limit less the use remaining, admits a positive charge exactly while
    something remains, and is left alone by a charge it refuses; charging units
    is charging them one at a time; and a snapshot restores the state. The
    fields a snapshot may be restored from are those of such states. -/
theorem meter_of_reachable (costing : Costing) :
    (∀ s, Reachable costing s →
      (∀ b, s.budget = some b → b.remaining = saturatingSubUnsigned b.limit s.used ∧
        ∀ cost, 0 < cost → ((s.consume cost).1 = true ↔ 0 < b.remaining) ∧
          ((s.consume cost).1 = false → (s.consume cost).2 = s)) ∧
      (∀ charge n, (s.meter.withUnit (s.weight charge)).consumeUnitsAdmitted n =
        (.ofNat (CostMeter.consumeEach (s.weight charge) n.toNat
            (s.meter.withUnit (s.weight charge))).1,
          (CostMeter.consumeEach (s.weight charge) n.toNat
            (s.meter.withUnit (s.weight charge))).2)) ∧
      fromSnapshot costing s.remaining s.limit s.budget.isSome s.used = some s) ∧
    ∀ remaining limit configured used,
      (fromSnapshot costing remaining limit configured used).isSome = true ↔
        ∃ s, Reachable costing s ∧ s.snapshotFields = (remaining, limit, configured, used) := by
  refine ⟨fun s hs => ⟨fun b hb => ⟨hs.consistent.remaining b hb, fun cost hcost => ?_⟩,
    fun charge n => CostMeter.consumeUnitsAdmitted_eq _ _ _, hs.consistent.fromSnapshot⟩,
    fun remaining limit configured used => ⟨fun h => ?_, ?_⟩⟩
  · obtain ⟨model, hmetered⟩ : ∃ model, s.costing = .metered model := by
      rcases hc : s.costing with model | _
      · exact ⟨model, rfl⟩
      · have := (hs.consistent.off (hs.consistent.same ▸ hc)).1
        simp [hb] at this
    by_cases hr : b.remaining ≤ 0
    · rw [consume_refused hmetered hb ⟨hcost, hr⟩]
      exact ⟨⟨by simp, fun h => absurd h (Int64.not_lt.2 hr)⟩, fun _ => rfl⟩
    · rw [consume_admitted hmetered hb fun h => hr h.2]
      exact ⟨⟨fun _ => Int64.not_le.1 hr, fun _ => rfl⟩, by simp⟩
  · obtain ⟨s, hs⟩ := Option.isSome_iff_exists.1 h
    obtain ⟨hcons, hfields⟩ := consistent_of_fromSnapshot hs
    exact ⟨s, hcons.reachable, hfields⟩
  · rintro ⟨s, hs, hfields⟩
    obtain ⟨rfl, rfl, rfl, rfl⟩ : s.remaining = remaining ∧ s.limit = limit ∧
        s.budget.isSome = configured ∧ s.used = used := by
      simpa [snapshotFields] using hfields
    rw [hs.consistent.fromSnapshot]
    rfl

/-- Without a budget, what remains and the limit both read as the greatest
    integer, whatever was used. -/
theorem remaining_ne_limit_sub_used :
    Reachable (.metered .DEFAULT) ((new (.metered .DEFAULT)).consume 1).2 ∧
      ((new (.metered .DEFAULT)).consume 1).2.remaining ≠
        saturatingSubUnsigned ((new (.metered .DEFAULT)).consume 1).2.limit
          ((new (.metered .DEFAULT)).consume 1).2.used :=
  ⟨.consume .new 1, by decide⟩

end CostState

end Dellingr
