import Dellingr.CostMeter

/-!
# Metered runs

The dispatch loop does not charge each instruction to the meter. It adds up a
local batch, and charges it when it is full, when it would exhaust a budget,
and before control leaves the frame: before a call, a handler or an iterator,
before a return, and after an error.

What a run charges is a tree (`Ops`, `Work`): the costed instructions of an
invocation of the dispatch loop and the native work it hands control to, which
charges the meter itself and may start invocations of its own. It is run with
the batch (`run`) and with every instruction charged at once (`runImmediate`);
both count the operations that completed, so that where a run stops is part of
its outcome. They are the same run (`run_eq_runImmediate`).
-/

namespace Dellingr

variable {ε : Type}

/-- Why a run failed: the budget was exhausted, or an error of its own. -/
inductive Fault (ε : Type)
  | budgetExceeded
  | raised (e : ε)

mutual

/-- What an invocation of the dispatch loop executes. -/
inductive Ops (ε : Type)
  /-- The entry frame returns. -/
  | done
  /-- An instruction that charges so many units, one for a fixed charge. -/
  | instr (charge : Charge) (units : UInt64) (rest : Ops ε)
  /-- A call, a handler or an iterator, or a return to a Lua caller, which does
      no native work. -/
  | leave (body : Work ε) (rest : Ops ε)
  /-- An error of an instruction. -/
  | raise (e : ε)

/-- What native code does to the meter. -/
inductive Work (ε : Type)
  | done
  /-- A raw charge of the host. -/
  | consume (cost : UInt64) (rest : Work ε)
  /-- A charge of so many units as one operation. -/
  | charge (charge : Charge) (units : UInt64) (rest : Work ε)
  /-- A charge unit by unit. -/
  | chargeUnits (charge : Charge) (units : UInt64) (rest : Work ε)
  | setBudget (limit : Int64) (rest : Work ε)
  /-- An invocation of the dispatch loop. -/
  | run (ops : Ops ε) (rest : Work ε)
  /-- Work whose errors are caught. -/
  | protect (body rest : Work ε)
  | raise (e : ε)

end

/-- The accounting of a run: the meter, and the operations that completed. -/
structure Account where
  meter : CostState
  completed : Nat

namespace Account

/-- One more operation completed. -/
def tick (a : Account) (meter : CostState) : Account := ⟨meter, a.completed + 1⟩

end Account

namespace Metering

/-! ## The batch -/

/-- The end of an invocation: an error settles the pending batch. -/
def settleError : Except (Fault ε) Unit × UInt64 × Account → Except (Fault ε) Unit × Account
  | (.ok (), _, a) => (.ok (), a)
  | (.error e, pending, a) =>
    (.error e, if 0 < pending then { a with meter := (a.meter.consume pending).2 } else a)

section Batched

variable (interval : UInt64)

mutual

/-- The dispatch loop, with the pending batch. -/
def evalBatched : Ops ε → UInt64 → Account → Except (Fault ε) Unit × UInt64 × Account
  | .done, pending, a =>
    match a.meter.flushLocalCost pending with
    | (true, pending, meter) => (.ok (), pending, a.tick meter)
    | (false, pending, meter) => (.error .budgetExceeded, pending, { a with meter := meter })
  | .instr charge units rest, pending, a =>
    if a.meter.cost charge units ≠ 0 then
      match a.meter.addCost interval (a.meter.cost charge units) pending with
      | (true, pending, meter) => evalBatched rest pending (a.tick meter)
      | (false, pending, meter) => (.error .budgetExceeded, pending, { a with meter := meter })
    else evalBatched rest pending (a.tick a.meter)
  | .leave body rest, pending, a =>
    match a.meter.flushLocalCost pending with
    | (true, pending, meter) =>
      match work body (a.tick meter) with
      | (.ok (), a) => evalBatched rest pending a
      | (.error e, a) => (.error e, pending, a)
    | (false, pending, meter) => (.error .budgetExceeded, pending, { a with meter := meter })
  | .raise e, pending, a => (.error (.raised e), pending, a)

/-- Native work. -/
def work : Work ε → Account → Except (Fault ε) Unit × Account
  | .done, a => (.ok (), a)
  | .consume cost rest, a =>
    match a.meter.consume cost with
    | (true, meter) => work rest (a.tick meter)
    | (false, meter) => (.error .budgetExceeded, { a with meter := meter })
  | .charge charge units rest, a =>
    match a.meter.consume (a.meter.cost charge units) with
    | (true, meter) => work rest (a.tick meter)
    | (false, meter) => (.error .budgetExceeded, { a with meter := meter })
  | .chargeUnits charge units rest, a =>
    let (admitted, meter) := a.meter.consumeUnitsAdmitted charge units
    if admitted = units then work rest (a.tick meter)
    else (.error .budgetExceeded, { a with meter := meter })
  | .setBudget limit rest, a => work rest (a.tick (a.meter.setBudget limit).2)
  | .run ops rest, a =>
    -- The batch of an invocation starts empty.
    match settleError (evalBatched ops 0 a) with
    | (.ok (), a) => work rest a
    | (.error e, a) => (.error e, a)
  | .protect body rest, a => work rest (work body a).2
  | .raise e, a => (.error (.raised e), a)

end

/-- An invocation of the dispatch loop. -/
def run (ops : Ops ε) (a : Account) : Except (Fault ε) Unit × Account :=
  settleError (evalBatched interval ops 0 a)

end Batched

/-! ## Immediate charges -/

mutual

/-- The dispatch loop, were each instruction charged to the meter at once. -/
def runImmediate : Ops ε → Account → Except (Fault ε) Unit × Account
  | .done, a => (.ok (), a.tick a.meter)
  | .instr charge units rest, a =>
    match a.meter.consume (a.meter.cost charge units) with
    | (true, meter) => runImmediate rest (a.tick meter)
    | (false, meter) => (.error .budgetExceeded, { a with meter := meter })
  | .leave body rest, a =>
    match workImmediate body (a.tick a.meter) with
    | (.ok (), a) => runImmediate rest a
    | (.error e, a) => (.error e, a)
  | .raise e, a => (.error (.raised e), a)

/-- Native work, whose invocations charge at once. -/
def workImmediate : Work ε → Account → Except (Fault ε) Unit × Account
  | .done, a => (.ok (), a)
  | .consume cost rest, a =>
    match a.meter.consume cost with
    | (true, meter) => workImmediate rest (a.tick meter)
    | (false, meter) => (.error .budgetExceeded, { a with meter := meter })
  | .charge charge units rest, a =>
    match a.meter.consume (a.meter.cost charge units) with
    | (true, meter) => workImmediate rest (a.tick meter)
    | (false, meter) => (.error .budgetExceeded, { a with meter := meter })
  | .chargeUnits charge units rest, a =>
    let (admitted, meter) := a.meter.consumeUnitsAdmitted charge units
    if admitted = units then workImmediate rest (a.tick meter)
    else (.error .budgetExceeded, { a with meter := meter })
  | .setBudget limit rest, a => workImmediate rest (a.tick (a.meter.setBudget limit).2)
  | .run ops rest, a =>
    match runImmediate ops a with
    | (.ok (), a) => workImmediate rest a
    | (.error e, a) => (.error e, a)
  | .protect body rest, a => workImmediate rest (workImmediate body a).2
  | .raise e, a => (.error (.raised e), a)

end

/-! ## The pending batch -/

/-- A meter with a pending batch stands for the meter that was charged at once:
    the batch is admitted, and leaves something of a budget. -/
structure Pending (s : CostState) (pending : UInt64) (t : CostState) : Prop where
  admitted : s.consume pending = (true, t)
  left : pending ≠ 0 → ∀ b, t.budget = some b → 0 < b.remaining

section Pending

variable {s t : CostState} {pending cost : UInt64}

theorem Pending.refl (s : CostState) : Pending s 0 s :=
  ⟨CostState.consume_zero, fun h => absurd rfl h⟩

theorem Pending.eq (h : Pending s 0 t) : t = s := by
  have := h.admitted
  rw [CostState.consume_zero] at this
  simpa using this.symm

/-- A charge after the batch is a charge of both; it is refused only where
    nothing is pending. -/
theorem Pending.consume (h : Pending s pending t) (cost : UInt64) :
    (∃ u, t.consume cost = (true, u) ∧ s.consume (saturatingAdd pending cost) = (true, u)) ∨
      pending = 0 ∧ t.consume cost = (false, t) := by
  by_cases hp : pending = 0
  · subst hp
    obtain rfl := h.eq
    rw [zero_saturatingAdd]
    rcases hc : t.consume cost with ⟨_ | _, u⟩
    · exact .inr ⟨rfl, hc ▸ CostState.consume_eq_false (by rw [hc])⟩
    · exact .inl ⟨u, rfl, rfl⟩
  · refine .inl ?_
    have hadmitted := h.admitted
    have hleft := h.left hp
    rcases hc : s.costing with model | _
    · rcases hb : s.budget with _ | b
      · rw [CostState.consume_countOnly hc hb] at hadmitted
        simp only [Prod.mk.injEq, true_and] at hadmitted
        subst hadmitted
        refine ⟨_, CostState.consume_countOnly (by exact hc) (by exact hb) cost, ?_⟩
        rw [CostState.consume_countOnly hc hb, saturatingAdd_assoc]
      · by_cases hr : 0 < pending ∧ b.remaining ≤ 0
        · rw [CostState.consume_refused hc hb hr] at hadmitted
          simp at hadmitted
        · rw [CostState.consume_admitted hc hb hr] at hadmitted
          simp only [Prod.mk.injEq, true_and] at hadmitted
          subst hadmitted
          -- Something of the budget is left, so that neither is refused.
          have hpos := hleft _ rfl
          have hpos' : ¬b.remaining ≤ 0 := by
            rw [Int64.lt_iff_toInt_lt] at hpos
            rw [Int64.le_iff_toInt_le]
            exact not_le.2 (pos_of_saturatingSubUnsigned hpos)
          refine ⟨_, CostState.consume_admitted (by exact hc) rfl
            fun h => Int64.not_le.2 hpos h.2, ?_⟩
          rw [CostState.consume_admitted hc hb fun h => hpos' h.2, saturatingAdd_assoc,
            saturatingSubUnsigned_add]
    · rw [CostState.consume_off hc] at hadmitted
      simp only [Prod.mk.injEq, true_and] at hadmitted
      subst hadmitted
      rw [CostState.consume_off hc, CostState.consume_off hc]
      exact ⟨s, rfl, rfl⟩

/-- A batch that would not exhaust the budget leaves something of it. -/
theorem Pending.of_not_batchNeedsFlush {u : CostState} (h : s.consume pending = (true, u))
    (hf : s.batchNeedsFlush pending = false) : Pending s pending u := by
  refine ⟨h, fun hp b hb => ?_⟩
  rcases hc : s.costing with model | _
  · rcases hs : s.budget with _ | b'
    · rw [CostState.consume_countOnly hc hs] at h
      simp only [Prod.mk.injEq, true_and] at h
      subst h
      simp [hs] at hb
    · have hleft : 0 < saturatingSubUnsigned b'.remaining pending := by
        simpa [CostState.batchNeedsFlush, hs] using hf
      by_cases hr : 0 < pending ∧ b'.remaining ≤ 0
      · rw [CostState.consume_refused hc hs hr] at h
        simp at h
      · rw [CostState.consume_admitted hc hs hr] at h
        simp only [Prod.mk.injEq, true_and] at h
        subst h
        simp only [Option.some.injEq] at hb
        subst hb
        exact hleft
  · rw [CostState.consume_off hc] at h
    simp only [Prod.mk.injEq, true_and] at h
    subst h
    have hleft : 0 < saturatingSubUnsigned b.remaining pending := by
      simpa [CostState.batchNeedsFlush, hb] using hf
    rw [Int64.lt_iff_toInt_lt] at hleft ⊢
    exact pos_of_saturatingSubUnsigned hleft

/-- A batch that would be refused is flushed. -/
theorem batchNeedsFlush_of_refused (h : s.consume cost = (false, s)) :
    s.batchNeedsFlush cost = true := by
  rcases hc : s.costing with model | _
  · rcases hb : s.budget with _ | b
    · simp [CostState.consume_countOnly hc hb] at h
    · by_cases hr : 0 < cost ∧ b.remaining ≤ 0
      · have hle := hr.2
        simp only [CostState.batchNeedsFlush, hb, decide_eq_true_eq]
        rw [Int64.le_iff_toInt_le] at hle ⊢
        rw [toInt_saturatingSubUnsigned]
        have : (0 : Int64).toInt = 0 := rfl
        omega
      · simp [CostState.consume_admitted hc hb hr] at h
  · simp [CostState.consume_off hc] at h

/-- The batch is admitted when it is flushed. -/
theorem Pending.flush (h : Pending s pending t) : s.flushLocalCost pending = (true, 0, t) := by
  rw [CostState.flushLocalCost]
  split
  · rw [CostState.settleCost, h.admitted]
  · rename_i hp
    obtain rfl : pending = 0 := by
      by_contra hne
      exact hp (UInt64.pos_iff_ne_zero.2 hne)
    rw [h.eq]

/-- Adding the cost of an instruction to the batch is charging it at once. -/
theorem Pending.addCost (h : Pending s pending t) (interval cost : UInt64) :
    (∃ p' s' t', s.addCost interval cost pending = (true, p', s') ∧
        t.consume cost = (true, t') ∧ Pending s' p' t') ∨
      s.addCost interval cost pending = (false, 0, s) ∧ t = s ∧ t.consume cost = (false, t) := by
  rw [CostState.addCost]
  rcases h.consume cost with ⟨u, ht, hs⟩ | ⟨rfl, ht⟩
  · refine .inl ?_
    split
    · rw [CostState.settleCost, hs]
      exact ⟨0, u, u, rfl, ht, .refl u⟩
    · rename_i hflush
      rw [not_or, Bool.not_eq_true] at hflush
      exact ⟨_, s, u, rfl, ht, .of_not_batchNeedsFlush hs hflush.2⟩
  · obtain rfl := h.eq
    rw [zero_saturatingAdd, if_pos (.inr (batchNeedsFlush_of_refused ht)), CostState.settleCost, ht]
    exact .inr ⟨rfl, rfl, rfl⟩

/-- Charges do not change the weights. -/
theorem Pending.cost_eq (h : Pending s pending t) (charge : Charge) (units : UInt64) :
    t.cost charge units = s.cost charge units := by
  have heffective : (s.consume pending).2.effective = s.effective := by
    rw [CostState.consume]
    rcases s.meter.consume pending with ⟨_, _ | _ | _⟩ <;> rfl
  rw [h.admitted] at heffective
  rw [CostState.cost, CostState.cost, heffective]

end Pending

/-! ## The same run -/

/-- The batched loop agrees with the immediate one: they end alike, and what is
    pending after an error is what the meter was not yet charged. -/
def Agrees (batched : Except (Fault ε) Unit × UInt64 × Account)
    (immediate : Except (Fault ε) Unit × Account) : Prop :=
  batched.1 = immediate.1 ∧ batched.2.2.completed = immediate.2.completed ∧
    Pending batched.2.2.meter batched.2.1 immediate.2.meter ∧
    (batched.1 = .ok () → batched.2.1 = 0)

/-- Once the pending batch is settled, the outcomes are the same. -/
theorem Agrees.settleError {batched : Except (Fault ε) Unit × UInt64 × Account}
    {immediate : Except (Fault ε) Unit × Account} (h : Agrees batched immediate) :
    settleError batched = immediate := by
  obtain ⟨r, pending, meter, completed⟩ := batched
  obtain ⟨r', meter', completed'⟩ := immediate
  obtain ⟨hr, hcompleted, hpending, hok⟩ := h
  simp only at hr hcompleted hpending hok
  subst hr hcompleted
  rcases r with e | ⟨⟩
  · simp only [Metering.settleError]
    split
    · rw [hpending.admitted]
    · rename_i hp
      obtain rfl : pending = 0 := by
        by_contra hne
        exact hp (UInt64.pos_iff_ne_zero.2 hne)
      rw [hpending.eq]
  · obtain rfl := hok rfl
    rw [Metering.settleError, hpending.eq]

mutual

theorem evalBatched_agrees (interval : UInt64) (ops : Ops ε) {pending : UInt64} {a b : Account}
    (h : Pending a.meter pending b.meter) (hc : a.completed = b.completed) :
    Agrees (evalBatched interval ops pending a) (runImmediate ops b) := by
  match ops with
  | .done =>
    rw [evalBatched, h.flush, runImmediate]
    exact ⟨rfl, by simp [Account.tick, hc], .refl _, fun _ => rfl⟩
  | .instr charge units rest =>
    rw [evalBatched, runImmediate, h.cost_eq]
    by_cases hcost : a.meter.cost charge units = 0
    · rw [if_neg (not_not.2 hcost), hcost, CostState.consume_zero]
      exact evalBatched_agrees interval rest h (by simp [Account.tick, hc])
    · rw [if_pos hcost]
      rcases h.addCost interval (a.meter.cost charge units) with
        ⟨p', s', t', hs, ht, h'⟩ | ⟨hs, heq, ht⟩
      · rw [hs, ht]
        exact evalBatched_agrees interval rest h' (by simp [Account.tick, hc])
      · rw [hs, ht]
        exact ⟨rfl, hc, heq ▸ .refl _, nofun⟩
  | .leave body rest =>
    rw [evalBatched, h.flush, runImmediate]
    have hwork : work interval body (a.tick b.meter) = workImmediate body (b.tick b.meter) := by
      rw [work_eq interval body]
      simp only [Account.tick, hc]
    simp only [hwork]
    rcases workImmediate body (b.tick b.meter) with ⟨e | ⟨⟩, b'⟩
    · exact ⟨rfl, rfl, .refl _, nofun⟩
    · exact evalBatched_agrees interval rest (.refl _) rfl
  | .raise e => exact ⟨rfl, hc, h, nofun⟩

theorem work_eq (interval : UInt64) (w : Work ε) (a : Account) :
    work interval w a = workImmediate w a := by
  match w with
  | .done => rfl
  | .consume cost rest =>
    rw [work, workImmediate]
    simp only [work_eq interval rest]
  | .charge charge units rest =>
    rw [work, workImmediate]
    simp only [work_eq interval rest]
  | .chargeUnits charge units rest =>
    rw [work, workImmediate]
    simp only [work_eq interval rest]
  | .setBudget limit rest => rw [work, workImmediate, work_eq interval rest]
  | .run ops rest =>
    rw [work, workImmediate, (evalBatched_agrees interval ops (.refl a.meter) rfl).settleError]
    simp only [work_eq interval rest]
  | .protect body rest =>
    rw [work, workImmediate, work_eq interval body, work_eq interval rest]
  | .raise e => rfl

end

/-- Batching is not observable: with any interval, a run has the outcome, the
    meter and the number of completed operations it has when each instruction is
    charged at once. -/
theorem run_eq_runImmediate (interval : UInt64) (ops : Ops ε) (a : Account) :
    run interval ops a = runImmediate ops a :=
  (evalBatched_agrees interval ops (.refl a.meter) rfl).settleError

end Metering

end Dellingr
