import Dellingr.Vm.Invariant
import Mathlib.Logic.Relation

/-!
# Safepoints

A loop of Lua code can be interrupted: its jump back polls a flag. Of the transfers,
the exits of loops do not poll, and the verifier admits them only forward
(`VerifiedAt`). So in verified code every cycle takes a jump that polls, and between
two polls an activation runs through its code at most once.

A step polls when a set flag would have stopped it (`Polls`): run with a poll that
fails, it fails with the error of the poll. A step goes along an edge of the graph, and
by a backward one only if it polls (`flows_of_step`), so that steps that do not poll
move the cursor forward (`lt_of_step`).
-/

namespace Dellingr

open Effect

/-! ## The control-flow graph -/

/-- The transfers that poll when they go backward. -/
def Opcode.polls : Opcode → Bool
  | .jmp | .branchCompare _ | .testFalse | .testTrue | .forLoop => true
  | _ => false

/-- Control may go from an instruction to another: to the next one, or to the target of
    a transfer. -/
def Flows (bc : Bytecode) (pc pc' : Nat) : Prop :=
  ∃ inst, bc.code[pc]? = some inst ∧
    (pc' = pc + 1 ∨ inst.isTransfer = true ∧ jumpTarget pc inst bc.code.length = some pc')

/-- Control goes backward by a transfer that polls. -/
def SafepointEdge (bc : Bytecode) (pc pc' : Nat) : Prop :=
  ∃ inst op, bc.code[pc]? = some inst ∧ inst.opcode = some op ∧ op.polls = true ∧ inst.sj < 0 ∧
    jumpTarget pc inst bc.code.length = some pc'

section Graph

variable {bc : Bytecode} {pc pc' : Nat} {inst : Instr} {op : Opcode}

/-- A transfer that does not poll goes forward. -/
theorem nonneg_of_not_polls (h : op.OperandsOk bc inst) (ht : op.isTransfer = true)
    (hp : op.polls = false) : 0 ≤ inst.sj := by
  cases op with
  | forPrep => exact h.1
  | tforLoop => exact h.1
  | arith => cases ht
  | compare => cases ht
  | branchCompare => cases hp
  | _ => first | exact absurd ht (by decide) | exact absurd hp (by decide)

/-- Control that does not pass a safepoint goes forward. -/
theorem lt_of_flows (h : validateBytecode bc = .ok ()) (hf : Flows bc pc pc')
    (hs : ¬SafepointEdge bc pc pc') : pc < pc' := by
  obtain ⟨inst, hi, rfl | ⟨ht, htarget⟩⟩ := hf
  · exact Nat.lt_succ_self pc
  · obtain ⟨op, hv⟩ := verifiedAt h hi
    obtain ⟨heq, -⟩ := jumpTarget_eq_some htarget
    have hnonneg : 0 ≤ inst.sj := by
      by_contra hneg
      refine hs ⟨inst, op, hi, hv.opcode, ?_, by omega, htarget⟩
      by_contra hp
      have ht' : op.isTransfer = true := by simpa [Instr.isTransfer, hv.opcode] using ht
      exact hneg (nonneg_of_not_polls hv.operands ht' (by simpa using hp))
    omega

/-- A walk that passes no safepoint goes forward. -/
theorem lt_of_walk (h : validateBytecode bc = .ok ())
    (hw : Relation.TransGen (fun i j => Flows bc i j ∧ ¬SafepointEdge bc i j) pc pc') :
    pc < pc' := by
  induction hw with
  | single hstep => exact lt_of_flows h hstep.1 hstep.2
  | tail _ hstep ih => exact ih.trans (lt_of_flows h hstep.1 hstep.2)

end Graph

/-! ## The poll -/

variable {W E : Type}

/-- The runtime with another poll of the interrupt flag. -/
def Runtime.withPoll (rt : Runtime W E) (poll : W → Except E W) : Runtime W E :=
  { rt with pollInterrupt := poll }

namespace Machine

variable (rt : Runtime W E) (call : CallFn W E) (frame : Frame) (inst : Instr) (ip : Nat)

/-- A step polls the interrupt flag: it finds the flag clear once it is charged, and had
    the poll raised an error there, the step would have stopped with that error and with
    nothing done but the charge. -/
def Polls (s : State W) : Prop :=
  ∃ op w, inst.opcode = some op ∧ rt.charge op s.world = .ok w ∧
    (∃ w', rt.pollInterrupt w = .ok w') ∧ ∀ poll e, poll w = .error e →
      execInstr (rt.withPoll poll) call frame inst ip s = .fail (.runtime e) { s with world := w }

variable {rt call frame inst ip} {s s' : State W} {op : Opcode} {ip' : Nat}

/-! ## Runs that give a value -/

theorem run_compareVals_eq_ok {o : CompareOp} {lhs rhs : Val} {b : Bool} :
    compareVals rt o lhs rhs s = .ok b s' ↔ rt.compare o lhs rhs s.world = .ok b ∧ s = s' := by
  simp only [compareVals, run_get_bind]
  cases rt.compare o lhs rhs s.world with
  | ok c => simp [run_pure_eq_ok]
  | error e => simp [raise, Effect.fail]

/-- A jump lands where its offset says. -/
theorem yields_jumped {offset : Int} :
    Yields (jumped ip offset : Vm W E Nat) (fun ip' => (ip' : Int) = ip + offset) := by
  unfold jumped
  split
  · exact yields_pure (by omega)
  · rintro s ip' s' h
    obtain ⟨h, -⟩ := run_demand_eq_ok.1 h
    simp only [checkedSub] at h
    split at h
    · simp only [Option.some.injEq] at h
      omega
    · simp at h

/-- An instruction that is no transfer falls through or leaves the frame. -/
theorem yields_execInstr (hop : inst.opcode = some op) (ht : op.isTransfer = false) :
    Yields (execInstr rt call frame inst ip) (fun next => ∀ ip', next = .next ip' → ip' = ip) := by
  have fallsThrough : Yields (pure (.next ip) : Vm W E Next)
      (fun next => ∀ ip', next = .next ip' → ip' = ip) :=
    yields_pure fun _ h => (Next.next.inj h).symm
  have leaves : ∀ how, Yields (pure (.leave how) : Vm W E Next)
      (fun next => ∀ ip', next = .next ip' → ip' = ip) := fun _ => yields_pure nofun
  unfold execInstr
  rw [hop]
  refine yields_bind_of (Q := (· = op)) (fun s _ _ h => ?_) fun op' hop' => ?_
  · exact (Option.some.inj (run_demand_eq_ok.1 h).1).symm
  subst hop'
  refine yields_bind fun _ => ?_
  cases op' with
  | jmp => cases ht
  | branchCompare => cases ht
  | testFalse => cases ht
  | testTrue => cases ht
  | forPrep => cases ht
  | forLoop => cases ht
  | tforLoop => cases ht
  | call =>
    refine yields_bind fun _ => yields_bind fun _ => yields_bind fun admitted => ?_
    cases admitted with
    | false =>
      cases inst.callResults with
      | fixed _ => exact yields_bind fun _ => fallsThrough
      | all => exact fallsThrough
    | true => exact leaves _
  | unm =>
    refine yields_bind fun v => ?_
    cases v with
    | num _ => exact yields_bind fun _ => fallsThrough
    | _ => exact yields_bind fun _ => yields_bind fun _ => fallsThrough
  | setList =>
    refine yields_bind fun _ => yields_bind fun _ => yields_bind fun _ => yields_bind fun _ => ?_
    split
    · exact yields_bind fun _ => fallsThrough
    · exact fallsThrough
  | ret =>
    refine yields_bind fun _ => ?_
    cases inst.returnCount with
    | fixed _ => exact leaves _
    | all => exact yields_bind fun _ => yields_bind fun _ => leaves _
  | tailCall =>
    refine yields_bind fun r => ?_
    cases r with
    | some _ => exact yields_bind fun _ => leaves _
    | none => exact leaves _
  | arith _ operands =>
    cases operands <;> (repeat' refine yields_bind fun _ => ?_) <;> exact fallsThrough
  | _ =>
    (repeat' refine yields_bind fun _ => ?_)
    exact fallsThrough

/-- A return leaves the frame. -/
theorem yields_ret (hop : inst.opcode = some .ret) :
    Yields (execInstr rt call frame inst ip) (fun next => ∀ ip', next ≠ .next ip') := by
  unfold execInstr
  rw [hop]
  refine yields_bind_of (Q := (· = .ret)) (fun s _ _ h => ?_) fun op' hop' => ?_
  · exact (Option.some.inj (run_demand_eq_ok.1 h).1).symm
  subst hop'
  refine yields_bind fun _ => yields_bind fun _ => ?_
  cases inst.returnCount with
  | fixed _ => exact yields_pure nofun
  | all => exact yields_bind fun _ => yields_bind fun _ => yields_pure nofun

theorem yields_branch {offset : Int} :
    Yields (branch rt ip offset) (fun ip' => (ip' : Int) = ip + offset) := by
  unfold branch
  split
  · exact yields_bind fun _ => yields_jumped
  · exact yields_jumped

/-- Numeric-for setup falls through or skips the loop. -/
theorem yields_instrForPrep {slot : Nat} {bodyLen : Int} :
    Yields (instrForPrep rt slot ip bodyLen)
      (fun ip' => ip' = ip ∨ (ip' : Int) = ip + bodyLen) := by
  unfold instrForPrep
  refine yields_bind fun _ => yields_bind fun _ => yields_bind fun _ => yields_bind fun _ =>
    yields_bind fun _ => yields_bind fun _ => ?_
  split
  · exact yields_bind fun _ => yields_pure (.inl rfl)
  · exact yields_jumped.mono fun _ => .inr

/-- A numeric-for step falls through or goes on with the loop. -/
theorem yields_instrForLoop {slot : Nat} {offset : Int} :
    Yields (instrForLoop rt slot ip offset)
      (fun ip' => ip' = ip ∨ (ip' : Int) = ip + offset) := by
  unfold instrForLoop
  refine yields_bind fun _ => yields_bind fun _ => yields_bind fun _ => ?_
  split
  · simp only
    split
    · refine yields_bind_of yields_branch fun _ h => ?_
      exact yields_bind fun _ => yields_bind fun _ => yields_pure (.inr h)
    · exact yields_pure (.inl rfl)
  · exact yields_fail

/-- A generic loop goes on or is left. -/
theorem yields_instrTforLoop {base : Nat} {offset : Int} :
    Yields (instrTforLoop base ip offset : Vm W E Nat)
      (fun ip' => ip' = ip ∨ (ip' : Int) = ip + offset) := by
  unfold instrTforLoop
  refine yields_bind fun _ => ?_
  split
  · exact yields_jumped.mono fun _ => .inr
  · exact yields_bind fun _ => yields_pure (.inl rfl)

/-- A transfer falls through or lands at its target. -/
theorem yields_transfer (hop : inst.opcode = some op) (ht : op.isTransfer = true) :
    Yields (execInstr rt call frame inst ip)
      (fun next => ∀ ip', next = .next ip' → ip' = ip ∨ (ip' : Int) = ip + inst.sj) := by
  have fallsThrough : Yields (pure (.next ip) : Vm W E Next)
      (fun next => ∀ ip', next = .next ip' → ip' = ip ∨ (ip' : Int) = ip + inst.sj) :=
    yields_pure fun _ h => .inl (Next.next.inj h).symm
  have jumps : Yields (branch rt ip inst.sj >>= fun ip => pure (.next ip) : Vm W E Next)
      (fun next => ∀ ip', next = .next ip' → ip' = ip ∨ (ip' : Int) = ip + inst.sj) :=
    yields_bind_of yields_branch fun _ h => yields_pure fun _ h' => .inr (Next.next.inj h' ▸ h)
  have lands : ∀ m : Vm W E Nat, Yields m (fun ip' => ip' = ip ∨ (ip' : Int) = ip + inst.sj) →
      Yields (m >>= fun ip => pure (.next ip) : Vm W E Next)
        (fun next => ∀ ip', next = .next ip' → ip' = ip ∨ (ip' : Int) = ip + inst.sj) :=
    fun m hm => yields_bind_of hm fun _ h => yields_pure fun _ h' => Next.next.inj h' ▸ h
  unfold execInstr
  rw [hop]
  refine yields_bind_of (Q := (· = op)) (fun s _ _ h => ?_) fun op' hop' => ?_
  · exact (Option.some.inj (run_demand_eq_ok.1 h).1).symm
  subst hop'
  refine yields_bind fun _ => ?_
  cases op' with
  | jmp => exact jumps
  | branchCompare =>
    refine yields_bind fun _ => yields_bind fun _ => yields_bind fun b => ?_
    cases b with
    | true => exact fallsThrough
    | false => exact jumps
  | testFalse =>
    refine yields_bind fun _ => ?_
    split
    · exact fallsThrough
    · exact jumps
  | testTrue =>
    refine yields_bind fun _ => ?_
    split
    · exact jumps
    · exact fallsThrough
  | forPrep => exact lands _ yields_instrForPrep
  | forLoop => exact lands _ yields_instrForLoop
  | tforLoop => exact lands _ yields_instrTforLoop
  | arith => cases ht
  | compare => cases ht
  | _ => exact absurd ht (by decide)

/-- A backward jump that is taken succeeded at its poll. -/
theorem run_branch_eq_ok {offset : Int} (hneg : offset < 0) (h : branch rt ip offset s = .ok ip' s') :
    ∃ w', rt.pollInterrupt s.world = .ok w' := by
  simp only [branch, if_pos hneg] at h
  obtain ⟨_, _, hw, -⟩ := run_bind_eq_ok.1 h
  obtain ⟨w', hpoll, -⟩ := run_world_eq_ok.1 hw
  exact ⟨w', hpoll⟩

/-- A backward jump stops at a poll that fails. -/
theorem run_branch_eq_fail {offset : Int} (hneg : offset < 0) {poll : W → Except E W} {e : E}
    (he : poll s.world = .error e) :
    branch (rt.withPoll poll) ip offset s = .fail (.runtime e) s := by
  simp only [branch, if_pos hneg]
  refine run_bind_of_fail ?_
  simp only [world, run_get_bind, Runtime.withPoll, he]
  rfl

/-- A numeric loop that goes on polls before it writes its counter. -/
theorem forLoop_stops {slot : Nat} {offset : Int} (hneg : offset < 0)
    (h : instrForLoop rt slot ip offset s = .ok ip' s') (hne : ip' ≠ ip) :
    (∃ w', rt.pollInterrupt s.world = .ok w') ∧ ∀ poll e, poll s.world = .error e →
      instrForLoop (rt.withPoll poll) slot ip offset s = .fail (.runtime e) s := by
  unfold instrForLoop at h
  obtain ⟨var, _, hvar, h⟩ := run_bind_eq_ok.1 h
  obtain ⟨limit, _, hlimit, h⟩ := run_bind_eq_ok.1 h
  obtain ⟨step, _, hstep, h⟩ := run_bind_eq_ok.1 h
  obtain ⟨-, rfl⟩ := run_readSlot_eq_ok.1 hvar
  obtain ⟨-, rfl⟩ := run_readSlot_eq_ok.1 hlimit
  obtain ⟨-, rfl⟩ := run_readSlot_eq_ok.1 hstep
  rcases hv : var.asNum with _ | var'
  · exact absurd (by simpa only [hv] using h) (run_fail_ne_ok (α := Nat))
  rcases hl : limit.asNum with _ | limit'
  · exact absurd (by simpa only [hv, hl] using h) (run_fail_ne_ok (α := Nat))
  rcases hs : step.asNum with _ | step'
  · exact absurd (by simpa only [hv, hl, hs] using h) (run_fail_ne_ok (α := Nat))
  simp only [hv, hl, hs] at h
  split at h
  · next hcond =>
    obtain ⟨ip₁, s₁, hb, -⟩ := run_bind_eq_ok.1 h
    refine ⟨run_branch_eq_ok hneg hb, fun poll e he => ?_⟩
    unfold instrForLoop
    rw [run_bind_of_ok hvar, run_bind_of_ok hlimit, run_bind_of_ok hstep]
    simp only [hv, hl, hs]
    refine (congrFun (if_pos hcond) _).trans ?_
    exact run_bind_of_fail (run_branch_eq_fail hneg he)
  · exact absurd (run_pure_eq_ok.1 h).1.symm hne

/-- A backward transfer that is taken polls. -/
theorem polls_of_taken (hop : inst.opcode = some op) (hp : op.polls = true) (hneg : inst.sj < 0)
    (h : execInstr rt call frame inst ip s = .ok (.next ip') s') (hne : ip' ≠ ip) :
    Polls rt call frame inst ip s := by
  unfold execInstr at h
  obtain ⟨_, _, hd, h⟩ := run_bind_eq_ok.1 h
  obtain ⟨ho, rfl⟩ := run_demand_eq_ok.1 hd
  obtain rfl := Option.some.inj (hop.symm.trans ho)
  obtain ⟨_, _, hw, h⟩ := run_bind_eq_ok.1 h
  obtain ⟨w, hc, rfl⟩ := run_world_eq_ok.1 hw
  -- The flag is read after the charge and the operands, and reading these changes nothing.
  have hcharged : world (rt.charge op) s = .ok () { s with world := w } :=
    run_world_eq_ok.2 ⟨w, hc, rfl⟩
  have hfell : ∀ {s₁ : State W}, (pure (.next ip) : Vm W E Next) s₁ ≠ .ok (.next ip') s' :=
    fun h => hne (Next.next.inj (run_pure_eq_ok.1 h).1).symm
  cases op with
  | jmp =>
    obtain ⟨ip₁, s₁, hb, -⟩ := run_bind_eq_ok.1 h
    refine ⟨_, w, hop, hc, run_branch_eq_ok hneg hb, fun poll e he => ?_⟩
    unfold execInstr
    refine (run_bind_of_ok hd).trans ((run_bind_of_ok hcharged).trans ?_)
    exact run_bind_of_fail (run_branch_eq_fail hneg he)
  | branchCompare o =>
    obtain ⟨lhs, _, hl, h⟩ := run_bind_eq_ok.1 h
    obtain ⟨rhs, _, hr, h⟩ := run_bind_eq_ok.1 h
    obtain ⟨b, _, hcmp, h⟩ := run_bind_eq_ok.1 h
    obtain ⟨-, rfl⟩ := run_readSlot_eq_ok.1 hl
    obtain ⟨-, rfl⟩ := run_readSlot_eq_ok.1 hr
    obtain ⟨hcmp', rfl⟩ := run_compareVals_eq_ok.1 hcmp
    cases b with
    | true => exact absurd h hfell
    | false =>
      obtain ⟨ip₁, s₁, hb, -⟩ := run_bind_eq_ok.1 h
      refine ⟨_, w, hop, hc, run_branch_eq_ok hneg hb, fun poll e he => ?_⟩
      unfold execInstr
      refine (run_bind_of_ok hd).trans ((run_bind_of_ok hcharged).trans ?_)
      refine (run_bind_of_ok hl).trans ((run_bind_of_ok hr).trans ?_)
      refine (run_bind_of_ok (run_compareVals_eq_ok.2 ⟨hcmp', rfl⟩)).trans ?_
      exact run_bind_of_fail (run_branch_eq_fail hneg he)
  | testFalse =>
    obtain ⟨v, _, hv, h⟩ := run_bind_eq_ok.1 h
    obtain ⟨-, rfl⟩ := run_readSlot_eq_ok.1 hv
    split at h
    · exact absurd h hfell
    · next htruthy =>
      obtain ⟨ip₁, s₁, hb, -⟩ := run_bind_eq_ok.1 h
      refine ⟨_, w, hop, hc, run_branch_eq_ok hneg hb, fun poll e he => ?_⟩
      unfold execInstr
      refine (run_bind_of_ok hd).trans ((run_bind_of_ok hcharged).trans ?_)
      refine (run_bind_of_ok hv).trans ((congrFun (if_neg htruthy) _).trans ?_)
      exact run_bind_of_fail (run_branch_eq_fail hneg he)
  | testTrue =>
    obtain ⟨v, _, hv, h⟩ := run_bind_eq_ok.1 h
    obtain ⟨-, rfl⟩ := run_readSlot_eq_ok.1 hv
    split at h
    · next htruthy =>
      obtain ⟨ip₁, s₁, hb, -⟩ := run_bind_eq_ok.1 h
      refine ⟨_, w, hop, hc, run_branch_eq_ok hneg hb, fun poll e he => ?_⟩
      unfold execInstr
      refine (run_bind_of_ok hd).trans ((run_bind_of_ok hcharged).trans ?_)
      refine (run_bind_of_ok hv).trans ((congrFun (if_pos htruthy) _).trans ?_)
      exact run_bind_of_fail (run_branch_eq_fail hneg he)
    · exact absurd h hfell
  | forLoop =>
    obtain ⟨ip₁, s₁, hl, h⟩ := run_bind_eq_ok.1 h
    obtain rfl : ip₁ = ip' := Next.next.inj (run_pure_eq_ok.1 h).1
    obtain ⟨hpoll, hstops⟩ := forLoop_stops hneg hl hne
    refine ⟨_, w, hop, hc, hpoll, fun poll e he => ?_⟩
    unfold execInstr
    refine (run_bind_of_ok hd).trans ((run_bind_of_ok hcharged).trans ?_)
    exact run_bind_of_fail (hstops poll e he)
  | _ => exact absurd hp (by simp [Opcode.polls])

/-! ## Runs of one activation -/

variable (rt call frame) in
/-- The activation dispatches `n` instructions in a row, each from a state with the
    property `P`, and is still there after the last. -/
inductive Dispatches (P : Instr → Nat → State W → Prop) :
    (n ip : Nat) → State W → (ip' : Nat) → State W → Prop
  | refl {ip : Nat} {s : State W} : Dispatches P 0 ip s ip s
  | step {n ip ip₁ ip' : Nat} {inst : Instr} {s s₁ s' : State W} (fetch : frame.bytecode.code[ip]? = some inst)
      (exec : execInstr rt call frame inst (ip + 1) s = .ok (.next ip₁) s₁)
      (holds : P inst (ip + 1) s) (rest : Dispatches P n ip₁ s₁ ip' s') :
      Dispatches P (n + 1) ip s ip' s'

/-- The dispatch loop makes exactly these steps. -/
theorem runFrame_of_dispatches {P : Instr → Nat → State W → Prop} {n : Nat}
    (h : Dispatches rt call frame P n ip s ip' s') (fuel : Nat) :
    runFrame rt call frame (fuel + n) ip s = runFrame rt call frame fuel ip' s' := by
  induction h with
  | refl => rfl
  | step fetch exec _ _ ih =>
    rw [← Nat.add_assoc, runFrame, run_bind_of_ok (run_demand_eq_ok.2 ⟨fetch, rfl⟩),
      run_bind_of_ok exec]
    exact ih

/-- A step goes along an edge of the graph, and by a backward one only if it polls. -/
theorem flows_of_step (h : validateBytecode frame.bytecode = .ok ())
    (fetch : frame.bytecode.code[ip]? = some inst)
    (exec : execInstr rt call frame inst (ip + 1) s = .ok (.next ip') s') :
    Flows frame.bytecode ip ip' ∧
      (SafepointEdge frame.bytecode ip ip' → Polls rt call frame inst (ip + 1) s) := by
  obtain ⟨op, hv⟩ := verifiedAt h fetch
  cases ht : op.isTransfer with
  | false =>
    obtain rfl := yields_execInstr hv.opcode ht s _ s' exec ip' rfl
    refine ⟨⟨inst, fetch, .inl rfl⟩, ?_⟩
    rintro ⟨inst', op', fetch', hop', hpolls, hneg, htarget⟩
    obtain rfl := Option.some.inj (fetch.symm.trans fetch')
    have := (jumpTarget_eq_some htarget).1
    omega
  | true =>
    obtain ⟨t, -, htarget, -⟩ := hv.transfer ht
    obtain ⟨heq, -⟩ := jumpTarget_eq_some htarget
    refine ⟨⟨inst, fetch, ?_⟩, ?_⟩
    · refine (yields_transfer hv.opcode ht s _ s' exec ip' rfl).imp_right fun hip => ?_
      obtain rfl : t = ip' := by omega
      exact ⟨by simpa [Instr.isTransfer, hv.opcode] using ht, htarget⟩
    · rintro ⟨inst', op', fetch', hop', hpolls, hneg, htarget'⟩
      obtain rfl := Option.some.inj (fetch.symm.trans fetch')
      have := (jumpTarget_eq_some htarget').1
      exact polls_of_taken hop' hpolls hneg exec (by omega)

/-- The cursor a step leaves is one of the code. -/
theorem lt_length_of_step (h : validateBytecode frame.bytecode = .ok ())
    (fetch : frame.bytecode.code[ip]? = some inst)
    (exec : execInstr rt call frame inst (ip + 1) s = .ok (.next ip') s') :
    ip' < frame.bytecode.code.length := by
  obtain ⟨⟨inst', fetch', rfl | ⟨-, htarget⟩⟩, -⟩ := flows_of_step h fetch exec
  · exact (headerOk h).succ_lt fetch fun hret => yields_ret hret s _ s' exec _ rfl
  · exact (jumpTarget_eq_some htarget).2

/-- Steps that each go forward run through the code once. -/
theorem add_le_of_dispatches {P : Instr → Nat → State W → Prop} {n : Nat}
    (hfwd : ∀ ip inst s ip' s', frame.bytecode.code[ip]? = some inst →
      execInstr rt call frame inst (ip + 1) s = .ok (.next ip') s' → P inst (ip + 1) s → ip < ip')
    (h : Dispatches rt call frame P n ip s ip' s') : ip + n ≤ ip' := by
  induction h with
  | refl => exact le_refl _
  | step fetch exec holds _ ih =>
    have := hfwd _ _ _ _ _ fetch exec holds
    omega

/-- The cursor of an activation stays in the code. -/
theorem lt_length_of_dispatches {P : Instr → Nat → State W → Prop} {n : Nat}
    (h : validateBytecode frame.bytecode = .ok ())
    (hd : Dispatches rt call frame P (n + 1) ip s ip' s') :
    ip' < frame.bytecode.code.length := by
  generalize hm : n + 1 = m at hd
  induction hd generalizing n with
  | refl => omega
  | @step m _ _ _ _ _ _ _ fetch exec _ rest ih =>
    cases m with
    | zero =>
      cases rest
      exact lt_length_of_step h fetch exec
    | succ m => exact ih rfl

/-- A step that does not poll goes forward. -/
theorem lt_of_step (h : validateBytecode frame.bytecode = .ok ())
    (fetch : frame.bytecode.code[ip]? = some inst)
    (exec : execInstr rt call frame inst (ip + 1) s = .ok (.next ip') s')
    (hp : ¬Polls rt call frame inst (ip + 1) s) : ip < ip' := by
  obtain ⟨hflows, hedge⟩ := flows_of_step h fetch exec
  exact lt_of_flows h hflows fun he => hp (hedge he)

/-- Where the flag is set, and the charge leaves it so, a step does not find it clear. -/
theorem not_polls_of_set {set : W → Prop}
    (hset : ∀ w, set w → ∃ e, rt.pollInterrupt w = .error e)
    (hcharge : ∀ op w w', set w → rt.charge op w = .ok w' → set w') (hs : set s.world) :
    ¬Polls rt call frame inst ip s := by
  rintro ⟨op, w, -, hc, ⟨w', hclear⟩, -⟩
  obtain ⟨e, he⟩ := hset w (hcharge op s.world w hs hc)
  rw [he] at hclear
  cases hclear

end Machine

open Machine in
/-- Every cycle of verified code passes a safepoint. An activation that goes on without a
    poll has dispatched fewer instructions than its code holds, and one that runs while
    the interrupt flag is set and stays so only goes forward. -/
theorem safepoint_coverage {bc : Bytecode} (h : validateBytecode bc = .ok ()) :
    (∀ pc, ¬Relation.TransGen (fun i j => Flows bc i j ∧ ¬SafepointEdge bc i j) pc pc) ∧
    ∀ {W E : Type} (rt : Runtime W E) (call : CallFn W E) (frame : Frame), frame.bytecode = bc →
      (∀ n ip s ip' s',
        Dispatches rt call frame (fun inst ip s => ¬Polls rt call frame inst ip s) n ip s ip' s' →
          n < bc.code.length) ∧
      ∀ set : W → Prop, (∀ w, set w → ∃ e, rt.pollInterrupt w = .error e) →
        (∀ op w w', set w → rt.charge op w = .ok w' → set w') →
        ∀ n ip s ip' s',
          Dispatches rt call frame (fun _ _ s => set s.world) n ip s ip' s' → ip + n ≤ ip' := by
  refine ⟨fun pc hw => absurd (lt_of_walk h hw) (lt_irrefl pc), ?_⟩
  rintro W E rt call frame rfl
  refine ⟨fun n ip s ip' s' hd => ?_, fun set hset hcharge n ip s ip' s' hd => ?_⟩
  · have hforward := add_le_of_dispatches
      (fun ip inst s ip' s' fetch exec hp => lt_of_step h fetch exec hp) hd
    cases n with
    | zero => exact List.length_pos_iff.2 (headerOk h).nonempty
    | succ n =>
      have := lt_length_of_dispatches h hd
      omega
  · refine add_le_of_dispatches (fun ip inst s ip' s' fetch exec hs => ?_) hd
    exact lt_of_step h fetch exec (not_polls_of_set hset hcharge hs)

/-- A loop that does nothing but jump back to itself. -/
def spinBytecode : Bytecode where
  code := [.packJump .jmp 0 0 (-1), .pack .ret 0 0 0 0]
  lineInfo := [1, 1]

theorem safepoint_coverage_spin :
    validateBytecode spinBytecode = .ok () ∧ Flows spinBytecode 0 0 ∧
      ∀ pc, ¬Relation.TransGen
        (fun i j => Flows spinBytecode i j ∧ ¬SafepointEdge spinBytecode i j) pc pc :=
  ⟨by decide, ⟨_, rfl, .inr ⟨by decide, by decide⟩⟩, (safepoint_coverage (by decide)).1⟩

end Dellingr
