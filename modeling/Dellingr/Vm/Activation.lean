import Dellingr.Vm.CallSound

/-!
# Activations

The frames of one invocation and the records of their calls. A frame's registers
are the slots its function reserves, right above the slot of its closure; each
frame but the innermost is suspended just past a call instruction, whose callee
register is the function slot of the frame above it (`Stacked`). The records
hold the units taken and the extra arguments moved aside since the invocation
started (`Acts`), so that popping them restores both.

After an error every frame is unwound, and nothing of the invocation is left
(`wp_unwindInvocation`).
-/

namespace Dellingr

open Effect

variable {W E : Type}

/-! ## Frames -/

/-- A frame of a closure over a verified tree with the declared captures. -/
structure FrameOk (pool : Nat) (f : Frame) : Prop where
  admitted : Admitted f.bytecode
  literals : f.literals.length = f.bytecode.stringLiterals.length
  captures : f.upvalues.length = f.bytecode.upvalues.length
  refs : ∀ r ∈ f.upvalues, r < pool
  bottom : 1 ≤ f.stackBottom
  top : f.top = f.stackBottom + f.bytecode.maxStack

/-- A frame is suspended just past the call instruction `inst`. -/
structure Suspended (f : Frame) (inst : Instr) : Prop where
  cursor : 1 ≤ f.ip
  code : f.bytecode.code[f.ip - 1]? = some inst
  opcode : inst.opcode = some .call

/-- The frames of an invocation entered at `idx`, the innermost first. -/
inductive Stacked (pool idx : Nat) : List Frame → Prop
  | entry {f : Frame} (ok : FrameOk pool f) (bottom : f.stackBottom = idx + 1) :
      Stacked pool idx [f]
  | call {f g : Frame} {rest : List Frame} {inst : Instr} (ok : FrameOk pool f)
      (below : Stacked pool idx (g :: rest)) (suspended : Suspended g inst)
      (bottom : f.stackBottom = g.stackBottom + inst.a + 1) : Stacked pool idx (f :: g :: rest)

theorem FrameOk.mono {pool pool' : Nat} {f : Frame} (h : FrameOk pool f) (hp : pool ≤ pool') :
    FrameOk pool' f :=
  { h with refs := fun r hr => (h.refs r hr).trans_le hp }

theorem FrameOk.setIp {pool : Nat} {f : Frame} (h : FrameOk pool f) (ip : Nat) :
    FrameOk pool { f with ip := ip } :=
  ⟨h.admitted, h.literals, h.captures, h.refs, h.bottom, h.top⟩

namespace Stacked

variable {pool pool' idx : Nat} {f : Frame} {rest : List Frame}

theorem mono {frames : List Frame} (h : Stacked pool idx frames) (hp : pool ≤ pool') :
    Stacked pool' idx frames := by
  induction h with
  | entry ok bottom => exact .entry (ok.mono hp) bottom
  | call ok _ suspended bottom ih => exact .call (ok.mono hp) ih suspended bottom

theorem head (h : Stacked pool idx (f :: rest)) : FrameOk pool f := by
  cases h with
  | entry ok _ => exact ok
  | call ok _ _ _ => exact ok

/-- The cursor of the innermost frame does not matter. -/
theorem setIp (h : Stacked pool idx (f :: rest)) (ip : Nat) :
    Stacked pool idx ({ f with ip := ip } :: rest) := by
  cases h with
  | entry ok bottom => exact .entry (ok.setIp ip) bottom
  | call ok below suspended bottom => exact .call (ok.setIp ip) below suspended bottom

/-- Every frame lies at or below the innermost one and above the entry slot. -/
theorem bottom_le {frames : List Frame} (h : Stacked pool idx frames) {f g : Frame}
    (hf : frames.head? = some f) (hg : g ∈ frames) :
    idx + 1 ≤ g.stackBottom ∧ g.stackBottom ≤ f.stackBottom := by
  induction h generalizing f g with
  | entry ok bottom =>
    simp only [List.head?_cons, Option.some.injEq] at hf
    simp only [List.mem_singleton] at hg
    subst hf hg
    omega
  | @call f' g' rest' inst ok hrest suspended bottom ih =>
    simp only [List.head?_cons, Option.some.injEq] at hf
    subst hf
    rcases List.mem_cons.1 hg with rfl | hg
    · have := ih rfl List.mem_cons_self
      omega
    · have := ih rfl hg
      omega

/-- Replacing the innermost frame by one with the same bottom. -/
theorem replace (h : Stacked pool idx (f :: rest)) {f' : Frame} (ok : FrameOk pool f')
    (hb : f'.stackBottom = f.stackBottom) : Stacked pool idx (f' :: rest) := by
  cases h with
  | entry _ bottom => exact .entry ok (hb.trans bottom)
  | call _ below suspended bottom => exact .call ok below suspended (hb.trans bottom)

end Stacked

/-! ## Records -/

/-- The extra arguments of the records, innermost first, lie one after another
    in an arena of length `len`, above the first `base` entries. -/
def Starts : List CallInfo → (len base : Nat) → Prop
  | [], len, base => len = base
  | r :: rs, len, base => r.varargStart ≤ len ∧ Starts rs r.varargStart base

/-- The records `rs` were pushed since `o`. -/
structure Acts (o : State W) (rs : List CallInfo) (s : State W) : Prop where
  callStack : s.callStack = rs ++ o.callStack
  starts : Starts rs s.varargStack.length o.varargStack.length
  metamethod : s.metamethodDepth = o.metamethodDepth + (rs.map CallInfo.units).sum
  callDepth : s.callDepth = o.callDepth + rs.length
  native : s.nativeCallDepth = o.nativeCallDepth

namespace Acts

variable {o s s' : State W} {r : CallInfo} {rs : List CallInfo}

/-- An operation that leaves the records alone. -/
theorem confined {lo hi : Nat} (h : Acts o rs s) (hc : Confined lo hi s s') (hl : Levels s s') :
    Acts o rs s' where
  callStack := hc.callStack.trans h.callStack
  starts := hc.varargs ▸ h.starts
  metamethod := hl.metamethod.trans h.metamethod
  callDepth := hc.callDepth.trans h.callDepth
  native := hl.native.trans h.native

/-- A call that was admitted pushed its record. -/
theorem entered {idx units : Nat} (h : Acts o rs s) (he : Entered idx units s s') :
    Acts o (⟨s.varargStack.length, units⟩ :: rs) s' where
  callStack := by rw [he.callStack, h.callStack]; rfl
  starts := ⟨he.varargs, h.starts⟩
  metamethod := by
    rw [he.metamethod, h.metamethod]
    simp only [List.map_cons, List.sum_cons]
    omega
  callDepth := by
    rw [he.callDepth, h.callDepth]
    simp only [List.length_cons]
    omega
  native := he.native.trans h.native

/-- Popping the innermost record. -/
theorem pop (h : Acts o (r :: rs) s) : Acts o rs { s with
    metamethodDepth := s.metamethodDepth - r.units
    varargStack := s.varargStack.take r.varargStart
    callStack := rs ++ o.callStack
    callDepth := s.callDepth - 1 } where
  callStack := rfl
  starts := by
    have := h.starts
    simp only [Starts] at this
    rw [List.length_take, min_eq_left this.1]
    exact this.2
  metamethod := by
    have := h.metamethod
    simp only [List.map_cons, List.sum_cons] at this
    show s.metamethodDepth - r.units = _
    omega
  callDepth := by
    have := h.callDepth
    simp only [List.length_cons] at this
    show s.callDepth - 1 = _
    omega
  native := h.native

end Acts

/-- The open upvalues above the entry slot `idx` of an invocation belong to the
    registers of its frames; the others were open when it started. -/
def OpensOk (o : State W) (idx : Nat) (frames : List Frame) (s : State W) : Prop :=
  ∀ p ∈ s.openUpvalues, p ∈ o.openUpvalues ∨
    idx + 1 ≤ p.1 ∧ ∀ f ∈ frames, p.1 + 1 ≠ f.stackBottom

namespace OpensOk

variable {o s s' : State W} {idx : Nat} {frames : List Frame}

theorem mono (h : OpensOk o idx frames s) (hs : s'.openUpvalues ⊆ s.openUpvalues) :
    OpensOk o idx frames s' :=
  fun p hp => h p (hs hp)

theorem tail {f : Frame} (h : OpensOk o idx (f :: frames) s) : OpensOk o idx frames s :=
  fun p hp => (h p hp).imp_right fun hp => ⟨hp.1, fun g hg => hp.2 g (List.mem_cons_of_mem _ hg)⟩

/-- The cursor of the innermost frame does not matter. -/
theorem setIp {f : Frame} (h : OpensOk o idx (f :: frames) s) (ip : Nat) :
    OpensOk o idx ({ f with ip := ip } :: frames) s := by
  intro p hp
  refine (h p hp).imp_right fun hp' => ⟨hp'.1, fun g hg => ?_⟩
  rcases List.mem_cons.1 hg with rfl | hg
  · exact hp'.2 f List.mem_cons_self
  · exact hp'.2 g (List.mem_cons_of_mem _ hg)

/-- No open upvalue points at the function slot of a frame. -/
theorem ne_slot (h : OpensOk o idx frames s) (ho : o.OpenBelow idx) {pool : Nat}
    (hf : Stacked pool idx frames) {f : Frame} (hmem : f ∈ frames) {p : Nat × Nat}
    (hp : p ∈ s.openUpvalues) : p.1 + 1 ≠ f.stackBottom := by
  rcases h p hp with hp | hp
  · have := ho p hp
    obtain ⟨g, hg⟩ : ∃ g, frames.head? = some g := by
      cases hf <;> exact ⟨_, rfl⟩
    have := (hf.bottom_le hg hmem).1
    omega
  · exact hp.2 f hmem

/-- Upvalues opened in the registers of the innermost frame. -/
theorem confined {f : Frame} {hi pool : Nat} (h : OpensOk o idx (f :: frames) s)
    (hf : Stacked pool idx (f :: frames)) (hc : Confined f.stackBottom hi s s') :
    OpensOk o idx (f :: frames) s' := by
  intro p hp
  rcases hc.opens p hp with hp | hp
  · exact h p hp
  · refine .inr ⟨?_, fun g hg => ?_⟩
    · have := (hf.bottom_le rfl List.mem_cons_self).1
      omega
    · have := (hf.bottom_le rfl hg).2
      omega

end OpensOk

/-! ## Unwinding -/

namespace Machine

variable {X : ErrorKind E → State W → Prop} {s : State W}

/-- An invocation stopped by an error: its records are those of its frames, and
    the stack still reaches the function slot of the innermost. -/
structure Stopped (o : State W) (idx : Nat) (frames : List Frame) (s : State W) : Prop where
  wf : s.Wf
  pool : o.upvaluePool.length ≤ s.upvaluePool.length
  stacked : Stacked s.upvaluePool.length idx frames
  acts : ∃ rs, rs.length = frames.length ∧ Acts o rs s
  opens : OpensOk o idx frames s
  below : s.OpenBelow s.stack.length
  reaches : ∀ f, frames.head? = some f → f.stackBottom ≤ s.stack.length + 1
  spared : Spared idx o s

/-- Unwinding one frame: its upvalues are closed, its slots dropped and its
    record popped. -/
theorem wp_unwindFrame {o : State W} {idx : Nat} {f : Frame} {rest : List Frame}
    (ho : o.OpenBelow idx) (h : Stopped o idx (f :: rest) s) {Q : Unit → State W → Prop}
    (hQ : ∀ s' rs, s'.Wf → o.upvaluePool.length ≤ s'.upvaluePool.length →
      s.upvaluePool.length = s'.upvaluePool.length → Acts o rs s' → rs.length = rest.length →
      OpensOk o idx rest s' → s'.OpenBelow (f.stackBottom - 1) →
      f.stackBottom ≤ s'.stack.length + 1 → Spared idx o s' → Q () s') :
    wp (do
      closeUpvalues f.stackBottom
      truncate f.stackBottom
      popActivation : Vm W E Unit) Q X s := by
  obtain ⟨rs, hlen, hacts⟩ := h.acts
  obtain ⟨r, rs, rfl⟩ : ∃ r rs', rs = r :: rs' := by
    cases rs with
    | nil => simp at hlen
    | cons r rs => exact ⟨r, rs, rfl⟩
  simp only [wp_bind]
  refine wp_mono_ok (wp_closeUpvalues h.wf h.below) fun _ s₁ h₁ => ?_
  have hconf : Confined idx idx s s₁ := h₁.confined
  have hacts₁ := hacts.confined hconf h₁.levels
  have hbottom := (h.stacked.bottom_le rfl List.mem_cons_self).1
  simp only [truncate, wp_modify]
  rw [wp_popActivation (by exact hacts₁.callStack)
    (by simp only [hacts₁.metamethod, List.map_cons, List.sum_cons]; omega)
    (by simp only [hacts₁.callDepth, List.length_cons]; omega)]
  have hpop := hacts₁.pop
  refine hQ _ rs (h₁.wf.congr rfl rfl rfl) (h.pool.trans h₁.pool.ge) h₁.pool.symm
    ⟨hpop.callStack, hpop.starts, hpop.metamethod, hpop.callDepth, hpop.native⟩ (by simpa using hlen)
    (h.opens.tail.mono h₁.opens) (fun p hp => ?_) ?_ ?_
  · have := h₁.below p hp
    have := h.opens.ne_slot ho h.stacked List.mem_cons_self (h₁.opens hp)
    omega
  · have := h.reaches f rfl
    rw [List.length_take, h₁.stack]
    omega
  · refine h.spared.agree ?_
    show AgreeBelow idx s.stack (s₁.stack.take f.stackBottom)
    rw [h₁.stack]
    exact .take (by omega)

/-- Unwinding the frames of an invocation leaves nothing of it. -/
theorem wp_unwindInvocation {o : State W} {idx : Nat} {frames : List Frame}
    (ho : o.OpenBelow idx) (h : Stopped o idx frames s) :
    wp (unwindInvocation o.stackBottom frames : Vm W E Unit)
      (fun _ s' => Refused idx o s') X s := by
  induction frames generalizing s with
  | nil => cases h.stacked
  | cons f rest ih =>
    have hstep := fun Q => wp_unwindFrame (X := X) (Q := Q) ho h
    simp only [wp_bind] at hstep
    rw [unwindInvocation]
    simp only [wp_bind]
    refine hstep _ fun s' rs hwf hpool hpools hacts hlen hopens hbelow hreach hspared => ?_
    rcases rest with _ | ⟨g, rest⟩
    · -- The entry frame: only its function slot is left.
      obtain rfl : rs = [] := by simpa using hlen
      have hbottom : f.stackBottom = idx + 1 := by
        cases h.stacked with
        | entry _ bottom => exact bottom
      simp only [List.head?_nil, unwindInvocation, setBottom, wp_modify]
      refine ⟨⟨hwf.congr rfl rfl rfl, rfl, hacts.callStack, hacts.starts, hacts.callDepth, hpool,
        fun p hp => ?_, hspared⟩, ⟨hacts.native, hacts.metamethod⟩, ?_⟩
      · refine (hopens p hp).imp_right fun hp' => ?_
        have := hbelow p hp
        omega
      · show idx ≤ s'.stack.length
        omega
    · -- A suspended frame, which is unwound next.
      obtain ⟨hrest, hbottom⟩ : Stacked s.upvaluePool.length idx (g :: rest) ∧
          g.stackBottom + 1 ≤ f.stackBottom := by
        cases h.stacked with
        | call _ below _ bottom => exact ⟨below, by omega⟩
      simp only [List.head?_cons, setBottom]
      refine ih ⟨hwf.congr rfl rfl rfl, hpool, hpools ▸ hrest, ⟨rs, hlen, ?_⟩, hopens,
        fun p hp => ?_, fun f' hf' => ?_, hspared⟩
      · exact ⟨hacts.callStack, hacts.starts, hacts.metamethod, hacts.callDepth, hacts.native⟩
      · have := hbelow p hp
        show p.1 < s'.stack.length
        omega
      · obtain rfl : g = f' := by simpa using hf'
        show g.stackBottom ≤ s'.stack.length + 1
        omega

end Machine

end Dellingr
