import Dellingr.Vm.Step

/-!
# Verified bytecode never faults

The runs of the dispatch loop over verified code, from the bottom up:

* `wp_runFrame`: the instructions of one activation, by induction on their
  bound;
* `wp_evalBatched`: the activations of an invocation, which calls, tail calls
  and returns pass from one to another;
* `wp_runInvocation`, `wp_callUnguarded`: an invocation, and a call from Rust,
  which meets the contract of calls if those nested in it do;
* `callOk_callFn`: every call does, by induction on their nesting.

`runInvocation_ne_panic` is the soundness of the verifier.
-/

namespace Dellingr

open Effect

variable {W E : Type}

namespace Machine

variable {rt : Runtime W E} {call : CallFn W E} {o s : State W} {idx : Nat} {f : Frame}
  {rest : List Frame}

/-! ## One activation -/

/-- How an activation was left: by the instruction before its cursor. -/
def Left (o : State W) (idx : Nat) (f : Frame) (rest : List Frame) (s : State W)
    (r : Leave × Nat) : Prop :=
  ∃ pc inst, r.2 = pc + 1 ∧ f.bytecode.code[pc]? = some inst ∧
    Stepped o idx f rest inst s (.leave r.1)

/-- An activation of verified code runs until it calls or returns. -/
theorem wp_runFrame (hcall : CallOk call) (ho : o.OpenBelow idx) {fuel ip : Nat}
    (h : Live o idx f rest s) (hat : AtCursor f ip s) :
    wp (runFrame rt call f fuel ip) (fun r s' => Left o idx f rest s' r)
      (fun _ s' => Stopped o idx (f :: rest) s') s := by
  induction fuel generalizing s ip with
  | zero => trivial
  | succ fuel ih =>
    obtain ⟨inst, hi, hpos⟩ := hat
    obtain ⟨hvalid, -, -⟩ := h.frameOk.admitted
    obtain ⟨op, hv⟩ := verifiedAt hvalid hi
    rw [runFrame, wp_bind, wp_demand hi, wp_bind]
    refine wp_mono_ok (wp_execInstr hcall ho h hpos hv) fun n s' h' => ?_
    rcases n with ip' | how
    · exact ih h'.1 h'.2
    · exact ⟨ip, inst, rfl, hi, h'⟩

/-! ## Frames -/

/-- The first instruction of verified code reads no open results. -/
theorem lands_zero {pool : Nat} (h : FrameOk pool f) : Lands f 0 := by
  obtain ⟨hvalid, -, -⟩ := h.admitted
  have hlt : 0 < f.bytecode.code.length := List.length_pos_iff.2 (headerOk hvalid).nonempty
  have hi := List.getElem?_eq_getElem hlt
  obtain ⟨op, hv⟩ := verifiedAt hvalid hi
  exact ⟨_, hi, hv.entry rfl⟩

/-- The frame of an admitted callee, above the frames `fs`. -/
theorem wp_admittedFrame {X : ErrorKind E → State W → Prop} {slot : Nat} {fs : List Frame}
    (h : Admitting o idx slot fs s) (hacts : ∃ rs, rs.length = fs.length + 1 ∧ Acts o rs s)
    (hstacked : ∀ g : Frame, FrameOk s.upvaluePool.length g → g.stackBottom = slot + 1 →
      Stacked s.upvaluePool.length idx (g :: fs)) {Q : Frame → State W → Prop}
    (hQ : ∀ g, Live o idx g fs s → AtCursor g g.ip s → g.stackBottom = slot + 1 → Q g s) :
    wp (admittedFrame : Vm W E Frame) Q X s := by
  obtain ⟨v, c, hv, hc, hlen⟩ := h.closure
  obtain ⟨hlt, hget⟩ := List.getElem?_eq_some_iff.1 hv
  have hbottom := h.bottom
  simp only [admittedFrame, wp_bind, wp_get]
  rw [wp_sub (by omega), show s.stackBottom - 1 = slot by omega, wp_readSlot hlt, hget,
    wp_demand hc, wp_pure]
  have hok : c.Ok s.upvaluePool.length := by
    cases v with
    | obj p => exact h.wf.closures p c hc
    | _ => simp [State.luaFunction] at hc
  let g : Frame := {
    bytecode := c.bytecode
    literals := c.literals
    upvalues := c.upvalues
    stackBottom := s.stackBottom
    top := s.stackBottom + c.bytecode.maxStack
    ip := 0 }
  have hframe : FrameOk s.upvaluePool.length g :=
    ⟨hok.admitted, hok.literals, hok.captures, hok.refs, by show 1 ≤ s.stackBottom; omega, rfl⟩
  have htop : s.stack.length = g.top := by
    show _ = s.stackBottom + c.bytecode.maxStack
    omega
  have hbelow : s.OpenBelow s.stack.length := h.below.mono hlt.le
  refine hQ g ⟨h.wf, h.pool, hstacked g hframe h.bottom, hacts, fun p hp => ?_, rfl, hbelow,
    htop ▸ hbelow, h.spared⟩ ((lands_zero hframe).atCursor htop) h.bottom
  refine (h.opens p hp).imp_right fun hp' => ⟨hp'.1, fun k hk => ?_⟩
  rcases List.mem_cons.1 hk with rfl | hk
  · have := h.below p hp
    show p.1 + 1 ≠ s.stackBottom
    omega
  · exact hp'.2 k hk

/-- The record of a tail callee takes the caller's place. -/
theorem wp_replaceTailCaller {X : ErrorKind E → State W → Prop} {slot : Nat} {fs : List Frame}
    (h : Admitting o idx slot fs s)
    (hacts : ∃ r r' rs, rs.length = fs.length ∧ r'.units = 0 ∧ Acts o (r :: r' :: rs) s) :
    wp (replaceTailCaller : Vm W E Unit)
      (fun _ s' => s'.upvaluePool = s.upvaluePool ∧ Admitting o idx slot fs s' ∧
        ∃ rs, rs.length = fs.length + 1 ∧ Acts o rs s') X s := by
  obtain ⟨r, r', rs, hlen, hunits, hacts⟩ := hacts
  obtain ⟨hr, hr', hstarts⟩ := hacts.starts
  have hdepth := hacts.callDepth
  simp only [List.length_cons] at hdepth
  simp only [replaceTailCaller, wp_bind, wp_get, hacts.callStack, List.cons_append]
  rw [wp_require ⟨hr', hr⟩, wp_sub (by omega)]
  simp only [wp_modify]
  refine ⟨trivial, ⟨h.wf.congr rfl rfl rfl, h.pool, h.bottom, h.closure, h.opens, h.below, h.spared⟩,
    ⟨r'.varargStart, r.units⟩ :: rs, by simp [hlen], rfl, ⟨?_, hstarts⟩, ?_, ?_, hacts.native⟩
  · simp only [List.length_append, List.length_take]
    omega
  · have := hacts.metamethod
    simp only [List.map_cons, List.sum_cons, hunits] at this ⊢
    omega
  · show s.callDepth - 1 = _
    simp only [List.length_cons]
    omega

/-- After a call the callee runs above the suspended frame. -/
theorem wp_enterCallee {X : ErrorKind E → State W → Prop} {inst : Instr} {pc : Nat}
    (hi : f.bytecode.code[pc]? = some inst) (h : Stepped o idx f rest inst s (.leave .call))
    {Q : Frame → State W → Prop}
    (hQ : ∀ g, Live o idx g ({ f with ip := pc + 1 } :: rest) s → AtCursor g g.ip s →
      s.OpenBelow (g.stackBottom - 1) → Q g s) :
    wp (admittedFrame : Vm W E Frame) Q X s := by
  obtain ⟨hop, hstacked, hadm, hacts⟩ := h
  have hadm' : Admitting o idx (f.stackBottom + inst.a) ({ f with ip := pc + 1 } :: rest) s :=
    ⟨hadm.wf, hadm.pool, hadm.bottom, hadm.closure, hadm.opens.setIp _, hadm.below, hadm.spared⟩
  refine wp_admittedFrame hadm' hacts (fun g hg hb => ?_) fun g hlive hat hb => ?_
  · exact .call hg (hstacked.setIp _) ⟨Nat.le_add_left 1 pc, hi, hop⟩ hb
  · refine hQ g hlive hat ?_
    rw [hb]
    exact hadm.below

/-- After a tail call the callee runs in the frame's place. -/
theorem wp_enterTailCallee {X : ErrorKind E → State W → Prop} {inst : Instr}
    (h : Stepped o idx f rest inst s (.leave .tailCall)) {Q : Unit → State W → Prop}
    (hQ : ∀ s', (∀ {R : Frame → State W → Prop}, (∀ g, Live o idx g rest s' →
      AtCursor g g.ip s' → s'.OpenBelow (g.stackBottom - 1) → R g s') →
        wp (admittedFrame : Vm W E Frame) R X s') → Q () s') :
    wp (replaceTailCaller : Vm W E Unit) Q X s := by
  obtain ⟨hstacked, hadm, hacts⟩ := h
  refine wp_mono_ok (wp_replaceTailCaller hadm hacts) fun _ s' h' => hQ s' fun hR => ?_
  obtain ⟨hpool, hadm', hacts'⟩ := h'
  refine wp_admittedFrame hadm' hacts' (fun g hg hb => ?_) fun g hlive hat hb => ?_
  · have hone := hstacked.head.bottom
    rw [hpool] at hg ⊢
    exact hstacked.replace hg (by omega)
  · refine hR g hlive hat ?_
    rw [hb]
    exact hadm'.below

/-! ## Returns -/

/-- A frame that returns `count` results from `first` on. -/
structure Returning (o : State W) (idx : Nat) (f : Frame) (rest : List Frame)
    (first count : Nat) (s : State W) : Prop where
  stopped : Stopped o idx (f :: rest) s
  first_le : f.stackBottom - 1 ≤ first
  count_le : first + count ≤ s.stack.length

/-- A return instruction leaves its frame with its results in the stack. -/
theorem returning_of_stepped {inst : Instr} {first count : Nat}
    (h : Stepped o idx f rest inst s (.leave (.ret first count))) (pc : Nat) :
    Returning o idx { f with ip := pc + 1 } rest first count s := by
  obtain ⟨hstop, hfirst, hcount⟩ := h
  refine ⟨⟨hstop.wf, hstop.pool, hstop.stacked.setIp _, hstop.acts, hstop.opens.setIp _,
    hstop.below, fun g hg => ?_, hstop.spared⟩, hfirst, hcount⟩
  obtain rfl : { f with ip := pc + 1 } = g := by simpa using hg
  exact hstop.reaches f rfl

/-- A frame returned: its results start at its function slot, and its record is
    gone. -/
structure Returned (o : State W) (idx : Nat) (f : Frame) (rest : List Frame) (n : Nat)
    (s : State W) : Prop where
  wf : s.Wf
  pool : o.upvaluePool.length ≤ s.upvaluePool.length
  stacked : Stacked s.upvaluePool.length idx (f :: rest)
  acts : ∃ rs, rs.length = rest.length ∧ Acts o rs s
  opens : OpensOk o idx rest s
  below : s.OpenBelow (f.stackBottom - 1)
  length : s.stack.length = f.stackBottom - 1 + n
  spared : Spared idx o s

/-- The results of a frame slide into its function slot, after which its record
    is popped. -/
theorem wp_collectReturning {X : ErrorKind E → State W → Prop} {first count : Nat}
    (ho : o.OpenBelow idx) (h : Returning o idx f rest first count s) :
    wp (collectReturns f first count : Vm W E Nat)
      (fun n s₁ => wp (popActivation : Vm W E Unit)
        (fun _ s' => Returned o idx f rest n s') X s₁)
      (fun _ s' => s' = s) s := by
  have hstop := h.stopped
  obtain ⟨rs, hlen, hacts⟩ := hstop.acts
  obtain ⟨r, rs, rfl⟩ : ∃ r rs', rs = r :: rs' := by
    cases rs with
    | nil => simp at hlen
    | cons r rs => exact ⟨r, rs, rfl⟩
  refine wp_mono_ok (wp_collectReturns hstop.wf hstop.below hstop.stacked.head.bottom h.first_le
    h.count_le) fun n s₁ h₁ => ?_
  obtain ⟨hc, hl, hbelow, hlen₁⟩ := h₁
  have hacts₁ := hacts.confined hc hl
  have hpop := hacts₁.pop
  rw [wp_popActivation hacts₁.callStack
    (by simp only [hacts₁.metamethod, List.map_cons, List.sum_cons]; omega)
    (by simp only [hacts₁.callDepth, List.length_cons]; omega)]
  have hopens := hstop.opens.mono fun _ hp => hc.mem_of_mem hp
  have hidx := (hstop.stacked.bottom_le rfl List.mem_cons_self).1
  refine ⟨hc.wf.congr rfl rfl rfl, hstop.pool.trans hc.pool, hstop.stacked.mono hc.pool,
    ⟨rs, by simpa using hlen, hpop⟩, hopens.tail, fun p hp => ?_, hlen₁, ?_⟩
  · have := hbelow p hp
    have := hstop.opens.ne_slot ho hstop.stacked List.mem_cons_self (hc.mem_of_mem hp)
    omega
  · refine hstop.spared.trans (fun p hp => (hstop.opens p hp).imp_right fun hp' => ?_)
      (hc.spared.mono (by omega))
    omega

/-- A caller resumes after its call instruction, with nothing open in the registers of
    its callee, or the invocation stops. -/
def Resumed (o : State W) (idx slot : Nat) (caller : Frame) (rest : List Frame) (s : State W) :
    List Frame × Except (ErrorKind E) Unit → Prop
  | (frames, .error _) => Stopped o idx frames s
  | (frames, .ok ()) => frames = caller :: rest ∧ Live o idx caller rest s ∧
    AtCursor caller caller.ip s ∧ s.OpenBelow slot

/-- A caller runs again once its callee returned. -/
theorem Returned.live {caller : Frame} {n : Nat} {inst : Instr}
    (h : Returned o idx f (caller :: rest) n s) (hv : VerifiedAt caller.bytecode (caller.ip - 1) inst .call)
    (hbottom : f.stackBottom = caller.stackBottom + inst.a + 1) :
    Live o idx caller rest { s with stackBottom := caller.stackBottom } := by
  obtain ⟨rs, hrs, hacts⟩ := h.acts
  have hcaller : Stacked s.upvaluePool.length idx (caller :: rest) := by
    cases h.stacked with
    | call _ below _ _ => exact below
  have ha : inst.a < caller.bytecode.maxStack := hv.operands.1
  have htop := hcaller.head.top
  have hlen := h.length
  exact ⟨h.wf.congr rfl rfl rfl, h.pool, hcaller,
    ⟨rs, hrs, hacts.callStack, hacts.starts, hacts.metamethod, hacts.callDepth, hacts.native⟩,
    h.opens, rfl, State.OpenBelow.mono h.below (by show _ ≤ s.stack.length; omega),
    State.OpenBelow.mono h.below (by omega), h.spared⟩

/-- A frame returns to its caller, which gets the results it asked for. -/
theorem wp_returnToCaller (ho : o.OpenBelow idx) {X : ErrorKind E → State W → Prop}
    {caller : Frame} {first count : Nat}
    (h : Returning o idx f (caller :: rest) first count s) :
    wp (returnToCaller f caller rest first count)
      (fun r s' => Resumed o idx (f.stackBottom - 1) caller rest s' r) X s := by
  obtain ⟨inst, hsusp, hbottom⟩ : ∃ inst, Suspended caller inst ∧
      f.stackBottom = caller.stackBottom + inst.a + 1 := by
    cases h.stopped.stacked with
    | call _ _ suspended bottom => exact ⟨_, suspended, bottom⟩
  simp only [returnToCaller, wp_bind, wp_attempt]
  refine wp_mono (wp_collectReturning (X := X) ho h) (fun n s₁ h₁ => ?_) fun e s₁ h₁ => ?_
  · refine wp_mono_ok h₁ fun _ s₂ h₂ => ?_
    -- What verification says of the call instruction.
    have hcaller : FrameOk s₂.upvaluePool.length caller := by
      cases h₂.stacked with
      | call _ below _ _ => exact below.head
    obtain ⟨hvalid, -, -⟩ := hcaller.admitted
    obtain ⟨op, hv⟩ := verifiedAt hvalid hsusp.code
    obtain rfl : op = .call := by
      have := hv.opcode.symm.trans hsusp.opcode
      simpa using this
    have hcursor : caller.ip - 1 + 1 = caller.ip := Nat.sub_add_cancel hsusp.cursor
    have hlive := h₂.live hv hbottom
    have hlen : s₂.stack.length = caller.stackBottom + inst.a + n := by
      rw [h₂.length]
      omega
    have hbelow : s₂.OpenBelow (caller.stackBottom + inst.a) := h₂.below.mono (by omega)
    simp only [setBottom, wp_modify, pendingCallResults, wp_bind]
    rw [wp_sub hsusp.cursor, wp_demand hsusp.code, wp_pure]
    refine wp_mono (wp_finishCall hlive.wf hlen) (fun _ s₃ h₃ => ?_) fun e s₃ h₃ => ?_
    · obtain ⟨hc, hl, hle, hfix⟩ := h₃
      have hlive₃ := hlive.confined (hc.widen (Nat.le_add_right _ _)) hl
        (State.OpenBelow.mono (hc.openBelow hbelow) hle)
      have hbelow₃ : s₃.OpenBelow (f.stackBottom - 1) :=
        State.OpenBelow.mono (hc.openBelow hbelow) (by omega)
      rcases hres : inst.callResults with k | _
      · have hp : inst.producesOpen = false := by
          simp only [Instr.producesOpen, hv.opcode, beq_eq_false_iff_ne]
          rintro hopen
          simp [Instr.callResults, RetCount.fromOperand, hopen] at hres
        have hlands : Lands caller caller.ip := hcursor ▸ hv.falls (by simp) hp
        simp only [resize, wp_bind, wp_modify, wp_pure]
        have htop := hcaller.top
        refine ⟨rfl, hlive₃.restack (.resize (by omega) (by omega)) ?_,
          hlands.atCursor (length_resize _ _), hbelow₃⟩
        rw [length_resize]
        exact hlive₃.belowTop
      · have hp : inst.producesOpen = true := by
          simp only [Instr.producesOpen, hv.opcode, beq_iff_eq]
          by_contra hopen
          rw [Instr.callResults, RetCount.fromOperand, if_neg hopen] at hres
          split at hres <;> simp at hres
        have hat := atCursor_of_producer hv hp hle
        rw [hcursor] at hat
        exact ⟨rfl, hlive₃, hat, hbelow₃⟩
    · subst h₃
      refine hlive.stopped ?_
      show caller.stackBottom ≤ s₂.stack.length + 1
      omega
  · subst h₁
    exact h.stopped

/-! ## Invocations -/

/-- The end of an invocation: its entry frame returns, or an error stopped it. -/
def Ended (o : State W) (idx : Nat) (s : State W) :
    List Frame × Except (ErrorKind E) (Nat × Nat) → Prop
  | (frames, .error _) => Stopped o idx frames s
  | (frames, .ok (first, count)) => ∃ f, frames = [f] ∧ Returning o idx f [] first count s

/-- The frames of an invocation run until its entry frame returns. -/
theorem wp_evalBatched (hcall : CallOk call) (ho : o.OpenBelow idx) {bound fuel : Nat}
    {X : ErrorKind E → State W → Prop} (h : Live o idx f rest s) (hat : AtCursor f f.ip s) :
    wp (evalBatched rt call bound fuel (f :: rest)) (fun r s' => Ended o idx s' r) X s := by
  induction fuel generalizing s f rest with
  | zero => trivial
  | succ fuel ih =>
    simp only [evalBatched, wp_bind, wp_attempt]
    refine wp_mono (wp_runFrame hcall ho h hat) (fun r s₁ h₁ => ?_) fun _ _ h₁ => h₁
    obtain ⟨how, ip⟩ := r
    obtain ⟨pc, inst, hip, hi, hstep⟩ := h₁
    obtain rfl : ip = pc + 1 := hip
    rcases how with _ | _ | ⟨first, count⟩
    · -- A call: the callee runs above the suspended frame.
      rw [wp_bind]
      exact wp_enterCallee hi hstep fun g hlive hat' _ => ih hlive hat'
    · -- A tail call: the callee runs in the frame's place.
      simp only [wp_bind]
      exact wp_enterTailCallee hstep fun s₂ h₂ => h₂ fun g hlive hat' _ => ih hlive hat'
    · -- A return, to the caller or out of the invocation.
      have hret := returning_of_stepped hstep pc
      rcases rest with _ | ⟨caller, rest⟩
      · exact ⟨_, rfl, hret⟩
      · simp only [wp_bind]
        refine wp_mono_ok (wp_returnToCaller ho hret) fun r s₂ h₂ => ?_
        obtain ⟨frames, e | ⟨⟩⟩ := r
        · exact h₂
        · obtain ⟨rfl, hlive, hat', -⟩ := h₂
          exact ih hlive hat'

/-- The entry frame of an invocation runs alone. -/
theorem wp_enterInvocation {X : ErrorKind E → State W → Prop} (ho : o.OpenBelow idx) {units : Nat}
    (h : Entered idx units o s) {Q : Frame → State W → Prop}
    (hQ : ∀ g, Live o idx g [] s → AtCursor g g.ip s → s.OpenBelow (g.stackBottom - 1) → Q g s) :
    wp (admittedFrame : Vm W E Frame) Q X s := by
  have hadm : Admitting o idx idx [] s :=
    ⟨h.wf, h.pool, h.bottom, h.closure, fun p hp => .inl (h.opens hp),
      fun p hp => ho p (h.opens hp), h.spared⟩
  have hbase : Acts o [] o := ⟨rfl, rfl, rfl, rfl, rfl⟩
  refine wp_admittedFrame hadm ⟨_, rfl, hbase.entered h⟩ (fun g hg hb => .entry hg hb)
    fun g hlive hat hb => hQ g hlive hat ?_
  rw [hb]
  exact hadm.below

/-- An admitted call runs to completion and leaves its results at its function
    slot, or nothing of it is left. -/
theorem wp_runInvocation (hcall : CallOk call) (ho : o.OpenBelow idx) (bound : Nat) {units : Nat}
    (h : Entered idx units o s) :
    wp (runInvocation rt call bound o.stackBottom)
      (fun n s' => Confined idx idx o s' ∧ Levels o s' ∧ s'.stack.length = idx + n)
      (fun _ s' => Refused idx o s') s := by
  simp only [runInvocation, wp_bind]
  refine wp_enterInvocation ho h fun g hlive hat _ => ?_
  refine wp_mono_ok (wp_evalBatched hcall ho hlive hat) fun r s₁ h₁ => ?_
  obtain ⟨frames, e | ⟨first, count⟩⟩ := r
  · simp only [wp_bind]
    exact wp_unwindInvocation ho h₁
  · obtain ⟨f, rfl, hret⟩ := h₁
    simp only [wp_bind, List.head?_cons, wp_demand_some, wp_attempt]
    refine wp_mono (wp_collectReturning (X := fun _ s' => Refused idx o s') ho hret)
      (fun n s₂ h₂ => ?_) fun e s₂ h₂ => ?_
    · refine wp_mono_ok h₂ fun _ s₃ h₃ => ?_
      simp only [setBottom, wp_modify, wp_pure]
      obtain ⟨rs, hrs, hacts⟩ := h₃.acts
      obtain rfl : rs = [] := by simpa using hrs
      have hbottom : f.stackBottom = idx + 1 := by
        cases h₃.stacked with
        | entry _ bottom => exact bottom
      have hbelow := h₃.below
      rw [hbottom] at hbelow
      refine ⟨⟨h₃.wf.congr rfl rfl rfl, rfl, hacts.callStack, hacts.starts, hacts.callDepth,
        h₃.pool, fun p hp => ?_, h₃.spared⟩, ⟨hacts.native, hacts.metamethod⟩, ?_⟩
      · refine (h₃.opens p hp).imp_right fun hp' => ?_
        have := hbelow p hp
        omega
      · have := h₃.length
        show s₃.stack.length = _
        omega
    · subst h₂
      exact wp_unwindInvocation ho hret.stopped

/-! ## Calls made from Rust -/

/-- A completed call: its results take the callee's place. -/
def Completed (base : Nat) (expected : RetCount) (s s' : State W) : Prop :=
  Confined base base s s' ∧ Levels s s' ∧ base ≤ s'.stack.length ∧
    ∀ n, expected = .fixed n → s'.stack.length = base + n

/-- A callee is found below its arguments, if there are so many values in the frame. -/
theorem callBase_eq_ok {numArgs base : Nat} {s' : State W} (hle : s.stackBottom ≤ s.stack.length)
    (h : (callBase numArgs : Vm W E Nat) s = .ok base s') :
    s.stackBottom ≤ base ∧ s.stack.length = base + 1 + numArgs := by
  have hbase : wp (callBase numArgs : Vm W E Nat)
      (fun base _ => s.stackBottom ≤ base ∧ s.stack.length = base + 1 + numArgs)
      (fun _ _ => True) s := by
    simp only [callBase, wp_bind]
    rw [wp_getTop hle]
    simp only [wp_get]
    refine wp_ite (fun hroom => ?_) fun _ => trivial
    exact ⟨by omega, by omega⟩
  exact hbase.ok h

/-- A call is started and run to completion, and its results adjusted. -/
theorem wp_completeCall (hcall : CallOk call) {bound base numArgs : Nat} {expected : RetCount}
    (h : s.Wf) (hnum : numArgs ≤ MAX_ARGUMENTS) (hlen : s.stack.length = base + 1 + numArgs)
    (hb : s.OpenBelow base) :
    wp (do
      let actual ← (do
        match ← beginCall rt call base numArgs s.stackBottom false with
        | some n => return n
        | none => runInvocation rt call bound s.stackBottom)
      finishCall expected actual : Vm W E Unit)
      (fun _ s' => Completed base expected s s') (fun _ s' => Refused base s s') s := by
  have finish : ∀ n s₁, Confined base base s s₁ → Levels s s₁ → s₁.stack.length = base + n →
      wp (finishCall expected n : Vm W E Unit) (fun _ s' => Completed base expected s s')
        (fun _ s' => Refused base s s') s₁ := by
    intro n s₁ hc hl hlen₁
    refine wp_mono (wp_finishCall hc.wf hlen₁) (fun _ s' h' => ?_) fun _ s' h' => ?_
    · exact ⟨hc.trans h'.1, hl.trans h'.2.1, h'.2.2⟩
    · subst h'
      exact ⟨hc, hl, by omega⟩
  simp only [wp_bind]
  refine wp_mono_ok (wp_beginCall hcall h hnum hlen hb (by simp)) fun r s₁ h₁ => ?_
  rcases r with _ | n
  · obtain ⟨units, he⟩ := h₁
    refine wp_mono_ok (wp_runInvocation hcall hb bound he) fun n s₂ h₂ => ?_
    exact finish n s₂ h₂.1 h₂.2.1 h₂.2.2
  · exact finish n s₁ h₁.1 h₁.2.1 h₁.2.2

/-- What is confined while a native level is held is confined once it is given
    back. -/
theorem confined_native {s' : State W} {n : Nat}
    (hc : Confined n n { s with nativeCallDepth := s.nativeCallDepth + 1 } s')
    (hl : Levels { s with nativeCallDepth := s.nativeCallDepth + 1 } s') :
    1 ≤ s'.nativeCallDepth ∧
      Confined n n s { s' with nativeCallDepth := s'.nativeCallDepth - 1 } ∧
      Levels s { s' with nativeCallDepth := s'.nativeCallDepth - 1 } := by
  have hn : s'.nativeCallDepth = s.nativeCallDepth + 1 := hl.native
  refine ⟨by omega, ⟨hc.wf.congr rfl rfl rfl, hc.bottom, hc.callStack, hc.varargs, hc.callDepth,
    hc.pool, hc.opens, hc.spared⟩, ?_, hl.metamethod⟩
  show s'.nativeCallDepth - 1 = _
  omega

/-- A call made from Rust meets the contract if those nested in it do. -/
theorem callOk_callUnguarded (rt : Runtime W E) (hcall : CallOk call) (bound : Nat) :
    CallOk (callUnguarded rt call bound) := by
  intro numArgs expected s hnum h hle hb
  by_cases hroom : s.stackBottom + (numArgs + 1) ≤ s.stack.length
  · have hlen : s.stack.length = s.stack.length - (numArgs + 1) + 1 + numArgs := by omega
    rw [State.calleeSlot, max_eq_right (by omega)] at hb ⊢
    generalize s.stack.length - (numArgs + 1) = base at hlen hb ⊢
    -- After an error the callee's slot and everything above it are dropped.
    have undo : ∀ (e : ErrorKind E) s', Refused base s s' →
        wp (do
          truncate base
          setBottom s.stackBottom
          fail e : Vm W E Unit) (fun _ s' => Completed base expected s s')
          (fun _ s' => Confined base base s s' ∧ Levels s s' ∧ s.stackBottom ≤ s'.stack.length ∧
            s'.stack.length = base) s' := by
      intro e s' h'
      obtain ⟨hc, hl, hle'⟩ := h'
      have hlen' : (s'.stack.take base).length = base := by
        rw [List.length_take, min_eq_left hle']
      simp only [truncate, setBottom, wp_bind, wp_modify, wp_fail]
      refine ⟨⟨hc.wf.congr rfl rfl rfl, rfl, hc.callStack, hc.varargs, hc.callDepth, hc.pool,
        hc.opens, hc.spared.agree (.take (le_refl base))⟩, ⟨hl.native, hl.metamethod⟩, ?_, hlen'⟩
      show s.stackBottom ≤ (s'.stack.take base).length
      omega
    suffices hmain : wp (callUnguarded rt call bound numArgs expected)
        (fun _ s' => Completed base expected s s')
        (fun _ s' => Confined base base s s' ∧ Levels s s' ∧ s.stackBottom ≤ s'.stack.length ∧
          s'.stack.length = base) s by
      refine wp_mono hmain (fun _ s' h' => ?_) fun _ s' h' => ?_
      · exact ⟨h'.1, h'.2.1, hroom, h'.2.2⟩
      · exact ⟨h'.1, h'.2.1, h'.2.2.1, fun _ => h'.2.2.2⟩
    rw [callUnguarded, wp_bind, wp_callBase (by omega) hlen]
    simp only [wp_bind (m := get), wp_get]
    rw [wp_bind, wp_attempt]
    refine wp_ite (fun _ => undo
      (.nativeCallDepthExceeded s.nativeCallDepth MAX_NATIVE_CALL_DEPTH) s
      ⟨.refl h, .refl s, by omega⟩) fun _ => ?_
    rw [wp_bind, wp_modify]
    show wp (attempt _ >>= _) _ _ { s with nativeCallDepth := s.nativeCallDepth + 1 }
    rw [wp_bind, wp_attempt]
    refine wp_mono (wp_completeCall hcall (h.congr rfl rfl rfl) hnum hlen hb) (fun _ s' h' => ?_)
      fun e s' h' => ?_
    · obtain ⟨hn, hc, hl⟩ := confined_native h'.1 h'.2.1
      simp only [wp_bind, wp_get]
      rw [wp_sub hn]
      exact ⟨hc, hl, h'.2.2⟩
    · obtain ⟨hn, hc, hl⟩ := confined_native h'.1 h'.2.1
      simp only [wp_bind, wp_get]
      rw [wp_sub hn]
      have hundo := undo e _ ⟨hc, hl, h'.2.2⟩
      simp only [wp_bind] at hundo
      exact hundo
  · -- There is no callee below so many arguments.
    simp only [callUnguarded, callBase, wp_bind]
    rw [wp_getTop hle]
    simp only [wp_get]
    rw [if_neg (by omega), wp_fail]
    exact ⟨.refl h, .refl s, hle, fun hlt => absurd hlt hroom⟩

/-- Every call made from Rust meets the contract, however deep calls nest. -/
theorem callOk_callFn (rt : Runtime W E) (bound depth : Nat) : CallOk (callFn rt bound depth) := by
  induction depth with
  | zero => exact fun _ _ _ _ _ _ _ => trivial
  | succ depth ih => exact callOk_callUnguarded rt ih bound

end Machine

/-! ## Soundness -/

/-- A Lua activation was just admitted: its closure sits below its registers,
    its record is the innermost, and no open upvalue points into it. Every Lua
    function is a closure over a verified tree (`State.Wf`). -/
structure State.Ready (s : State W) : Prop where
  wf : s.Wf
  closure : ∃ v c, 1 ≤ s.stackBottom ∧ s.stack[s.stackBottom - 1]? = some v ∧
    s.luaFunction v = some c ∧ s.stack.length = s.stackBottom + c.bytecode.maxStack
  record : ∃ info rest, s.callStack = info :: rest ∧
    info.varargStart ≤ s.varargStack.length ∧ info.units ≤ s.metamethodDepth
  depth : 1 ≤ s.callDepth
  opens : s.OpenBelow (s.stackBottom - 1)

open Machine in
/-- The dispatch loop over verified code never faults: whatever the runtime, the
    Rust functions and the bounds on a run are, it ends with results or with an
    error, or it is still running. -/
theorem runInvocation_ne_panic (rt : Runtime W E) (bound depth old : Nat) {s : State W}
    (h : s.Ready) : runInvocation rt (callFn rt bound depth) bound old s ≠ .panic := by
  obtain ⟨v, c, hone, hv, hc, hlen⟩ := h.closure
  obtain ⟨info, rest, hs, hstart, hunits⟩ := h.record
  have hdepth := h.depth
  -- The state before the admission.
  let o : State W := { s with
    stackBottom := old
    callStack := rest
    varargStack := s.varargStack.take info.varargStart
    callDepth := s.callDepth - 1
    metamethodDepth := s.metamethodDepth - info.units }
  have hvarargs : o.varargStack.length = info.varargStart := by
    rw [List.length_take, min_eq_left hstart]
  have hentered : Entered (s.stackBottom - 1) info.units o s :=
    ⟨h.wf, by omega, ⟨v, c, hv, hc, by omega⟩, by rw [hs, hvarargs], hvarargs ▸ hstart,
      by show s.callDepth = s.callDepth - 1 + 1; omega, rfl,
      by show s.metamethodDepth = s.metamethodDepth - info.units + info.units; omega,
      le_refl _, fun _ hp => hp, .refl _ _⟩
  have ho : o.OpenBelow (s.stackBottom - 1) := h.opens
  have hrun : wp (runInvocation rt (callFn rt bound depth) bound old) _ _ s :=
    wp_runInvocation (callOk_callFn rt bound depth) ho bound hentered
  intro hpanic
  rw [wp, hpanic] at hrun
  exact hrun

/-- A runtime that grants everything and computes nothing. -/
def idleRuntime : Runtime Unit Unit where
  pollInterrupt := .ok
  charge _ := .ok
  chargeElements _ := .ok
  flushCost := .ok
  allocString _ w := .ok (.nil, w)
  allocClosure w := (⟨0, 0⟩, w)
  allocTable _ w := (.nil, w)
  allocTableWithTemplate _ w := (.nil, w)
  readGlobal _ _ w := (.nil, w)
  writeGlobal _ _ _ w := w
  readBuiltin _ _ := .nil
  writeBuiltin _ _ w := w
  resolveIndex _ _ _ _ w := .ok (.value .nil, w)
  storeField _ _ _ _ _ w := .ok (none, w)
  resolveLength _ w := .ok (.inl .nil, w)
  initField _ _ _ _ := .ok
  setList _ _ _ := .ok
  arithmetic _ x _ := x
  arithmeticError _ _ _ := ()
  negate x := x
  concat _ w := .ok (.nil, w)
  compare _ _ _ _ := .ok false
  forTypeError _ _ := ()
  forStep x _ := x
  forCondition _ _ _ := false
  tforDirect _ _ _ _ w := (none, w)
  callHandler _ _ := .nil
  rustFunction _ _ := .done (.ok 0)

/-- `return ...`: a vararg of every value, consumed by an open return. -/
def returnVarargs : Bytecode where
  code := [Instr.pack .vararg 0 (BitVec.ofNat 16 OPEN_COUNT) 0 0,
    Instr.pack .ret 0 (BitVec.ofNat 16 OPEN_COUNT) 0 0]
  maxStack := 1
  isVararg := true
  lineInfo := [1, 1]

theorem admitted_returnVarargs : Admitted returnVarargs :=
  ⟨by decide, by simp [returnVarargs], by simp [returnVarargs]⟩

/-- The state in which a call of `returnVarargs` with one argument was just
    admitted. -/
def returnVarargsState : State Unit where
  stack := [.obj ⟨0, 0⟩, .nil]
  stackBottom := 1
  openUpvalues := []
  upvaluePool := []
  luaFunctions p := if p = ⟨0, 0⟩ then some ⟨returnVarargs, [], []⟩ else none
  callStack := [⟨0, 0⟩]
  varargStack := [.bool true]
  callDepth := 1
  nativeCallDepth := 1
  metamethodDepth := 0
  world := ()

theorem runInvocation_ne_panic_returnVarargs :
    returnVarargsState.Ready ∧ Machine.runInvocation idleRuntime
      (Machine.callFn idleRuntime 10 2) 10 0 returnVarargsState ≠ .panic := by
  have hready : returnVarargsState.Ready := by
    refine ⟨⟨.nil, fun i r => by simp [returnVarargsState], fun p c hc => ?_⟩,
      ⟨_, _, le_refl _, rfl, rfl, rfl⟩, ⟨_, _, rfl, Nat.zero_le _, le_refl _⟩, le_refl _,
      fun p hp => by simp [returnVarargsState] at hp⟩
    simp only [returnVarargsState] at hc
    split at hc
    · simp only [Option.some.injEq] at hc
      subst hc
      exact ⟨admitted_returnVarargs, rfl, rfl, by simp⟩
    · simp at hc
  exact ⟨hready, runInvocation_ne_panic idleRuntime 10 2 0 hready⟩

end Dellingr
