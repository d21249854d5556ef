import Dellingr.Vm.Balance

/-!
# The reachable states

The states a machine passes through, from its start on. A host starts the machine and
runs a program of its own (`State.boot`), which may call functions; a call may run a Lua
function, whose activations step from instruction to instruction (`Step`), and an
instruction or a Rust function may call again, one level deeper (`Called`, `Reached`).

The invariant of execution holds throughout: a call is made in a state that is ready for
it (`callReady_of_called`), and a frame that is reached runs on top of the suspended
frames of its invocation (`running_of_reached`).
-/

namespace Dellingr

open Effect

variable {W E : Type}

/-- A machine that has run nothing. -/
def State.boot (w : W) : State W where
  stack := []
  stackBottom := 0
  openUpvalues := []
  upvaluePool := []
  luaFunctions _ := none
  callStack := []
  varargStack := []
  callDepth := 0
  nativeCallDepth := 0
  metamethodDepth := 0
  world := w

theorem State.wf_boot (w : W) : (State.boot w).Wf :=
  ⟨.nil, by simp [State.boot], by simp [State.boot]⟩

/-! ## Steps of an invocation -/

namespace Machine

/-- What a step does to the innermost activation: it goes on, another one is entered, or
    it returns to its caller. -/
inductive Turn
  | goes
  | enters
  | returns

/-- One step of the frames of an invocation, the innermost first: an instruction of the
    innermost, after which it goes on, its callee runs, a tail callee runs in its place, or
    its caller goes on. -/
inductive Step (rt : Runtime W E) (call : CallFn W E) :
    Turn → List Frame → State W → List Frame → State W → Prop
  | next {f : Frame} {rest : List Frame} {inst : Instr} {ip : Nat} {s s' : State W}
      (fetch : f.bytecode.code[f.ip]? = some inst)
      (exec : execInstr rt call f inst (f.ip + 1) s = .ok (.next ip) s') :
      Step rt call .goes (f :: rest) s ({ f with ip := ip } :: rest) s'
  | call {f g : Frame} {rest : List Frame} {inst : Instr} {s s₁ s' : State W}
      (fetch : f.bytecode.code[f.ip]? = some inst)
      (exec : execInstr rt call f inst (f.ip + 1) s = .ok (.leave .call) s₁)
      (admitted : (admittedFrame : Vm W E Frame) s₁ = .ok g s') :
      Step rt call .enters (f :: rest) s (g :: { f with ip := f.ip + 1 } :: rest) s'
  | tailCall {f g : Frame} {rest : List Frame} {inst : Instr} {s s₁ s₂ s' : State W}
      (fetch : f.bytecode.code[f.ip]? = some inst)
      (exec : execInstr rt call f inst (f.ip + 1) s = .ok (.leave .tailCall) s₁)
      (replaced : (replaceTailCaller : Vm W E Unit) s₁ = .ok () s₂)
      (admitted : (admittedFrame : Vm W E Frame) s₂ = .ok g s') :
      Step rt call .enters (f :: rest) s (g :: rest) s'
  | ret {f caller : Frame} {rest frames : List Frame} {inst : Instr} {first count : Nat}
      {s s₁ s' : State W} (fetch : f.bytecode.code[f.ip]? = some inst)
      (exec : execInstr rt call f inst (f.ip + 1) s = .ok (.leave (.ret first count)) s₁)
      (returned : (returnToCaller { f with ip := f.ip + 1 } caller rest first count :
        Vm W E (List Frame × Except (ErrorKind E) Unit)) s₁ = .ok (frames, .ok ()) s') :
      Step rt call .returns (f :: caller :: rest) s frames s'

end Machine

open Machine

/-! ## Calls and frames -/

/-- The calls made from Rust in a run: by the host's own program, or while another call
    runs, one level deeper. -/
inductive Called (rt : Runtime W E) (bound : Nat) :
    (depth numArgs : Nat) → RetCount → State W → Prop
  | host {host : Host W E} {w : W} {depth n : Nat} {e : RetCount} {t : State W}
      (makes : Makes (fun call => runHost rt call host) (callFn rt bound depth) (.boot w) n e t) :
      Called rt bound depth n e t
  | nested {depth numArgs n : Nat} {expected e : RetCount} {s t : State W}
      (called : Called rt bound (depth + 1) numArgs expected s)
      (makes : Makes (fun call => callUnguarded rt call bound numArgs expected)
        (callFn rt bound depth) s n e t) :
      Called rt bound depth n e t

/-- The frames and states of the invocations of a run. -/
inductive Reached (rt : Runtime W E) (bound : Nat) : (depth : Nat) → List Frame → State W → Prop
  | enter {depth numArgs idx : Nat} {expected : RetCount} {g : Frame} {s s₁ s' : State W}
      (called : Called rt bound (depth + 1) numArgs expected s)
      (base : (callBase numArgs : Vm W E Nat) s = .ok idx s)
      (begun : beginCall rt (callFn rt bound depth) idx numArgs s.stackBottom false
        { s with nativeCallDepth := s.nativeCallDepth + 1 } = .ok none s₁)
      (admitted : (admittedFrame : Vm W E Frame) s₁ = .ok g s') :
      Reached rt bound depth [g] s'
  | step {depth : Nat} {turn : Turn} {frames frames' : List Frame} {s s' : State W}
      (reached : Reached rt bound depth frames s)
      (step : Step rt (callFn rt bound depth) turn frames s frames' s') :
      Reached rt bound depth frames' s'

/-! ## The invariant -/

section Invariant

variable {rt : Runtime W E} {bound depth : Nat}

/-- Every call is made in a state that is ready for it. -/
theorem callReady_of_called {n : Nat} {e : RetCount} {s : State W}
    (h : Called rt bound depth n e s) : s.CallReady n := by
  induction h with
  | host makes =>
    exact callReady_of_host (callOk_callFn rt bound _) (State.wf_boot _) (le_refl 0)
      (fun p hp => by simp [State.boot] at hp) makes
  | nested _ makes ih => exact callReady_of_makes (callOk_callFn rt bound _) ih makes

/-- The innermost frame of an invocation runs on top of the others. -/
def Running (frames : List Frame) (s : State W) : Prop :=
  ∃ o idx f rest, frames = f :: rest ∧ o.OpenBelow idx ∧ Live o idx f rest s ∧ AtCursor f f.ip s

/-- The cursor of a running frame does not matter. -/
theorem Live.setIp {o s : State W} {idx : Nat} {f : Frame} {rest : List Frame}
    (h : Live o idx f rest s) (ip : Nat) : Live o idx { f with ip := ip } rest s where
  wf := h.wf
  pool := h.pool
  stacked := h.stacked.setIp ip
  acts := h.acts
  opens := h.opens.setIp ip
  bottom := h.bottom
  below := h.below
  belowTop := h.belowTop
  spared := h.spared

/-- What holds after a step of a running invocation: it runs on, and no open upvalue points
    into the activation that was entered or left. -/
structure Stepped (turn : Turn) (frames : List Frame) (frames' : List Frame) (s' : State W) :
    Prop where
  running : Running frames' s'
  enters : turn = .enters → ∀ g rest, frames' = g :: rest → s'.OpenBelow (g.stackBottom - 1)
  returns : turn = .returns → ∀ f rest, frames = f :: rest → s'.OpenBelow (f.stackBottom - 1)

theorem stepped_of_step {call : CallFn W E} (hcall : CallOk call) {turn : Turn}
    {frames frames' : List Frame} {s s' : State W} (h : Running frames s)
    (hs : Step rt call turn frames s frames' s') : Stepped turn frames frames' s' := by
  obtain ⟨o, idx, f, rest, rfl, ho, hlive, hat⟩ := h
  obtain ⟨inst, hi, hpos⟩ := hat
  obtain ⟨hvalid, -, -⟩ := hlive.frameOk.admitted
  obtain ⟨op, hv⟩ := verifiedAt hvalid hi
  have hexec : wp (execInstr rt call f inst (f.ip + 1)) _ _ s :=
    wp_execInstr hcall ho hlive hpos hv
  cases hs with
  | next fetch exec =>
    obtain rfl := Option.some.inj (hi.symm.trans fetch)
    obtain ⟨hlive', hat'⟩ := hexec.ok exec
    exact ⟨⟨o, idx, _, rest, rfl, ho, hlive'.setIp _, hat'⟩, nofun, nofun⟩
  | call fetch exec admitted =>
    obtain rfl := Option.some.inj (hi.symm.trans fetch)
    have henter := wp_enterCallee (E := E) (X := fun _ _ => True) hi (hexec.ok exec)
      (Q := fun g s' => Stepped .enters (f :: rest) (g :: { f with ip := f.ip + 1 } :: rest) s')
      fun g hlive' hat' hb => ⟨⟨o, idx, g, _, rfl, ho, hlive', hat'⟩,
        fun _ g' rest' hg => by obtain ⟨rfl, -⟩ := List.cons.inj hg; exact hb, nofun⟩
    exact henter.ok admitted
  | tailCall fetch exec replaced admitted =>
    obtain rfl := Option.some.inj (hi.symm.trans fetch)
    have henter := wp_enterTailCallee (E := E) (X := fun _ _ => True) (hexec.ok exec)
      (Q := fun _ s₂ => wp (admittedFrame : Vm W E Frame)
        (fun g s' => Stepped .enters (f :: rest) (g :: rest) s') (fun _ _ => True) s₂)
      fun s₂ h₂ => h₂ fun g hlive' hat' hb => ⟨⟨o, idx, g, _, rfl, ho, hlive', hat'⟩,
        fun _ g' rest' hg => by obtain ⟨rfl, -⟩ := List.cons.inj hg; exact hb, nofun⟩
    exact (henter.ok replaced).ok admitted
  | ret fetch exec returned =>
    obtain rfl := Option.some.inj (hi.symm.trans fetch)
    have hret := wp_returnToCaller (E := E) ho (X := fun _ _ => True)
      (returning_of_stepped (hexec.ok exec) f.ip)
    obtain ⟨rfl, hlive', hat', hb⟩ := hret.ok returned
    exact ⟨⟨o, idx, _, _, rfl, ho, hlive', hat'⟩, nofun,
      fun _ f' rest' hf => by obtain ⟨rfl, -⟩ := List.cons.inj hf; exact hb⟩

/-- The frames of a run are running. -/
theorem running_of_reached {frames : List Frame} {s : State W}
    (h : Reached rt bound depth frames s) : Running frames s := by
  induction h with
  | @enter numArgs idx expected g s s₁ s' called base begun admitted =>
    have hready := callReady_of_called called
    obtain ⟨hle, hlen⟩ := callBase_eq_ok hready.bottom base
    have hslot : s.calleeSlot numArgs = idx := by
      rw [State.calleeSlot, max_eq_right (by omega)]
      omega
    let o : State W := { s with nativeCallDepth := s.nativeCallDepth + 1 }
    have ho : o.OpenBelow idx := hslot ▸ hready.opens
    have hbegin : wp (beginCall rt (callFn rt bound depth) idx numArgs o.stackBottom false) _ _ o :=
      wp_beginCall (callOk_callFn rt bound depth) (hready.wf.congr rfl rfl rfl) hready.args hlen ho
        fun h => absurd h Bool.false_ne_true
    obtain ⟨units, hentered⟩ : Started idx o s₁ none := hbegin.ok begun
    have henter := wp_enterInvocation (E := E) (X := fun _ _ => True) ho hentered
      (Q := fun g s' => Running [g] s') fun g hlive hat _ => ⟨o, idx, g, [], rfl, ho, hlive, hat⟩
    exact henter.ok admitted
  | step _ step ih => exact (stepped_of_step (callOk_callFn rt bound _) ih step).running

end Invariant

end Dellingr
