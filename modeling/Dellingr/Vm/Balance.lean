import Dellingr.Vm.Soundness

/-!
# Calls are balanced

A call made from Rust gives back what it takes: whatever the callee does and however
the call ends, the depth counters, the bottom of the frame, the records of the active
calls and the extra arguments are as they were, and the stack ends at the callee's slot,
with the results above it on success (`Balanced`). Below that slot the call changes only
what open upvalues point at, since a closure may assign the variables it captured.

A call is made in a state that is ready for it (`State.CallReady`), and so is every call
that is made while it runs (`Makes`): the contract of calls asks for nothing more, so that
a call in another state could as well panic.
-/

namespace Dellingr

open Effect

variable {W E α : Type}

/-- A state in which a function may be called with `numArgs` arguments: the count fits its
    width, the state is well formed, and the slots of the running Rust function from the
    callee on are its own. -/
structure State.CallReady (s : State W) (numArgs : Nat) : Prop where
  args : numArgs ≤ MAX_ARGUMENTS
  wf : s.Wf
  bottom : s.stackBottom ≤ s.stack.length
  opens : s.OpenBelow (s.calleeSlot numArgs)

/-- What a call restores, however it ends. -/
structure Balanced (s s' : State W) : Prop where
  nativeCallDepth : s'.nativeCallDepth = s.nativeCallDepth
  callDepth : s'.callDepth = s.callDepth
  metamethodDepth : s'.metamethodDepth = s.metamethodDepth
  stackBottom : s'.stackBottom = s.stackBottom
  callStack : s'.callStack.length = s.callStack.length
  varargStack : s'.varargStack.length = s.varargStack.length

theorem Confined.balanced {n : Nat} {s s' : State W} (hc : Confined n n s s') (hl : Levels s s') :
    Balanced s s' :=
  ⟨hl.native, hc.callDepth, hl.metamethod, hc.bottom, congrArg List.length hc.callStack, hc.varargs⟩

/-! ## Nested calls -/

open Classical in
/-- The calls `call`, except that the one for `expected` results with `numArgs` arguments
    in the state `t` panics. -/
noncomputable def trap (call : CallFn W E) (numArgs : Nat) (expected : RetCount) (t : State W) :
    CallFn W E :=
  fun n e s => if n = numArgs ∧ e = expected ∧ s = t then .panic else call n e s

/-- A computation that makes calls makes a certain one: it panics once that call does. -/
def Makes (m : CallFn W E → Vm W E α) (call : CallFn W E) (s : State W) (numArgs : Nat)
    (expected : RetCount) (t : State W) : Prop :=
  m (trap call numArgs expected t) s = .panic

/-- Trapping a call that should not be made keeps the contract. -/
theorem callOk_trap {call : CallFn W E} (hcall : CallOk call) {numArgs : Nat}
    (expected : RetCount) {t : State W} (ht : ¬t.CallReady numArgs) :
    CallOk (trap call numArgs expected t) := by
  intro n e s hn h hle hb
  have hne : ¬(n = numArgs ∧ e = expected ∧ s = t) := by
    rintro ⟨rfl, rfl, rfl⟩
    exact ht ⟨hn, h, hle, hb⟩
  have heq : trap call numArgs expected t n e s = call n e s := if_neg hne
  have hcalled := hcall n e s hn h hle hb
  rw [wp, ← heq] at hcalled
  exact hcalled

namespace Machine

variable {rt : Runtime W E} {call : CallFn W E} {s t : State W} {bound numArgs : Nat}
  {expected : RetCount}

/-- A call made while a call runs is made in a state that is ready for it. -/
theorem callReady_of_makes (hcall : CallOk call) (h : s.CallReady numArgs) {n : Nat}
    {e : RetCount} (hm : Makes (fun call => callUnguarded rt call bound numArgs expected) call s n e t) :
    t.CallReady n := by
  by_contra ht
  have hrun := callOk_callUnguarded rt (callOk_trap hcall e ht) bound
    numArgs expected s h.args h.wf h.bottom h.opens
  rw [wp, show callUnguarded rt (trap call n e t) bound numArgs expected s = .panic from hm] at hrun
  exact hrun

/-- The same of the calls a Rust function makes. -/
theorem callReady_of_host {host : Host W E} (hcall : CallOk call) (h : s.Wf)
    (hle : s.stackBottom ≤ s.stack.length) (hb : s.OpenBelow s.stackBottom) {n : Nat}
    {e : RetCount} (hm : Makes (fun call => runHost rt call host) call s n e t) :
    t.CallReady n := by
  by_contra ht
  have hrun : wp (runHost rt (trap call n e t) host) _ _ s :=
    wp_runHost (callOk_trap hcall e ht) host h rfl hle hb
  rw [wp, show runHost rt (trap call n e t) host s = .panic from hm] at hrun
  exact hrun

/-- What a call that was ready does. -/
theorem wp_callUnguarded (hcall : CallOk call) (h : s.CallReady numArgs) :
    wp (callUnguarded rt call bound numArgs expected)
      (fun _ s' => Balanced s s' ∧ Spared (s.calleeSlot numArgs) s s' ∧
        s.calleeSlot numArgs ≤ s'.stack.length ∧
        ∀ n, expected = .fixed n → s'.stack.length = s.calleeSlot numArgs + n)
      (fun _ s' => Balanced s s' ∧ Spared (s.calleeSlot numArgs) s s' ∧
        (s.stackBottom + (numArgs + 1) ≤ s.stack.length →
          s'.stack.length = s.calleeSlot numArgs)) s := by
  refine wp_mono (callOk_callUnguarded rt hcall bound numArgs expected s h.args h.wf h.bottom h.opens)
    (fun _ s' h' => ?_) fun _ s' h' => ?_
  · obtain ⟨hc, hl, hroom, hle, hres⟩ := h'
    have hslot : s.calleeSlot numArgs = s.stack.length - (numArgs + 1) := max_eq_right (by omega)
    refine ⟨hc.balanced hl, hc.spared, hslot ▸ hle, ?_⟩
    rw [hslot]
    exact hres
  · obtain ⟨hc, hl, -, hres⟩ := h'
    refine ⟨hc.balanced hl, hc.spared, fun hroom => ?_⟩
    rw [hres hroom]
    exact (max_eq_right (by omega)).symm

end Machine

open Machine in
/-- Every call made from Rust is balanced. It never underflows a counter; whether it
    succeeds or fails it restores the depths, the frame bottom and the lengths of the call
    stack and the extra arguments, and leaves every slot below the callee as it was except
    those an open upvalue points at; on success exactly the requested results are above.
    Every call made while it runs is made in a state that is ready, so that the same holds
    of it. -/
theorem call_balanced (rt : Runtime W E) (bound depth numArgs : Nat) (expected : RetCount)
    {s : State W} (h : s.CallReady numArgs) :
    callUnguarded rt (callFn rt bound depth) bound numArgs expected s ≠ .panic ∧
    (∀ s', callUnguarded rt (callFn rt bound depth) bound numArgs expected s = .ok () s' →
      Balanced s s' ∧ Spared (s.calleeSlot numArgs) s s' ∧
        s.calleeSlot numArgs ≤ s'.stack.length ∧
        ∀ n, expected = .fixed n → s'.stack.length = s.calleeSlot numArgs + n) ∧
    (∀ e s', callUnguarded rt (callFn rt bound depth) bound numArgs expected s = .fail e s' →
      Balanced s s' ∧ Spared (s.calleeSlot numArgs) s s' ∧
        (s.stackBottom + (numArgs + 1) ≤ s.stack.length →
          s'.stack.length = s.calleeSlot numArgs)) ∧
    ∀ n e t, Makes (fun call => callUnguarded rt call bound numArgs expected)
      (callFn rt bound depth) s n e t → t.CallReady n := by
  have hcall := callOk_callFn rt bound depth
  have hrun : wp (callUnguarded rt (callFn rt bound depth) bound numArgs expected) _ _ s :=
    wp_callUnguarded hcall h
  refine ⟨fun hp => ?_, fun s' hs => ?_, fun e s' hs => ?_, fun n e t hm => ?_⟩
  · rwa [wp, hp] at hrun
  · rwa [wp, hs] at hrun
  · rwa [wp, hs] at hrun
  · exact callReady_of_makes hcall h hm

/-! ## A captured variable -/

/-- `function() x = true end`, with `x` the first local of the function around it. -/
def assignBytecode : Bytecode where
  code := [.pack .loadBool 0 1 0 0, .pack .setUpval 0 0 0 0, .pack .ret 0 0 0 0]
  maxStack := 1
  upvalues := [.local 0]
  lineInfo := [1, 1, 1]

theorem admitted_assign : Admitted assignBytecode :=
  ⟨by decide, by simp [assignBytecode], by simp [assignBytecode]⟩

/-- A function declared `local x`, assigned `assignBytecode`'s closure to its second local
    and passed that closure to a Rust function, which is about to call it: the function is
    in slot 0, its locals in the slots 1 and 2, and the argument in slot 3. -/
def assignState : State Unit where
  stack := [.obj ⟨0, 0⟩, .nil, .obj ⟨1, 0⟩, .obj ⟨1, 0⟩]
  stackBottom := 3
  openUpvalues := [(1, 0)]
  upvaluePool := [.open 1]
  luaFunctions p := if p = ⟨1, 0⟩ then some ⟨assignBytecode, [], [0]⟩ else none
  callStack := [⟨0, 0⟩]
  varargStack := []
  callDepth := 1
  nativeCallDepth := 1
  metamethodDepth := 0
  world := ()

theorem callReady_assign : assignState.CallReady 0 := by
  refine ⟨by decide, ⟨by simp [assignState], fun i r => ?_, fun p c hc => ?_⟩, by decide,
    fun p hp => ?_⟩
  · rcases r with _ | r
    · simp [assignState, eq_comm]
    · simp [assignState]
  · simp only [assignState] at hc
    split at hc
    · simp only [Option.some.injEq] at hc
      subst hc
      exact ⟨admitted_assign, rfl, rfl, by simp [assignState]⟩
    · simp at hc
  · simp only [assignState, List.mem_singleton] at hp
    subst hp
    decide

open Machine in
theorem call_balanced_assign : assignState.CallReady 0 ∧
    callUnguarded idleRuntime (callFn idleRuntime 10 2) 10 0 (.fixed 0) assignState ≠ .panic :=
  ⟨callReady_assign, (call_balanced idleRuntime 10 2 0 (.fixed 0) callReady_assign).1⟩

open Machine in
/-- The call assigns the captured variable, which lies below the callee. -/
theorem call_writes_captured : assignState.CallReady 0 ∧ assignState.calleeSlot 0 = 3 ∧
    ∃ s', callUnguarded idleRuntime (callFn idleRuntime 10 2) 10 0 (.fixed 0) assignState = .ok () s' ∧
      assignState.stack[1]? = some .nil ∧ s'.stack[1]? = some (.bool true) :=
  ⟨callReady_assign, by decide, _, rfl, rfl, rfl⟩

end Dellingr
