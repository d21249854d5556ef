import Dellingr.Vm.Upvalues

/-!
# Calls keep the invariant

The contract of a call made from Rust (`CallOk`), and what the functions a call
is made of establish, given that calls nested in it meet the contract:

* `wp_runHost`, `wp_invokeRustFn`: a Rust function works on its own slots and
  leaves its results at its base;
* `wp_admitLuaCall`: an admitted Lua call has its frame laid out above its
  function slot (`Entered`);
* `wp_beginCall`: resolving and starting a call ends in one of these two ways,
  or refuses it and leaves the callee's slot in place;
* `wp_collectReturns`, `wp_finishCall`: results slide down into the function
  slot and are adjusted to the expected count.
-/

namespace Dellingr

open Effect

variable {W E α : Type}

/-! ## The contract -/

/-- The slot of the callee of a call with `numArgs` arguments, if there is one above the
    bottom of the frame. -/
def State.calleeSlot (s : State W) (numArgs : Nat) : Nat :=
  max s.stackBottom (s.stack.length - (numArgs + 1))

/-- The contract of a call made from Rust. The callee sits below its arguments;
    everything below it is left alone, the results take its place, and an error
    leaves nothing of the call. -/
def CallOk (call : CallFn W E) : Prop :=
  ∀ numArgs expected (s : State W), numArgs ≤ MAX_ARGUMENTS → s.Wf →
    s.stackBottom ≤ s.stack.length →
    s.OpenBelow (s.calleeSlot numArgs) →
    wp (call numArgs expected)
      (fun _ s' => Confined (s.calleeSlot numArgs) (s.calleeSlot numArgs) s s' ∧ Levels s s' ∧
        s.stackBottom + (numArgs + 1) ≤ s.stack.length ∧
        s.stack.length - (numArgs + 1) ≤ s'.stack.length ∧
        ∀ n, expected = .fixed n → s'.stack.length = s.stack.length - (numArgs + 1) + n)
      (fun _ s' => Confined (s.calleeSlot numArgs) (s.calleeSlot numArgs) s s' ∧ Levels s s' ∧
        s.stackBottom ≤ s'.stack.length ∧
        (s.stackBottom + (numArgs + 1) ≤ s.stack.length →
          s'.stack.length = s.stack.length - (numArgs + 1))) s

/-- A Lua call was admitted at `idx`: its closure sits in that slot, its frame
    right above, and its record, holding `units`, is the innermost. -/
structure Entered (idx units : Nat) (s s' : State W) : Prop where
  wf : s'.Wf
  bottom : s'.stackBottom = idx + 1
  closure : ∃ v c, s'.stack[idx]? = some v ∧ s'.luaFunction v = some c ∧
    s'.stack.length = idx + 1 + c.bytecode.maxStack
  callStack : s'.callStack = ⟨s.varargStack.length, units⟩ :: s.callStack
  varargs : s.varargStack.length ≤ s'.varargStack.length
  callDepth : s'.callDepth = s.callDepth + 1
  native : s'.nativeCallDepth = s.nativeCallDepth
  metamethod : s'.metamethodDepth = s.metamethodDepth + units
  pool : s.upvaluePool.length ≤ s'.upvaluePool.length
  opens : s'.openUpvalues ⊆ s.openUpvalues
  spared : Spared idx s s'

/-- An entry from a state that is confined is an entry from the state before,
    with the units taken since. -/
theorem Entered.of_confined {o s s' : State W} {idx units charges : Nat}
    (ho : Confined idx idx o s) (hn : s.nativeCallDepth = o.nativeCallDepth)
    (hm : s.metamethodDepth = o.metamethodDepth + charges) (h : Entered idx units s s') :
    Entered idx (units + charges) o { s' with
      callStack := ⟨s.varargStack.length, units + charges⟩ :: s.callStack } where
  wf := h.wf.congr rfl rfl rfl
  bottom := h.bottom
  closure := h.closure
  callStack := by rw [ho.callStack, ho.varargs]
  varargs := ho.varargs ▸ h.varargs
  callDepth := by rw [← ho.callDepth]; exact h.callDepth
  native := h.native.trans hn
  metamethod := by
    have := h.metamethod
    show s'.metamethodDepth = _
    omega
  pool := ho.pool.trans h.pool
  opens p hp := ho.mem_of_mem (h.opens hp)
  spared := ho.spared.trans (fun _ hp => .inl (ho.mem_of_mem hp)) h.spared

namespace Machine

variable {rt : Runtime W E} {call : CallFn W E} {X : ErrorKind E → State W → Prop}
  {s : State W}

/-! ## Rust functions -/

theorem wp_pushChunk (h : s.Wf) (program : Program) {n : Nat} (hn : n ≤ s.stack.length) :
    wp (pushChunk rt program)
      (fun _ s' => Confined n n s s' ∧ Levels s s' ∧ s.stack.length ≤ s'.stack.length)
      (fun _ s' => Confined n n s s' ∧ Levels s s' ∧ s.stack.length ≤ s'.stack.length) s := by
  have weaken : ∀ s', Tame n n s s' →
      Confined n n s s' ∧ Levels s s' ∧ s.stack.length ≤ s'.stack.length :=
    fun s' h => ⟨h.confined, h.levels, h.length.ge⟩
  simp only [pushChunk, wp_bind]
  refine wp_mono (keeps_checkStackSpace h 1) (fun _ s₁ h₁ => ?_) fun _ s' h => weaken s' h
  refine wp_mono (wp_internAll h₁.confined.wf _) (fun literals s₂ h₂ => ?_)
    fun _ s' h => weaken s' (h₁.trans h)
  have hc : (Closure.mk program.bytecode literals []).Ok s₂.upvaluePool.length :=
    ⟨program.admitted, h₂.2, by simp [program.root], by simp⟩
  refine wp_mono (keeps_allocClosure h₂.1.confined.wf hc) (fun v s₃ h₃ => ?_)
    fun _ s' h => weaken s' ((h₁.trans h₂.1).trans h)
  have h₄ := (h₁.trans h₂.1).trans h₃
  simp only [pushAll, wp_modify]
  exact ⟨h₄.confined.withStack (.append (by rw [h₄.length]; exact hn) _), ⟨h₄.levels.native,
    h₄.levels.metamethod⟩, by simp [h₄.length]⟩

/-- A Rust function's program works on its own slots. -/
theorem wp_runHost (hcall : CallOk call) (host : Host W E) {n : Nat} (h : s.Wf)
    (hn : s.stackBottom = n) (hlen : n ≤ s.stack.length) (hb : s.OpenBelow n) :
    wp (runHost rt call host)
      (fun _ s' => Confined n n s s' ∧ Levels s s' ∧ n ≤ s'.stack.length)
      (fun _ s' => Confined n n s s' ∧ Levels s s' ∧ n ≤ s'.stack.length) s := by
  -- What the program does next keeps to the slots it is left with.
  have step : ∀ (next : Host W E) s', (∀ {t : State W}, t.Wf → t.stackBottom = n →
      n ≤ t.stack.length → t.OpenBelow n → wp (runHost rt call next)
        (fun _ s' => Confined n n t s' ∧ Levels t s' ∧ n ≤ s'.stack.length)
        (fun _ s' => Confined n n t s' ∧ Levels t s' ∧ n ≤ s'.stack.length) t) →
      ∀ {s : State W}, s.stackBottom = n → s.OpenBelow n → Confined n n s s' → Levels s s' →
        n ≤ s'.stack.length → wp (runHost rt call next)
          (fun _ s'' => Confined n n s s'' ∧ Levels s s'' ∧ n ≤ s''.stack.length)
          (fun _ s'' => Confined n n s s'' ∧ Levels s s'' ∧ n ≤ s''.stack.length) s' := by
    intro next s' hnext s hn hb hc hl hle
    refine wp_mono (hnext hc.wf (hc.bottom.trans hn) hle (hc.openBelow hb)) (fun _ s'' h'' => ?_)
      fun _ s'' h'' => ?_
    all_goals exact ⟨hc.trans h''.1, hl.trans h''.2.1, h''.2.2⟩
  induction host generalizing s with
  | done result =>
    simp only [runHost, wp_bind, wp_pure, wp_liftExcept]
    exact ⟨fun _ _ => ⟨.refl h, .refl s, hlen⟩, fun _ _ => ⟨.refl h, .refl s, hlen⟩⟩
  | work f next ih =>
    simp only [runHost, wp_bind, wp_get, wp_modify]
    have htame : ∀ stack w, AgreeBelow n s.stack stack →
        Confined n n s { s with stack := stack, world := w } :=
      fun stack w hs => ⟨h.congr rfl rfl rfl, rfl, rfl, rfl, rfl, le_refl _,
        fun _ hp => .inl hp, hs.spared⟩
    refine step _ _ (fun h' hn' hlen' hb' => ih _ _ h' hn' hlen' hb') hn hb
      (htame _ _ ?_) ⟨rfl, rfl⟩ (by simp [hn, hlen])
    rw [hn]
    exact .splice (le_refl n) hlen _
  | load program next ih =>
    simp only [runHost, wp_bind, wp_attempt]
    refine wp_mono (wp_pushChunk h program hlen) (fun _ s' h' => ?_) fun _ s' h' => ?_
    all_goals
      exact step _ s' (fun h' hn' hlen' hb' => ih _ h' hn' hlen' hb') hn hb h'.1 h'.2.1
        (hlen.trans h'.2.2)
  | call numArgs expected next ih =>
    simp only [runHost, wp_bind, wp_attempt]
    have hslot : n ≤ s.calleeSlot numArgs.toNat := hn ▸ le_max_left _ _
    refine wp_mono (hcall _ _ s (Nat.le_of_lt_succ numArgs.toNat_lt) h (hn ▸ hlen)
      (hb.mono hslot)) (fun _ s' h' => ?_) fun _ s' h' => ?_
    · exact step _ s' (fun h' hn' hlen' hb' => ih _ h' hn' hlen' hb') hn hb (h'.1.widen hslot)
        h'.2.1 (by have := h'.2.2; omega)
    · exact step _ s' (fun h' hn' hlen' hb' => ih _ h' hn' hlen' hb') hn hb (h'.1.widen hslot)
        h'.2.1 (hn ▸ h'.2.2.1)

/-- What is confined while the frame bottom is moved is confined once it is
    moved back. -/
theorem confined_setBottom {s' : State W} {n bottom : Nat} {w : W} {stack : List Val}
    (h : Confined n n { s with stackBottom := bottom, world := w } s')
    (hs : AgreeBelow n s'.stack stack) :
    Confined n n s { s' with stackBottom := s.stackBottom, stack := stack } :=
  ⟨h.wf.congr rfl rfl rfl, rfl, h.callStack, h.varargs, h.callDepth, h.pool, h.opens,
    h.spared.agree hs⟩

/-- Invoking a Rust function leaves its results at its base, and an error the
    slots below it. -/
theorem wp_invokeRustFn (hcall : CallOk call) (f : RustFnId) {base : Nat} (h : s.Wf)
    (hlen : base ≤ s.stack.length) (hb : s.OpenBelow base) :
    wp (invokeRustFn rt call f base)
      (fun n s' => Confined base base s s' ∧ Levels s s' ∧ s'.stack.length = base + n)
      (fun _ s' => Confined base base s s' ∧ Levels s s' ∧ base ≤ s'.stack.length) s := by
  simp only [invokeRustFn, wp_bind]
  refine wp_world (fun w => ?_) fun _ => ⟨.refl h, .refl s, hlen⟩
  simp only [wp_get, setBottom, wp_modify, wp_attempt]
  refine wp_mono (wp_runHost (n := base) hcall _ (h.congr rfl rfl rfl) rfl hlen hb)
    (fun n s' h' => ?_) fun e s' h' => ?_
  · obtain ⟨hc, hl, hle⟩ := h'
    have hbot : s'.stackBottom = base := hc.bottom
    rw [wp_bind, wp_getTop (by omega)]
    refine wp_ite (fun _ => ?_) fun hn => ?_
    · exact ⟨confined_setBottom hc (.refl base _), ⟨hl.native, hl.metamethod⟩, hle⟩
    · simp only [wp_bind, wp_modify, wp_pure]
      refine ⟨confined_setBottom hc (.splice (le_refl base) hle _), ⟨hl.native, hl.metamethod⟩, ?_⟩
      simp only [List.length_append, List.length_take, List.length_drop]
      omega
  · exact ⟨confined_setBottom h'.1 (.refl base _), ⟨h'.2.1.native, h'.2.1.metamethod⟩, h'.2.2⟩

/-! ## Admission -/

/-- Popping the innermost record gives back its units and its extra
    arguments. -/
theorem wp_popActivation {info : CallInfo} {rest : List CallInfo}
    (hs : s.callStack = info :: rest) (hu : info.units ≤ s.metamethodDepth)
    (hd : 1 ≤ s.callDepth) {Q : Unit → State W → Prop} :
    wp (popActivation : Vm W E Unit) Q X s = Q () { s with
      metamethodDepth := s.metamethodDepth - info.units
      varargStack := s.varargStack.take info.varargStart
      callStack := rest
      callDepth := s.callDepth - 1 } := by
  simp only [popActivation, wp_bind, wp_get, hs, List.head?_cons, wp_demand_some, wp_sub hu,
    wp_sub hd, wp_modify, List.tail_cons]

/-- The arguments of a call are cut to the parameters, never below the frame. -/
theorem wp_layoutArguments {bytecode : Bytecode} {numArgs frameBottom : Nat}
    (hlen : s.stack.length = frameBottom + numArgs) {Q : Unit → State W → Prop}
    (hQ : ∀ k extra, frameBottom ≤ k → Q () { s with
      stack := s.stack.take k
      varargStack := s.varargStack ++ extra
      callStack := ⟨s.varargStack.length, 0⟩ :: s.callStack }) :
    wp (layoutArguments bytecode numArgs frameBottom) Q X s := by
  have hall := hQ s.stack.length [] (by omega)
  rw [List.take_length, List.append_nil] at hall
  simp only [layoutArguments, wp_bind, wp_get]
  by_cases hp : numArgs > bytecode.numParams
  · by_cases hv : bytecode.isVararg
    · simp only [hp, hv, and_self, ↓reduceIte, not_true_eq_false, and_false, wp_bind]
      rw [wp_sub (by omega)]
      simp only [collectVarargs, wp_bind, wp_get]
      rw [wp_require (by omega)]
      simp only [wp_modify, wp_pure]
      exact hQ _ _ (by omega)
    · simp only [hp, hv, and_self, ↓reduceIte, not_false_eq_true, wp_modify, truncate,
        Bool.false_eq_true, false_and, wp_bind]
      have := hQ (frameBottom + bytecode.numParams) [] (by omega)
      rwa [List.append_nil] at this
  · simp only [hp, and_false, false_and, ↓reduceIte, wp_pure, wp_modify, wp_bind]
    exact hall

/-- The length of a resized stack. -/
@[simp] theorem length_resize (stack : List Val) (len : Nat) :
    (stack.take len ++ List.replicate (len - stack.length) Val.nil).length = len := by
  simp only [List.length_append, List.length_take, List.length_replicate]
  omega

/-- A resized stack keeps the slots below its new top. -/
theorem getElem?_resize {stack : List Val} {len i : Nat} (hi : i < len) (hs : i < stack.length) :
    (stack.take len ++ List.replicate (len - stack.length) Val.nil)[i]? = stack[i]? := by
  rw [List.getElem?_append_left (by simp; omega), List.getElem?_take_of_lt hi]

/-- Admission lays the frame out above the arguments, or refuses and leaves the
    function slot. -/
theorem wp_admitLuaCall {c : Closure} {v : Val} {idx numArgs : Nat} {tail : Bool} (h : s.Wf)
    (hlen : s.stack.length = idx + 1 + numArgs) (hv : s.stack[idx]? = some v)
    (hc : s.luaFunction v = some c) (htail : tail = true → 1 ≤ s.callDepth) :
    wp (admitLuaCall rt c.bytecode numArgs s.stackBottom tail)
      (fun _ s' => Entered idx 0 s s')
      (fun _ s' => Confined idx idx s s' ∧ Levels s s' ∧ idx + 1 ≤ s'.stack.length) s := by
  have refused : Confined idx idx s s ∧ Levels s s ∧ idx + 1 ≤ s.stack.length :=
    ⟨.refl h, .refl s, by omega⟩
  have hbottom : s.stack.length - numArgs = idx + 1 := by omega
  simp only [admitLuaCall, wp_bind, wp_get]
  rw [wp_sub (by split <;> simp_all)]
  refine wp_ite (fun _ => refused) fun _ => ?_
  simp only [wp_bind]
  refine wp_world (fun w => ?_) fun _ => refused
  rw [wp_sub (by omega), hbottom]
  simp only [wp_modify]
  refine wp_layoutArguments (by exact hlen) fun k extra hk => ?_
  simp only [reserveFrame, wp_bind, wp_get, wp_attempt]
  refine wp_checkStackSpace ?_ fun e => ?_
  · simp only [resize, wp_modify]
    have hidx : idx < (s.stack.take k).length := by
      rw [List.length_take]
      omega
    refine ⟨h.congr rfl rfl rfl, rfl, ⟨v, c, ?_, hc, ?_⟩, rfl, by simp, rfl, rfl, rfl, le_refl _,
      fun _ hp => hp, AgreeBelow.spared ?_⟩
    · rw [getElem?_resize (by omega) hidx, List.getElem?_take_of_lt (by omega), hv]
    · exact length_resize _ _
    · exact (AgreeBelow.take (by omega)).trans (.resize (by omega) hidx.le)
  · simp only [rejectAdmission, truncate, setBottom, wp_bind, wp_modify, wp_fail]
    rw [wp_popActivation rfl (Nat.zero_le _) (Nat.le_add_left 1 _)]
    refine ⟨⟨h.congr rfl rfl rfl, rfl, rfl, by simp, rfl, le_refl _, fun _ hp => .inl hp,
      AgreeBelow.spared ?_⟩, ⟨rfl, rfl⟩, ?_⟩
    · exact (AgreeBelow.take (by omega)).trans (.take (by omega))
    · simp only [List.length_take]
      omega

/-! ## Resolution -/

/-- How a call starts: a Rust callee left its results at `idx`, or a Lua callee
    was admitted there. -/
def Started (idx : Nat) (s s' : State W) : Option Nat → Prop
  | some n => Confined idx idx s s' ∧ Levels s s' ∧ s'.stack.length = idx + n
  | none => ∃ units, Entered idx units s s'

/-- A call was refused: everything below the callee is as it was. -/
def Refused (idx : Nat) (s s' : State W) : Prop :=
  Confined idx idx s s' ∧ Levels s s' ∧ idx ≤ s'.stack.length

/-- The outcome of resolving a callable from a state with `charges` units taken
    since `o`: those left are still to be released, and an admitted callee took
    them all. -/
def Resolved (idx : Nat) (o s' : State W) : Except (ErrorKind E) (Option Nat) × Nat → Prop
  | (.ok (some n), charges) => Confined idx idx o s' ∧ s'.nativeCallDepth = o.nativeCallDepth ∧
    s'.metamethodDepth = o.metamethodDepth + charges ∧ s'.stack.length = idx + n
  | (.ok none, charges) => ∃ units, Entered idx units o s' ∧ charges = 0
  | (.error _, charges) => Confined idx idx o s' ∧ s'.nativeCallDepth = o.nativeCallDepth ∧
    s'.metamethodDepth = o.metamethodDepth + charges ∧ idx ≤ s'.stack.length

/-- Resolution ends: each handler takes one more argument, and there is room for
    so many. -/
theorem wp_resolveCallable (hcall : CallOk call) {o : State W} {idx room charges : Nat}
    {tail : Bool} (ho : Confined idx idx o s) (hn : s.nativeCallDepth = o.nativeCallDepth)
    (hm : s.metamethodDepth = o.metamethodDepth + charges) (hroom : room ≤ MAX_ARGUMENTS)
    (hlen : s.stack.length = idx + 1 + (MAX_ARGUMENTS - room)) (hb : o.OpenBelow idx)
    (htail : tail = true → 1 ≤ o.callDepth) :
    wp (resolveCallable rt call idx o.stackBottom tail room charges)
      (fun r s' => Resolved idx o s' r) X s := by
  induction room using Nat.strong_induction_on generalizing s charges with
  | _ room ih =>
    have hidx : idx < s.stack.length := by omega
    have hwf := ho.wf
    have refused : ∀ e, Resolved idx o s ((.error e : Except (ErrorKind E) (Option Nat)), charges) :=
      fun e => ⟨ho, hn, hm, hidx.le⟩
    rw [resolveCallable.eq_def]
    simp only [wp_bind, wp_get]
    rw [wp_readSlot hidx]
    split
    · -- A Rust function, whose slot is taken out.
      rename_i f _
      simp only [wp_bind]
      rw [wp_drain (Nat.le_succ idx) hidx]
      simp only [wp_attempt, wp_pure]
      refine wp_mono (wp_invokeRustFn hcall f (hwf.congr rfl rfl rfl) ?_
        (ho.openBelow hb)) (fun n s' h' => ?_) fun e s' h' => ?_
      · simp only [List.length_append, List.length_take, List.length_drop]
        omega
      all_goals
        exact ⟨ho.trans (h'.1.ofStack (.splice (le_refl idx) hidx.le _)),
          h'.2.1.native.trans hn, h'.2.1.metamethod.trans hm, h'.2.2⟩
    · -- A Lua function.
      rename_i closure hclosure _
      simp only [wp_bind, wp_attempt]
      rw [← ho.bottom]
      refine wp_mono (wp_admitLuaCall hwf hlen (List.getElem?_eq_getElem hidx) hclosure
        fun ht => ho.callDepth ▸ htail ht) (fun _ s' h' => ?_) fun e s' h' => ?_
      · simp only [wp_get, h'.callStack, List.head?_cons, wp_demand_some, wp_modify,
          List.tail_cons, wp_pure]
        have := Entered.of_confined ho hn hm h'
        rw [Nat.zero_add] at this
        exact ⟨charges, this, rfl⟩
      · exact ⟨ho.trans h'.1, h'.2.1.native.trans hn, h'.2.1.metamethod.trans hm, by omega⟩
    · -- Anything else needs a handler, which takes it as an argument.
      refine wp_ite (fun _ => refused (.functionCall .nil)) fun _ => ?_
      split
      · exact refused (.tooManyArguments MAX_ARGUMENTS)
      · rename_i room
        simp only [wp_bind, wp_attempt]
        refine wp_checkStackSpace ?_ fun e => refused e
        rw [wp_writeSlot hidx, wp_insertSlot (by simp; omega)]
        simp only [wp_get]
        have hlen' : ∀ handler func, ((s.stack.set idx handler).take (idx + 1) ++
            func :: (s.stack.set idx handler).drop (idx + 1)).length =
              idx + 1 + (MAX_ARGUMENTS - room) := by
          intro handler func
          simp only [List.length_append, List.length_take, List.length_cons, List.length_drop,
            List.length_set]
          omega
        have hagree : ∀ handler func, AgreeBelow idx s.stack
            ((s.stack.set idx handler).take (idx + 1) ++
              func :: (s.stack.set idx handler).drop (idx + 1)) :=
          fun handler func => (AgreeBelow.set (le_refl idx) handler).trans
            (.splice (Nat.le_succ idx) (by simp; omega) _)
        split
        · exact ih room (Nat.lt_succ_self _) (ho.withStack (hagree _ _)) hn hm (by omega)
            (hlen' _ _)
        · exact ih room (Nat.lt_succ_self _) (ho.withStack (hagree _ _)) hn hm (by omega)
            (hlen' _ _)
        · refine wp_ite (fun _ => ?_) fun _ => ?_
          · exact ⟨ho.withStack (hagree _ _), hn, hm, by rw [hlen']; omega⟩
          · refine ih room (Nat.lt_succ_self _) ?_ hn ?_ (by omega) (hlen' _ _)
            · exact ⟨hwf.congr rfl rfl rfl, ho.bottom, ho.callStack, ho.varargs, ho.callDepth,
                ho.pool, ho.opens, ho.spared.agree (hagree _ _)⟩
            · show s.metamethodDepth + 1 = _
              omega

theorem wp_releaseChainCharges {charges : Nat} (h : charges ≤ s.metamethodDepth)
    {Q : Unit → State W → Prop} :
    wp (releaseChainCharges charges : Vm W E Unit) Q X s =
      Q () { s with metamethodDepth := s.metamethodDepth - charges } := by
  simp only [releaseChainCharges, wp_bind, wp_get, wp_sub h, wp_modify]

/-- Starting a call: a Rust callee runs to completion, a Lua callee is
    admitted. -/
theorem wp_beginCall (hcall : CallOk call) {idx numArgs : Nat} {tail : Bool} (h : s.Wf)
    (hnum : numArgs ≤ MAX_ARGUMENTS) (hlen : s.stack.length = idx + 1 + numArgs)
    (hb : s.OpenBelow idx) (htail : tail = true → 1 ≤ s.callDepth) :
    wp (beginCall rt call idx numArgs s.stackBottom tail) (fun r s' => Started idx s s' r)
      (fun _ s' => Refused idx s s') s := by
  have hidx : idx < s.stack.length := by omega
  rw [beginCall]
  simp only [wp_bind, wp_get]
  rw [wp_readSlot hidx]
  split
  · rename_i f _
    simp only [wp_bind]
    rw [wp_drain (Nat.le_succ idx) hidx]
    simp only [wp_pure]
    refine wp_mono (wp_invokeRustFn hcall f (h.congr rfl rfl rfl) ?_ hb)
      (fun n s' h' => ?_) fun e s' h' => ?_
    · simp only [List.length_append, List.length_take, List.length_drop]
      omega
    all_goals
      exact ⟨h'.1.ofStack (.splice (le_refl idx) hidx.le _),
        ⟨h'.2.1.native, h'.2.1.metamethod⟩, h'.2.2⟩
  · rename_i closure hclosure _
    simp only [wp_bind, wp_pure]
    refine wp_mono (wp_admitLuaCall h hlen (List.getElem?_eq_getElem hidx) hclosure htail)
      (fun _ s' h' => ⟨0, h'⟩) fun e s' h' => ⟨h'.1, h'.2.1, by omega⟩
  · simp only [beginCallableCall, wp_bind]
    refine wp_mono_ok (wp_resolveCallable hcall (.refl h) rfl rfl (Nat.sub_le _ _)
      (by omega) hb htail) fun r s' h' => ?_
    obtain ⟨result, charges⟩ := r
    rcases result with e | _ | n
    · obtain ⟨hc, hn, hm, hle⟩ := h'
      rw [wp_releaseChainCharges (by omega)]
      simp only [wp_liftExcept, reduceCtorEq, false_implies, implies_true, true_and]
      intro e' _
      refine ⟨⟨hc.wf.congr rfl rfl rfl, hc.bottom, hc.callStack, hc.varargs, hc.callDepth, hc.pool,
        hc.opens, hc.spared⟩, ⟨hn, ?_⟩, hle⟩
      show s'.metamethodDepth - charges = _
      omega
    · obtain ⟨units, he, rfl⟩ := h'
      rw [wp_releaseChainCharges (Nat.zero_le _)]
      simp only [wp_liftExcept, Except.ok.injEq, reduceCtorEq, false_implies, implies_true,
        and_true, forall_eq']
      exact ⟨units, he⟩
    · obtain ⟨hc, hn, hm, hle⟩ := h'
      rw [wp_releaseChainCharges (by omega)]
      simp only [wp_liftExcept, Except.ok.injEq, reduceCtorEq, false_implies, implies_true,
        and_true, forall_eq']
      refine ⟨⟨hc.wf.congr rfl rfl rfl, hc.bottom, hc.callStack, hc.varargs, hc.callDepth, hc.pool,
        hc.opens, hc.spared⟩, ⟨hn, ?_⟩, hle⟩
      show s'.metamethodDepth - charges = _
      omega

/-! ## Returns -/

theorem wp_resizeStack {len : Nat} {Q : Unit → State W → Prop}
    (hok : wp (resize len : Vm W E Unit) Q X s) (herr : ∀ e, X e s) :
    wp (resizeStack len) Q X s := by
  simp only [resizeStack, wp_bind, wp_get]
  refine wp_ite (fun _ => ?_) fun _ => hok
  rw [wp_bind]
  exact wp_checkStackSpace hok herr

/-- Adjusting results to a fixed count. -/
theorem wp_finishCall {expected : RetCount} {actual base : Nat} (h : s.Wf)
    (hlen : s.stack.length = base + actual) :
    wp (finishCall expected actual : Vm W E Unit)
      (fun _ s' => Confined base base s s' ∧ Levels s s' ∧ base ≤ s'.stack.length ∧
        ∀ n, expected = .fixed n → s'.stack.length = base + n)
      (fun _ s' => s' = s) s := by
  have same : Confined base base s s ∧ Levels s s ∧ base ≤ s.stack.length :=
    ⟨.refl h, .refl s, by omega⟩
  rcases expected with n | _
  · simp only [finishCall]
    refine wp_ite (fun _ => ?_) fun hn => ?_
    · simp only [wp_bind, wp_get]
      rw [wp_sub (by omega), show s.stack.length - actual = base by omega]
      refine wp_resizeStack ?_ fun _ => rfl
      refine ⟨(Confined.refl h).withStack (.resize (by omega) (by omega)), ⟨rfl, rfl⟩, ?_,
        fun m hm => ?_⟩
      · simp only [length_resize]
        omega
      · obtain rfl : n = m := by simpa using hm
        exact length_resize _ _
    · refine ⟨same.1, same.2.1, same.2.2, fun m hm => ?_⟩
      obtain rfl : n = m := by simpa using hm
      omega
  · exact ⟨same.1, same.2.1, same.2.2, by simp⟩

/-- Collecting a frame's results closes its upvalues and slides the results down
    into its function slot. -/
theorem wp_collectReturns {frame : Frame} {first count : Nat} (h : s.Wf)
    (hb : s.OpenBelow s.stack.length) (hbottom : 1 ≤ frame.stackBottom)
    (hfirst : frame.stackBottom - 1 ≤ first) (hcount : first + count ≤ s.stack.length) :
    wp (collectReturns frame first count : Vm W E Nat)
      (fun n s' => Confined (frame.stackBottom - 1) (frame.stackBottom - 1) s s' ∧ Levels s s' ∧
        s'.OpenBelow frame.stackBottom ∧ s'.stack.length = frame.stackBottom - 1 + n)
      (fun _ s' => s' = s) s := by
  simp only [collectReturns]
  refine wp_ite (fun _ => rfl) fun _ => ?_
  simp only [wp_bind]
  refine wp_mono_ok (wp_closeUpvalues h hb) fun _ s' hs' => ?_
  simp only [truncate, wp_modify]
  rw [wp_sub hbottom, wp_drain hfirst (by rw [List.length_take, hs'.stack]; omega)]
  refine ⟨hs'.confined.withStack ?_, ⟨hs'.levels.native, hs'.levels.metamethod⟩, hs'.below, ?_⟩
  · refine (AgreeBelow.take (k := first + count) (by omega)).trans (.splice (le_refl _) ?_ _)
    rw [List.length_take, hs'.stack]
    omega
  · simp only [List.length_append, List.length_take, List.length_drop, hs'.stack]
    omega

end Machine

end Dellingr
