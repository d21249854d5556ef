import Dellingr.Vm.Activation

/-!
# Within a frame

Most instructions keep the stack at the top of the running frame. A computation
is judged once for all states in which the frame runs with the stack at its top
(`Room`): it stays within the frame and ends with the stack where it was, or it
fails with nothing of the frame lost (`Within`). Such computations compose
(`within_bind`), so that an instruction is judged by its parts:

* slots, literals, caches and captured variables (`within_readSlot` and so on);
* calls of handlers, whose window is pushed above the registers
  (`within_handlerCall`) and whose results are taken off again;
* the generic loop, which calls its iterator there (`within_instrTforCall`);
* closures, which open upvalues for the registers they capture
  (`within_regClosure`).
-/

namespace Dellingr

open Effect

variable {W E α β : Type}

/-- A slot is a register of the frame. -/
structure Frame.Reg (f : Frame) (i : Nat) : Prop where
  bottom_le : f.stackBottom ≤ i
  lt_top : i < f.top

/-- The slots `first..first + count` are registers of the frame. -/
structure Frame.Regs (f : Frame) (first count : Nat) : Prop where
  bottom_le : f.stackBottom ≤ first
  le_top : first + count ≤ f.top

theorem Frame.Regs.reg {f : Frame} {first count i : Nat} (h : f.Regs first count)
    (hi : first ≤ i) (hlt : i < first + count) : f.Reg i :=
  ⟨h.bottom_le.trans hi, hlt.trans_le h.le_top⟩

/-- The frame runs with the stack at its top. -/
structure Room (f : Frame) (s : State W) : Prop where
  wf : s.Wf
  ok : FrameOk s.upvaluePool.length f
  bottom : s.stackBottom = f.stackBottom
  length : s.stack.length = f.top
  opens : s.OpenBelow f.top
  record : ∃ info rest, s.callStack = info :: rest ∧ info.varargStart ≤ s.varargStack.length

/-- What an error leaves: everything outside the frame, and the registers. -/
structure Faulted (f : Frame) (s s' : State W) : Prop where
  confined : Confined f.stackBottom f.top s s'
  levels : Levels s s'
  length : f.top ≤ s'.stack.length

/-- From every state in which the frame runs with the stack at its top, a
    computation stays within the frame and gives a value with `P`. -/
def Within (f : Frame) (P : α → Prop) (m : Vm W E α) : Prop :=
  ∀ s, Room f s →
    wp m (fun a s' => Tame f.stackBottom f.top s s' ∧ P a) (fun _ s' => Faulted f s s') s

section Compose

variable {f : Frame} {P : α → Prop} {R : β → Prop} {s s' : State W}

theorem Confined.openBelow_top (hc : Confined f.stackBottom f.top s s') (h : s.OpenBelow f.top) :
    s'.OpenBelow f.top := by
  intro p hp
  rcases hc.opens p hp with hp | hp
  · exact h p hp
  · exact hp.2

theorem Room.tame (h : Room f s) (ht : Tame f.stackBottom f.top s s') : Room f s' where
  wf := ht.confined.wf
  ok := h.ok.mono ht.confined.pool
  bottom := ht.confined.bottom.trans h.bottom
  length := ht.length.trans h.length
  opens := ht.confined.openBelow_top h.opens
  record := by
    obtain ⟨info, rest, hs, hle⟩ := h.record
    exact ⟨info, rest, ht.confined.callStack.trans hs, ht.confined.varargs ▸ hle⟩

theorem Room.lt {i : Nat} (h : Room f s) (hi : i < f.top) : i < s.stack.length :=
  h.length ▸ hi

theorem Room.le {i : Nat} (h : Room f s) (hi : i ≤ f.top) : i ≤ s.stack.length :=
  h.length ▸ hi

theorem Room.openBelow (h : Room f s) : s.OpenBelow s.stack.length :=
  h.length ▸ h.opens

theorem Room.faulted (h : Room f s) (ht : Tame f.stackBottom f.top s s') : Faulted f s s' :=
  ⟨ht.confined, ht.levels, (ht.length.trans h.length).ge⟩

theorem Room.refused (h : Room f s) : Faulted f s s := h.faulted (.refl h.wf)

theorem within_pure {a : α} (ha : P a) : Within f P (Pure.pure a : Vm W E α) :=
  fun _ h => ⟨.refl h.wf, ha⟩

theorem within_bind {m : Vm W E α} {g : α → Vm W E β} (hm : Within f P m)
    (hg : ∀ a, P a → Within f R (g a)) : Within f R (m >>= g) := by
  intro s h
  rw [wp_bind]
  refine wp_mono_ok (hm s h) fun a s' h' => ?_
  refine wp_mono (hg a h'.2 s' (h.tame h'.1)) (fun b s'' h'' => ?_) fun _ s'' h'' => ?_
  · exact ⟨h'.1.trans h''.1, h''.2⟩
  · exact ⟨h'.1.confined.trans h''.confined, h'.1.levels.trans h''.levels, h''.length⟩

theorem within_ite {p : Prop} [Decidable p] {m m' : Vm W E α} (h : p → Within f P m)
    (h' : ¬p → Within f P m') : Within f P (if p then m else m') := by
  split
  · exact h ‹_›
  · exact h' ‹_›

/-- A computation that keeps to the frame whatever it gives. -/
theorem within_of_keeps {m : Vm W E α}
    (hm : ∀ s, Room f s → Keeps f.stackBottom f.top m s) : Within f (fun _ => True) m :=
  fun s h => wp_mono (hm s h) (fun _ _ h' => ⟨h', trivial⟩) fun _ _ h' => h.faulted h'

end Compose

namespace Machine

variable {rt : Runtime W E} {call : CallFn W E} {f : Frame}

/-! ## Primitive operations -/

theorem within_fail {P : α → Prop} (e : ErrorKind E) : Within f P (fail e : Vm W E α) :=
  fun _ h => h.refused

theorem within_raise {P : α → Prop} (e : E) : Within f P (raise e : Vm W E α) := within_fail _

theorem within_get : Within f (fun _ => True) (get : Vm W E (State W)) :=
  within_of_keeps fun _ h => keeps_get h.wf

theorem within_demand {P : α → Prop} {o : Option α} {a : α} (ho : o = some a) (ha : P a) :
    Within f P (demand o : Vm W E α) := by
  subst ho
  exact within_pure ha

theorem within_require {p : Prop} [Decidable p] (h : p) :
    Within f (fun _ => True) (require p : Vm W E Unit) := by
  rw [require, if_pos h]
  exact within_pure trivial

theorem within_sub {a b : Nat} (h : b ≤ a) : Within f (· = a - b) (sub a b : Vm W E Nat) :=
  within_demand (checkedSub_of_le h) rfl

theorem within_world (g : W → Except E W) : Within f (fun _ => True) (world g) :=
  within_of_keeps fun _ h => keeps_world h.wf g

theorem within_ask (g : W → Except E (α × W)) : Within f (fun _ => True) (ask g) :=
  within_of_keeps fun _ h => keeps_ask h.wf g

theorem within_tell (g : W → α × W) : Within f (fun _ => True) (tell g : Vm W E α) :=
  within_of_keeps fun _ h => keeps_tell h.wf g

theorem within_readSlot {i : Nat} (hi : f.Reg i) :
    Within f (fun _ => True) (readSlot i : Vm W E Val) :=
  within_of_keeps fun _ h => keeps_readSlot h.wf (h.lt hi.lt_top)

theorem within_writeSlot {i : Nat} (v : Val) (hi : f.Reg i) :
    Within f (fun _ => True) (writeSlot i v : Vm W E Unit) :=
  within_of_keeps fun _ h => keeps_writeSlot h.wf v hi.bottom_le (h.lt hi.lt_top)

theorem within_readSlots {first count : Nat} (hr : f.Regs first count) :
    Within f (fun _ => True) (readSlots first count : Vm W E (List Val)) :=
  within_of_keeps fun _ h => keeps_readSlots h.wf (h.le hr.le_top)

theorem within_writeSlots {first : Nat} {vs : List Val} (hr : f.Regs first vs.length) :
    Within f (fun _ => True) (writeSlots first vs : Vm W E Unit) :=
  within_of_keeps fun _ h => keeps_writeSlots h.wf hr.bottom_le (h.le hr.le_top)

theorem within_checkStackSpace (n : Nat) :
    Within f (fun _ => True) (checkStackSpace n : Vm W E Unit) :=
  within_of_keeps fun _ h => keeps_checkStackSpace h.wf n

theorem within_literal {i : Nat} (hi : i < f.literals.length) :
    Within f (fun _ => True) (literal f i : Vm W E Val) :=
  within_demand (List.getElem?_eq_getElem hi) trivial

theorem within_getNumberConstant {i : Nat} (hi : i < f.bytecode.numberLiterals.length) :
    Within f (fun _ => True) (getNumberConstant f i : Vm W E F64) :=
  within_demand (List.getElem?_eq_getElem hi) trivial

theorem within_cacheOperand {slots : Nat} {inst : Instr}
    (h : ∀ slot, inst.cacheSlot = some slot → slot < slots) :
    Within f (fun _ => True) (cacheOperand slots inst : Vm W E (Option Nat)) := by
  rw [cacheOperand]
  split
  · exact within_pure trivial
  · rename_i slot hslot
    exact within_bind (within_require (h slot hslot)) fun _ _ => within_pure trivial

/-! ## Captured variables -/

theorem within_upvalueValue {index : Nat} (hi : index < f.bytecode.upvalues.length) :
    Within f (fun _ => True) (upvalueValue f index : Vm W E Val) := by
  refine within_of_keeps fun s h => ?_
  have hlt : index < f.upvalues.length := h.ok.captures ▸ hi
  exact keeps_upvalueValue h.wf h.openBelow (List.getElem?_eq_getElem hlt)
    (h.ok.refs _ (List.getElem_mem hlt))

theorem within_setUpvalueValue {index : Nat} (v : Val)
    (hi : index < f.bytecode.upvalues.length) :
    Within f (fun _ => True) (setUpvalueValue f index v : Vm W E Unit) := by
  refine within_of_keeps fun s h => ?_
  have hlt : index < f.upvalues.length := h.ok.captures ▸ hi
  exact keeps_setUpvalueValue h.wf h.openBelow v (List.getElem?_eq_getElem hlt)
    (h.ok.refs _ (List.getElem_mem hlt))

theorem within_closeUpvalues (level : Nat) :
    Within f (fun _ => True) (closeUpvalues level : Vm W E Unit) := by
  intro s h
  refine wp_mono_ok (wp_closeUpvalues h.wf h.openBelow) fun _ s' h' => ?_
  exact ⟨⟨h'.confined, h'.levels, by rw [h'.stack]⟩, trivial⟩

/-! ## Handlers -/

/-- A handler's window lies above the registers; its units are returned whatever
    the outcome. -/
theorem wp_handlerCall (hcall : CallOk call) {window : List Val} (hw : 1 ≤ window.length ∧ window.length ≤ 4)
    (n units : Nat) {s : State W} (h : Room f s) :
    wp (handlerCall call window (.fixed n) units)
      (fun _ s' => Confined f.stackBottom f.top s s' ∧ Levels s s' ∧
        s'.stack.length = f.top + n) (fun _ s' => Faulted f s s') s := by
  obtain ⟨hpos, hmax⟩ := hw
  have hlen : (s.stack ++ window).length = f.top + window.length := by
    rw [List.length_append, h.length]
  have htop : f.top + window.length - (window.length - 1 + 1) = f.top := by omega
  have hbt : f.stackBottom ≤ f.top := h.ok.top ▸ Nat.le_add_right _ _
  have hslot : f.top ≤ max s.stackBottom ((s.stack ++ window).length - (window.length - 1 + 1)) := by
    rw [hlen, htop]
    exact le_max_right _ _
  have hagree : AgreeBelow f.stackBottom s.stack (s.stack ++ window) :=
    .append (by rw [h.length]; exact hbt) window
  simp only [handlerCall, pushAll, wp_bind, wp_modify, wp_attempt, wp_get]
  refine wp_mono (hcall _ _ _ (by simp only [MAX_ARGUMENTS]; omega) (h.wf.congr rfl rfl rfl) ?_ ?_) (fun _ s' h' => ?_)
    fun e s' h' => ?_
  · show s.stackBottom ≤ (s.stack ++ window).length
    rw [hlen, h.bottom]
    omega
  · exact State.OpenBelow.mono (n := f.top) h.opens hslot
  · obtain ⟨hc, hl, -, -, hres⟩ := h'
    have hmeta : s'.metamethodDepth = s.metamethodDepth + units := hl.metamethod
    rw [wp_sub (by omega)]
    simp only [wp_liftExcept, reduceCtorEq, false_implies, implies_true, and_true]
    have := hres n rfl
    refine fun _ _ => ⟨⟨hc.wf.congr rfl rfl rfl, hc.bottom, hc.callStack, hc.varargs, hc.callDepth, hc.pool,
      fun p hp => .inl (hc.mem_of_mem hp),
      (hc.spared.mono (hbt.trans hslot)).of_agree rfl hagree⟩, ⟨hl.native, ?_⟩, ?_⟩
    · show s'.metamethodDepth - units = _
      omega
    · show s'.stack.length = _
      rw [this, hlen, htop]
  · obtain ⟨hc, hl, -, hres⟩ := h'
    have hmeta : s'.metamethodDepth = s.metamethodDepth + units := hl.metamethod
    rw [wp_sub (by omega)]
    simp only [wp_liftExcept, Except.error.injEq, reduceCtorEq, false_implies, implies_true,
      true_and, forall_eq']
    refine ⟨⟨hc.wf.congr rfl rfl rfl, hc.bottom, hc.callStack, hc.varargs, hc.callDepth, hc.pool,
      fun p hp => .inl (hc.mem_of_mem hp),
      (hc.spared.mono (hbt.trans hslot)).of_agree rfl hagree⟩, ⟨hl.native, ?_⟩, ?_⟩
    · show s'.metamethodDepth - units = _
      omega
    · have hroom : s.stackBottom + (window.length - 1 + 1) ≤ (s.stack ++ window).length := by
        rw [hlen, h.bottom]
        omega
      have := hres hroom
      show f.top ≤ s'.stack.length
      rw [this, hlen, htop]

/-- A handler called for no result. -/
theorem within_handlerCall (hcall : CallOk call) {window : List Val} (hw : 1 ≤ window.length ∧ window.length ≤ 4)
    (units : Nat) : Within f (fun _ => True) (handlerCall call window (.fixed 0) units) := by
  intro s h
  refine wp_mono_ok (wp_handlerCall hcall hw 0 units h) fun _ s' h' => ?_
  exact ⟨⟨h'.1, h'.2.1, h'.2.2.trans h.length.symm⟩, trivial⟩

/-- A handler called for one result, which is taken into a register. -/
theorem within_handlerResult (hcall : CallOk call) {window : List Val} (hw : 1 ≤ window.length ∧ window.length ≤ 4)
    {dst : Nat} (units : Nat) (hdst : f.Reg dst) :
    Within f (fun _ => True) (handlerResult call dst window units) := by
  intro s h
  simp only [handlerResult, wp_bind]
  refine wp_mono_ok (wp_handlerCall hcall hw 1 units h) fun _ s' h' => ?_
  obtain ⟨hc, hl, hlen⟩ := h'
  have hne : s'.stack ≠ [] := List.length_pos_iff.1 (by omega)
  simp only [popVal, wp_bind, wp_get]
  rw [wp_demand (List.getLast?_eq_some_getLast hne)]
  simp only [wp_modify, wp_pure]
  rw [wp_writeSlot (by have := hdst.lt_top; simp only [List.length_dropLast]; omega)]
  have htop := hdst.lt_top
  have hbt := hdst.bottom_le
  refine ⟨⟨hc.withStack ?_, ⟨hl.native, hl.metamethod⟩, ?_⟩, trivial⟩
  · exact (AgreeBelow.dropLast (by omega)).trans (.set hbt _)
  · simp only [List.length_set, List.length_dropLast, h.length]
    omega

/-! ## Table access -/

theorem within_getIndex (hcall : CallOk call) {dst : Nat} (receiver key : Val)
    (cache : Option Nat) (hdst : f.Reg dst) :
    Within f (fun _ => True) (getIndex rt call dst receiver key cache) := by
  refine within_bind within_get fun s _ => within_bind (within_ask _) fun r _ => ?_
  rcases r with v | ⟨handler, target, units⟩
  · exact within_writeSlot v hdst
  · exact within_bind (within_checkStackSpace 3) fun _ _ =>
      within_handlerResult hcall (by simp) units hdst

theorem within_regGetField (hcall : CallOk call) {inst : Instr} {dst : Nat} (receiver : Val)
    (hc : ∀ slot, inst.cacheSlot = some slot → slot < f.bytecode.fieldCacheSlots)
    (hkey : inst.c < f.literals.length) (hdst : f.Reg dst) :
    Within f (fun _ => True) (regGetField rt call f inst dst receiver) :=
  within_bind (within_cacheOperand hc) fun cache _ =>
    within_bind (within_literal hkey) fun key _ =>
      within_getIndex hcall receiver key cache hdst

theorem within_regGetTable (hcall : CallOk call) {dst table key : Nat} (hdst : f.Reg dst)
    (ht : f.Reg table) (hk : f.Reg key) :
    Within f (fun _ => True) (regGetTable rt call dst table key) :=
  within_bind (within_readSlot ht) fun receiver _ =>
    within_bind (within_readSlot hk) fun keyVal _ =>
      within_getIndex hcall receiver keyVal none hdst

theorem within_setIndex (hcall : CallOk call) (receiver key v : Val) (cache : Option Nat) :
    Within f (fun _ => True) (setIndex rt call receiver key v cache) := by
  refine within_bind within_get fun s _ => within_bind (within_ask _) fun r _ => ?_
  rcases r with _ | ⟨handler, target, units⟩
  · exact within_pure trivial
  · exact within_bind (within_checkStackSpace 4) fun _ _ =>
      within_handlerCall hcall (by simp) units

theorem within_regSetField (hcall : CallOk call) {inst : Instr} {table src : Nat}
    (hc : ∀ slot, inst.cacheSlot = some slot → slot < f.bytecode.setFieldCacheSlots)
    (hkey : inst.b < f.literals.length) (ht : f.Reg table) (hs : f.Reg src) :
    Within f (fun _ => True) (regSetField rt call f inst table src) :=
  within_bind (within_readSlot ht) fun receiver _ =>
    within_bind (within_readSlot hs) fun v _ =>
      within_bind (within_literal hkey) fun key _ =>
        within_bind (within_cacheOperand hc) fun cache _ =>
          within_setIndex hcall receiver key v cache

theorem within_regSetTable (hcall : CallOk call) {table key src : Nat} (ht : f.Reg table)
    (hk : f.Reg key) (hs : f.Reg src) :
    Within f (fun _ => True) (regSetTable rt call table key src) :=
  within_bind (within_readSlot hk) fun keyVal _ =>
    within_bind (within_readSlot hs) fun v _ =>
      within_bind (within_readSlot ht) fun receiver _ =>
        within_setIndex hcall receiver keyVal v none

theorem within_initTable {table src : Nat} (key : Val) (entry : Option Nat) (ht : f.Reg table)
    (hs : f.Reg src) : Within f (fun _ => True) (initTable rt table key src entry) :=
  within_bind (within_readSlot hs) fun _ _ =>
    within_bind (within_readSlot ht) fun _ _ => within_world _

theorem within_templateKeys {keys : List Nat} (hk : ∀ key ∈ keys, key < f.literals.length) :
    Within f (fun _ => True) (templateKeys f keys : Vm W E (List Val)) := by
  induction keys with
  | nil => exact within_pure trivial
  | cons key keys ih =>
    refine within_bind (within_literal (hk key List.mem_cons_self)) fun v _ => ?_
    refine within_bind (ih fun k hk' => hk k (List.mem_cons_of_mem _ hk')) fun vs _ => ?_
    exact within_pure trivial

theorem within_regNewTableTemplate {dst template : Nat} (hdst : f.Reg dst)
    (ht : template < f.bytecode.tableTemplates.length)
    (hk : ∀ t ∈ f.bytecode.tableTemplates, ∀ key ∈ t, key < f.literals.length) :
    Within f (fun _ => True) (regNewTableTemplate rt f dst template) := by
  refine within_bind (within_demand (List.getElem?_eq_getElem ht) (List.getElem_mem ht)) fun keys hmem => ?_
  exact within_bind (within_templateKeys (hk keys hmem)) fun _ _ =>
    within_bind (within_tell _) fun v _ => within_writeSlot v hdst

theorem within_regLen (hcall : CallOk call) {dst src : Nat} (hdst : f.Reg dst)
    (hs : f.Reg src) : Within f (fun _ => True) (regLen rt call dst src) := by
  refine within_bind (within_readSlot hs) fun v _ => within_bind (within_ask _) fun r _ => ?_
  rcases r with len | handler
  · exact within_writeSlot len hdst
  · exact within_bind (within_checkStackSpace 3) fun _ _ =>
      within_handlerResult hcall (by simp) 0 hdst

/-! ## Values -/

theorem within_arith (op : ArithOp) {dst : Nat} (lhs rhs : Val) (hdst : f.Reg dst) :
    Within f (fun _ => True) (arith rt op dst lhs rhs) := by
  unfold arith
  split
  · exact within_writeSlot _ hdst
  · exact within_bind within_get fun _ _ => within_raise _

theorem within_regConcat {dst first count : Nat} (hdst : f.Reg dst)
    (hle : f.Regs first count) : Within f (fun _ => True) (regConcat rt dst first count) :=
  within_bind (within_readSlots hle) fun _ _ =>
    within_bind (within_ask _) fun v _ => within_writeSlot v hdst

theorem within_compareVals (op : CompareOp) (lhs rhs : Val) :
    Within f (fun _ => True) (compareVals rt op lhs rhs) := by
  refine within_bind within_get fun s _ => ?_
  split
  · exact within_pure trivial
  · exact within_raise _

theorem within_forNumber (v : Val) : Within f (fun _ => True) (forNumber rt v) := by
  rw [forNumber]
  split
  · exact within_pure trivial
  · exact within_bind within_get fun _ _ => within_raise _

/-! ## Cursors -/

/-- The cursor `ip` moved by an offset that stays in the code. -/
theorem within_jumped {ip target : Nat} {offset : Int} (h : (target : Int) = ip + offset) :
    Within f (· = target) (jumped ip offset : Vm W E Nat) := by
  rw [jumped]
  refine within_ite (fun hpos => within_pure ?_) fun hneg => ?_
  · omega
  · refine fun s hs => wp_mono_ok (within_sub (by omega) s hs) fun a s' h' => ⟨h'.1, ?_⟩
    rw [h'.2]
    omega

theorem within_branch {ip target : Nat} {offset : Int} (h : (target : Int) = ip + offset) :
    Within f (· = target) (branch rt ip offset) := by
  rw [branch]
  refine within_ite (fun _ => ?_) fun _ => within_jumped h
  exact within_bind (within_world _) fun _ _ => within_jumped h

/-- The cursors an instruction may continue at: the next one, or its target. -/
theorem within_instrForPrep {slot ip target : Nat} {offset : Int} (hslot : f.Regs slot 4)
    (h : (target : Int) = ip + offset) :
    Within f (fun i => i = ip ∨ i = target) (instrForPrep rt slot ip offset) := by
  refine within_bind (within_readSlot (hslot.reg (by omega) (by omega))) fun startVal _ =>
    within_bind (within_readSlot (hslot.reg (by omega) (by omega))) fun endVal _ =>
      within_bind (within_readSlot (hslot.reg (by omega) (by omega))) fun stepVal _ =>
        within_bind (within_forNumber stepVal) fun step _ =>
          within_bind (within_forNumber endVal) fun limit _ =>
            within_bind (within_forNumber startVal) fun start _ => ?_
  refine within_ite (fun _ => ?_) fun _ => ?_
  · exact within_bind (within_writeSlots (by exact hslot)) fun _ _ => within_pure (.inl rfl)
  · exact fun s hs => wp_mono_ok (within_jumped h s hs) fun _ _ h' => ⟨h'.1, .inr h'.2⟩

theorem within_instrForLoop {slot ip target : Nat} {offset : Int} (hslot : f.Regs slot 4)
    (h : (target : Int) = ip + offset) :
    Within f (fun i => i = ip ∨ i = target) (instrForLoop rt slot ip offset) := by
  refine within_bind (within_readSlot (hslot.reg (by omega) (by omega))) fun varVal _ =>
    within_bind (within_readSlot (hslot.reg (by omega) (by omega))) fun limitVal _ =>
      within_bind (within_readSlot (hslot.reg (by omega) (by omega))) fun stepVal _ => ?_
  split
  · refine within_ite (fun _ => ?_) fun _ => within_pure (.inl rfl)
    exact within_bind (within_branch h) fun i hi =>
      within_bind (within_writeSlot _ (hslot.reg (by omega) (by omega))) fun _ _ =>
        within_bind (within_writeSlot _ (hslot.reg (by omega) (by omega))) fun _ _ =>
          within_pure (.inr hi)
  · exact within_fail _

theorem within_instrTforLoop {base ip target : Nat} {offset : Int} (hbase : f.Regs base 4)
    (h : (target : Int) = ip + offset) :
    Within f (fun i => i = ip ∨ i = target) (instrTforLoop base ip offset : Vm W E Nat) := by
  refine within_bind (within_readSlot (hbase.reg (by omega) (by omega))) fun first _ => ?_
  refine within_ite (fun _ => ?_) fun _ => ?_
  · exact fun s hs => wp_mono_ok (within_jumped h s hs) fun _ _ h' => ⟨h'.1, .inr h'.2⟩
  · exact within_bind (within_writeSlot first (hbase.reg (by omega) (by omega))) fun _ _ =>
      within_pure (.inl rfl)

/-! ## Generic loops -/

@[simp] theorem length_tforVars (numVars : Nat) (results : List Val) :
    (tforVars numVars results).length = numVars := by
  simp [tforVars]

/-- Results above the registers are taken into the loop variables. -/
theorem wp_takeTforResults {X : ErrorKind E → State W → Prop} {base numVars returned : Nat}
    {s s' : State W} (hc : Confined f.stackBottom f.top s s') (hl : Levels s s')
    (hlen : s'.stack.length = f.top + returned) (hs : s.stack.length = f.top)
    (hvars : f.Regs base (3 + numVars)) :
    wp (takeTforResults base numVars f.top returned : Vm W E Unit)
      (fun _ s'' => Tame f.stackBottom f.top s s'' ∧ True) X s' := by
  obtain ⟨hbt, hle⟩ := hvars
  simp only [takeTforResults, wp_bind]
  rw [wp_readSlots hlen.ge, wp_writeSlots (by rw [length_tforVars]; omega)]
  refine ⟨⟨hc.withStack ?_, ⟨hl.native, hl.metamethod⟩, ?_⟩, trivial⟩
  · rw [List.append_assoc]
    exact (AgreeBelow.splice (by omega) (by omega) _).trans (.take (by omega))
  · simp only [List.length_take, List.length_append, length_tforVars, List.length_drop]
    omega

theorem within_instrTforCall (hcall : CallOk call) {base numVars : Nat} (cursor : Option Nat)
    (hvars : f.Regs base (3 + numVars)) :
    Within f (fun _ => True) (instrTforCall rt call base numVars cursor) := by
  refine within_bind (within_readSlot (hvars.reg (by omega) (by omega))) fun iterator _ =>
    within_bind (within_readSlot (hvars.reg (by omega) (by omega))) fun state _ =>
      within_bind (within_readSlot (hvars.reg (by omega) (by omega))) fun control _ =>
        within_bind (within_tell _) fun direct _ => ?_
  rcases direct with _ | ⟨first, second⟩
  · intro s h
    have hbt : f.stackBottom ≤ f.top := h.ok.top ▸ Nat.le_add_right _ _
    have hagree : ∀ window, AgreeBelow f.stackBottom s.stack (s.stack ++ window) :=
      fun window => .append (by rw [h.length]; exact hbt) window
    simp only [wp_bind, wp_get, h.length]
    split
    · -- A Rust iterator runs right above the registers.
      rename_i g
      rw [wp_bind]
      refine wp_checkStackSpace ?_ fun _ => h.refused
      simp only [pushAll, wp_bind, wp_modify]
      refine wp_mono (wp_invokeRustFn hcall g (h.wf.congr rfl rfl rfl) ?_ h.opens)
        (fun n s' h' => ?_) fun e s' h' => ?_
      · simp only [List.length_append, h.length]
        omega
      · exact wp_takeTforResults ((h'.1.widen hbt).ofStack (hagree _))
          ⟨h'.2.1.native, h'.2.1.metamethod⟩ h'.2.2 h.length hvars
      · exact ⟨(h'.1.widen hbt).ofStack (hagree _), ⟨h'.2.1.native, h'.2.1.metamethod⟩, h'.2.2⟩
    · rw [wp_bind]
      refine wp_checkStackSpace ?_ fun _ => h.refused
      simp only [pushAll, wp_bind, wp_modify]
      have hlen : (s.stack ++ [iterator, state, control]).length - (2 + 1) = f.top := by
        simp [h.length]
      have hslot : f.top ≤
          max s.stackBottom ((s.stack ++ [iterator, state, control]).length - (2 + 1)) := by
        rw [hlen]
        exact le_max_right _ _
      refine wp_mono (hcall 2 .all _ (by simp [MAX_ARGUMENTS]) (h.wf.congr rfl rfl rfl) ?_
        (State.OpenBelow.mono (n := f.top) h.opens hslot)) (fun _ s' h' => ?_) fun e s' h' => ?_
      · simp only [List.length_append, h.length, h.bottom]
        omega
      · obtain ⟨hc, hl, -, hle, -⟩ := h'
        have hle : f.top ≤ s'.stack.length := hlen ▸ hle
        simp only [wp_get]
        rw [wp_sub hle]
        exact wp_takeTforResults ((hc.widen (hbt.trans hslot)).ofStack (hagree _))
          ⟨hl.native, hl.metamethod⟩ (by omega) h.length hvars
      · obtain ⟨hc, hl, -, hres⟩ := h'
        refine ⟨(hc.widen (hbt.trans hslot)).ofStack (hagree _), ⟨hl.native, hl.metamethod⟩, ?_⟩
        have hroom : s.stackBottom + (2 + 1) ≤ (s.stack ++ [iterator, state, control]).length := by
          simp only [List.length_append, h.length, h.bottom, List.length_cons, List.length_nil]
          omega
        rw [hres hroom]
        exact hlen.ge
  · refine within_writeSlots ⟨?_, ?_⟩
    · exact hvars.bottom_le.trans (Nat.le_add_right _ _)
    · rw [length_tforVars, Nat.add_assoc]
      exact hvars.le_top

/-! ## Functions -/

/-- A capture, of a register or of one of the running closure's own. -/
theorem wp_captureOne {s : State W} (h : Room f s) (desc : UpvalueDesc) :
    desc.validIn f.bytecode → wp (match desc with
        | .local i => findOrCreateUpvalue (f.stackBottom + i)
        | .upvalue i => demand f.upvalues[i]? : Vm W E Nat)
      (fun r s' => Tame f.stackBottom f.top s s' ∧ r < s'.upvaluePool.length)
      (fun _ s' => Faulted f s s') s := by
  intro hdesc
  rcases desc with i | i
  · obtain ⟨hvalid, -, -⟩ := h.ok.admitted
    have hframe := (headerOk hvalid).frame
    have hi : i < f.bytecode.numParams + f.bytecode.numLocals := by
      simpa [UpvalueDesc.validIn] using hdesc
    refine wp_mono (wp_findOrCreateUpvalue h.wf ⟨Nat.le_add_right _ _, ?_⟩)
      (fun _ _ h' => h') fun _ _ h' => h.faulted h'
    rw [h.ok.top]
    omega
  · have hi : i < f.bytecode.upvalues.length := by simpa [UpvalueDesc.validIn] using hdesc
    have hlt : i < f.upvalues.length := h.ok.captures ▸ hi
    show wp (demand f.upvalues[i]?) _ _ _
    rw [wp_demand (List.getElem?_eq_getElem hlt)]
    exact ⟨.refl h.wf, h.ok.refs _ (List.getElem_mem hlt)⟩

/-- The captures of a closure are entries of the pool. -/
theorem wp_capture {descs : List UpvalueDesc} {s : State W} (h : Room f s)
    (hd : ∀ desc ∈ descs, desc.validIn f.bytecode) :
    wp (capture f descs : Vm W E (List Nat))
      (fun rs s' => Tame f.stackBottom f.top s s' ∧ rs.length = descs.length ∧
        ∀ r ∈ rs, r < s'.upvaluePool.length) (fun _ s' => Faulted f s s') s := by
  induction descs generalizing s with
  | nil => exact ⟨.refl h.wf, rfl, by simp⟩
  | cons desc descs ih =>
    simp only [capture, wp_bind]
    refine wp_mono_ok (wp_captureOne h desc (hd desc List.mem_cons_self)) fun r s₁ h₁ => ?_
    refine wp_mono (ih (h.tame h₁.1) fun d hd' => hd d (List.mem_cons_of_mem _ hd'))
      (fun rs s₂ h₂ => ?_) fun e s₂ h₂ => ?_
    · refine ⟨h₁.1.trans h₂.1, by simp [h₂.2.1], fun q hq => ?_⟩
      rcases List.mem_cons.1 hq with rfl | hq
      · exact h₁.2.trans_le h₂.1.confined.pool
      · exact h₂.2.2 q hq
    · exact ⟨h₁.1.confined.trans h₂.confined, h₁.1.levels.trans h₂.levels, h₂.length⟩

/-- A nested function of a verified tree becomes a closure with the declared
    captures. -/
theorem within_regClosure {dst nested : Nat} (hdst : f.Reg dst)
    (hn : nested < f.bytecode.nested.length) (ha : Admitted f.bytecode) :
    Within f (fun _ => True) (regClosure rt f dst nested) := by
  obtain ⟨-, hchild, hnested⟩ := ha
  refine within_bind (within_demand (List.getElem?_eq_getElem hn) (List.getElem_mem hn))
    fun bytecode hmem => ?_
  have hdescs : ∀ desc ∈ bytecode.upvalues, desc.validIn f.bytecode := by
    have := hchild bytecode hmem
    rw [validateChild, ensure_eq_ok] at this
    exact this
  intro s h
  rw [wp_bind]
  refine wp_mono (wp_internAll h.wf _) (fun literals s₁ h₁ => ?_) fun _ _ h' => h.faulted h'
  have hroom₁ := h.tame h₁.1
  rw [wp_bind]
  refine wp_mono (wp_capture hroom₁ hdescs) (fun captured s₂ h₂ => ?_) fun _ s₂ h₂ =>
    ⟨h₁.1.confined.trans h₂.confined, h₁.1.levels.trans h₂.levels, h₂.length⟩
  have hroom₂ := hroom₁.tame h₂.1
  have ht := h₁.1.trans h₂.1
  have halloc : Keeps f.stackBottom f.top (allocClosure rt ⟨bytecode, literals, captured⟩) s₂ :=
    keeps_allocClosure hroom₂.wf ⟨hnested bytecode hmem, h₁.2, h₂.2.1, h₂.2.2⟩
  rw [wp_bind]
  refine wp_mono halloc (fun v s₃ h₃ => ?_) fun _ s₃ h₃ => ?_
  · refine wp_mono (within_writeSlot v hdst s₃ (hroom₂.tame h₃)) (fun _ s₄ h₄ => ?_)
      fun _ s₄ h₄ => ?_
    · exact ⟨(ht.trans h₃).trans h₄.1, trivial⟩
    · exact ⟨(ht.trans h₃).confined.trans h₄.confined, (ht.trans h₃).levels.trans h₄.levels,
        h₄.length⟩
  · exact h.faulted (ht.trans h₃)

/-- A fixed number of extra arguments. -/
theorem within_regVararg {dst n : Nat} (hr : f.Regs dst n) :
    Within f (fun _ => True) (regVararg dst (.fixed n) : Vm W E Unit) := by
  intro s h
  obtain ⟨info, rest, hs, hstart⟩ := h.record
  simp only [regVararg, wp_bind, wp_get, hs, List.head?_cons, wp_demand_some]
  rw [wp_sub hstart]
  have hle := hr.le_top
  refine within_writeSlots ⟨hr.bottom_le, ?_⟩ s h
  simp only [List.length_append, List.length_take, List.length_drop, List.length_replicate]
  omega

end Machine

end Dellingr
