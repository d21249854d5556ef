import Dellingr.Vm.Within

/-!
# One instruction

What an instruction of verified code does from a state in which its frame runs
(`Live`) with the cursor on it (`AtCursor`):

* an instruction that neither leaves nor reads an open top keeps the stack at
  the top of the frame and continues at an instruction that reads none
  (`within_execInstr`);
* an open producer leaves the stack where its consumer, the very next
  instruction, expects it (`wp_vararg_open`, `wp_execCall`), and the consumer
  takes it back (`wp_setList_open`);
* a call leaves an admitted callee above the frame (`wp_execCall`), a tail call
  leaves it in the frame's place (`wp_execTailCall`), and a return leaves its
  results in the frame (`wp_execRet`).

`wp_execInstr` collects these for every instruction.
-/

namespace Dellingr

open Effect

variable {W E : Type}

/-! ## Running frames -/

/-- An instruction that reads no open results. -/
def Lands (f : Frame) (ip : Nat) : Prop :=
  ∃ inst, f.bytecode.code[ip]? = some inst ∧ inst.consumesOpen = false

/-- The cursor is on an instruction, and the stack ends where it expects: at the
    top of the frame, or past the start of the open results it reads. -/
def AtCursor (f : Frame) (ip : Nat) (s : State W) : Prop :=
  ∃ inst, f.bytecode.code[ip]? = some inst ∧
    if inst.consumesOpen then f.stackBottom + inst.windowStart ≤ s.stack.length
    else s.stack.length = f.top

theorem Lands.atCursor {f : Frame} {ip : Nat} {s : State W} (h : Lands f ip)
    (hlen : s.stack.length = f.top) : AtCursor f ip s := by
  obtain ⟨inst, hi, hc⟩ := h
  exact ⟨inst, hi, by simp [hc, hlen]⟩

/-- A frame runs on top of the suspended frames of its invocation. -/
structure Live (o : State W) (idx : Nat) (f : Frame) (rest : List Frame) (s : State W) :
    Prop where
  wf : s.Wf
  pool : o.upvaluePool.length ≤ s.upvaluePool.length
  stacked : Stacked s.upvaluePool.length idx (f :: rest)
  acts : ∃ rs, rs.length = rest.length + 1 ∧ Acts o rs s
  opens : OpensOk o idx (f :: rest) s
  bottom : s.stackBottom = f.stackBottom
  below : s.OpenBelow s.stack.length
  belowTop : s.OpenBelow f.top
  spared : Spared idx o s

namespace Live

variable {o s s' : State W} {idx : Nat} {f : Frame} {rest : List Frame}

theorem frameOk (h : Live o idx f rest s) : FrameOk s.upvaluePool.length f := h.stacked.head

theorem record (h : Live o idx f rest s) :
    ∃ info records, s.callStack = info :: records ∧ info.varargStart ≤ s.varargStack.length := by
  obtain ⟨rs, hlen, hacts⟩ := h.acts
  rcases rs with _ | ⟨r, rs⟩
  · simp at hlen
  · exact ⟨r, rs ++ o.callStack, hacts.callStack, hacts.starts.1⟩

theorem room (h : Live o idx f rest s) (hlen : s.stack.length = f.top) : Room f s :=
  ⟨h.wf, h.frameOk, h.bottom, hlen, h.belowTop, h.record⟩

/-- An operation of the frame that leaves everything else alone. -/
theorem confined (h : Live o idx f rest s) (hc : Confined f.stackBottom f.top s s')
    (hl : Levels s s') (hb : s'.OpenBelow s'.stack.length) : Live o idx f rest s' where
  wf := hc.wf
  pool := h.pool.trans hc.pool
  stacked := h.stacked.mono hc.pool
  acts := by
    obtain ⟨rs, hlen, hacts⟩ := h.acts
    exact ⟨rs, hlen, hacts.confined hc hl⟩
  opens := h.opens.confined h.stacked hc
  bottom := hc.bottom.trans h.bottom
  below := hb
  belowTop := hc.openBelow_top h.belowTop
  spared := by
    have hidx := (h.stacked.bottom_le rfl List.mem_cons_self).1
    refine h.spared.trans (fun p hp => (h.opens p hp).imp_right fun hp' => ?_)
      (hc.spared.mono (by omega))
    omega

/-- The values in its registers and above and the world do not matter to a running
    frame. -/
theorem restack (h : Live o idx f rest s) {stack : List Val} {w : W}
    (hs : AgreeBelow f.stackBottom s.stack stack) (hb : s.OpenBelow stack.length) :
    Live o idx f rest { s with stack := stack, world := w } := by
  refine h.confined ?_ ⟨rfl, rfl⟩ hb
  exact ⟨h.wf.congr rfl rfl rfl, rfl, rfl, rfl, rfl, le_refl _, fun _ hp => .inl hp, hs.spared⟩

/-- The world does not matter to a running frame. -/
theorem setWorld (h : Live o idx f rest s) (w : W) : Live o idx f rest { s with world := w } :=
  h.restack (.refl _ _) h.below

/-- An error stops the invocation in the frame. -/
theorem stopped (h : Live o idx f rest s) (hlen : f.stackBottom ≤ s.stack.length + 1) :
    Machine.Stopped o idx (f :: rest) s where
  wf := h.wf
  pool := h.pool
  stacked := h.stacked
  acts := h.acts
  opens := h.opens
  below := h.below
  reaches g hg := by
    obtain rfl : f = g := by simpa using hg
    exact hlen
  spared := h.spared

theorem faulted (h : Live o idx f rest s) (hf : Faulted f s s') :
    Machine.Stopped o idx (f :: rest) s' := by
  have htop : f.stackBottom ≤ f.top := h.frameOk.top ▸ Nat.le_add_right _ _
  have hlen := hf.length
  refine (h.confined hf.confined hf.levels ?_).stopped (by omega)
  exact (hf.confined.openBelow_top h.belowTop).mono hlen

end Live

namespace Machine

variable {rt : Runtime W E} {call : CallFn W E} {f : Frame}

/-! ## Instructions within the frame -/

section Quiet

variable {pool pc : Nat} {inst : Instr} {op : Opcode}

/-- Where an instruction continues. -/
def Continues (f : Frame) (n : Next) : Prop := ∃ ip, n = .next ip ∧ Lands f ip

theorem within_next {ip : Nat} (h : Lands f ip) :
    Within f (Continues f) (Pure.pure (Next.next ip) : Vm W E Next) :=
  within_pure ⟨ip, rfl, h⟩

/-- A computation followed by the next instruction. -/
theorem within_falls {α : Type} {P : α → Prop} {m : Vm W E α} {ip : Nat} (hm : Within f P m)
    (h : Lands f ip) : Within f (Continues f) (m >>= fun _ => Pure.pure (.next ip)) :=
  within_bind hm fun _ _ => within_next h

/-- A computation that gives the cursor to continue at. -/
theorem within_goes {P : Nat → Prop} {m : Vm W E Nat} (hm : Within f P m)
    (h : ∀ ip, P ip → Lands f ip) :
    Within f (Continues f) (m >>= fun ip => Pure.pure (.next ip)) :=
  within_bind hm fun ip hip => within_next (h ip hip)

/-- The target of a verified transfer. -/
theorem verifiedAt_target (hv : VerifiedAt f.bytecode pc inst op) (ht : op.isTransfer = true) :
    ∃ t : Nat, (t : Int) = (pc + 1 : Nat) + inst.sj ∧ Lands f t := by
  obtain ⟨t, next, hjump, hn, hc⟩ := hv.transfer ht
  exact ⟨t, by have := (jumpTarget_eq_some hjump).1; push_cast; omega, next, hn, hc⟩

/-- An instruction that neither leaves nor reads an open top stays within the
    frame and continues at an instruction that reads none. -/
theorem within_execInstr (hcall : CallOk call) (hok : FrameOk pool f)
    (hv : VerifiedAt f.bytecode pc inst op) (hprod : inst.producesOpen = false)
    (hcons : inst.consumesOpen = false) (hop : op ≠ .call ∧ op ≠ .ret ∧ op ≠ .tailCall) :
    Within f (Continues f) (execInstr rt call f inst (pc + 1)) := by
  have hnext : Lands f (pc + 1) := hv.falls hop.2.1 hprod
  have reg : ∀ {x : Nat}, x < f.bytecode.maxStack → f.Reg (f.stackBottom + x) := by
    intro x hx
    have := hok.top
    exact ⟨by omega, by omega⟩
  have regs : ∀ {x n : Nat}, x + n ≤ f.bytecode.maxStack → f.Regs (f.stackBottom + x) n := by
    intro x n hx
    have := hok.top
    exact ⟨by omega, by omega⟩
  have lit : ∀ {x : Nat}, x < f.bytecode.stringLiterals.length → x < f.literals.length := by
    intro x hx
    rwa [hok.literals]
  have hcache := hv.cache
  have hoperands := hv.operands
  have htarget := verifiedAt_target hv
  refine within_bind (P := fun op' => op' = op) (within_demand hv.opcode rfl) ?_
  rintro op rfl
  refine within_bind (within_world _) fun _ _ => ?_
  cases op with
  | move =>
    obtain ⟨ha, hb⟩ := hoperands
    exact within_bind (within_readSlot (reg hb)) fun v _ =>
      within_falls (within_writeSlot v (reg ha)) hnext
  | loadNil =>
    exact within_falls (within_writeSlots (by
      rw [List.length_replicate]
      exact regs hoperands)) hnext
  | loadBool => exact within_falls (within_writeSlot _ (reg hoperands)) hnext
  | loadNum =>
    obtain ⟨ha, hb⟩ := hoperands
    exact within_bind (within_getNumberConstant hb) fun n _ =>
      within_falls (within_writeSlot _ (reg ha)) hnext
  | loadStr =>
    obtain ⟨ha, hb⟩ := hoperands
    exact within_bind (within_literal (lit hb)) fun v _ =>
      within_falls (within_writeSlot v (reg ha)) hnext
  | getUpval =>
    obtain ⟨ha, hb⟩ := hoperands
    exact within_bind (within_upvalueValue hb) fun v _ =>
      within_falls (within_writeSlot v (reg ha)) hnext
  | setUpval =>
    obtain ⟨ha, hb⟩ := hoperands
    exact within_bind (within_readSlot (reg ha)) fun v _ =>
      within_falls (within_setUpvalueValue v hb) hnext
  | close => exact within_falls (within_closeUpvalues _) hnext
  | getGlobal =>
    obtain ⟨ha, hb⟩ := hoperands
    exact within_bind (within_cacheOperand hcache) fun _ _ =>
      within_bind (within_literal (lit hb)) fun _ _ =>
        within_bind (within_tell _) fun v _ =>
          within_falls (within_writeSlot v (reg ha)) hnext
  | setGlobal =>
    obtain ⟨ha, hb⟩ := hoperands
    exact within_bind (within_cacheOperand hcache) fun _ _ =>
      within_bind (within_readSlot (reg ha)) fun _ _ =>
        within_bind (within_literal (lit hb)) fun _ _ =>
          within_falls (within_tell _) hnext
  | getBuiltin =>
    obtain ⟨ha, hb⟩ := hoperands
    exact within_bind (within_require hb) fun _ _ =>
      within_bind (within_tell _) fun v _ =>
        within_falls (within_writeSlot v (reg ha)) hnext
  | setBuiltin =>
    obtain ⟨ha, hb⟩ := hoperands
    exact within_bind (within_require hb) fun _ _ =>
      within_bind (within_readSlot (reg ha)) fun _ _ =>
        within_falls (within_tell _) hnext
  | newTable =>
    exact within_bind (within_tell _) fun v _ =>
      within_falls (within_writeSlot v (reg hoperands)) hnext
  | newTablePresized =>
    exact within_bind (within_tell _) fun v _ =>
      within_falls (within_writeSlot v (reg hoperands)) hnext
  | newTableTemplate =>
    obtain ⟨ha, hb⟩ := hoperands
    obtain ⟨hvalid, -, -⟩ := hok.admitted
    have htemplates := (headerOk hvalid).templates
    exact within_falls (within_regNewTableTemplate (reg ha) hb fun t ht key hkey =>
      lit (htemplates t ht key hkey)) hnext
  | getField =>
    obtain ⟨ha, hb, hc⟩ := hoperands
    exact within_bind (within_readSlot (reg hb)) fun receiver _ =>
      within_falls (within_regGetField hcall receiver hcache (lit hc) (reg ha)) hnext
  | self =>
    obtain ⟨ha, hb, hc⟩ := hoperands
    exact within_bind (within_readSlot (reg hb)) fun receiver _ =>
      within_bind (within_writeSlot receiver ((regs ha).reg (by omega) (by omega))) fun _ _ =>
        within_falls (within_regGetField hcall receiver hcache (lit hc) (reg (by omega))) hnext
  | getTable =>
    obtain ⟨ha, hb, hc⟩ := hoperands
    exact within_falls (within_regGetTable hcall (reg ha) (reg hb) (reg hc)) hnext
  | setField =>
    obtain ⟨ha, hb, hc⟩ := hoperands
    exact within_falls (within_regSetField hcall hcache (lit hb) (reg ha) (reg hc)) hnext
  | setTable =>
    obtain ⟨ha, hb, hc⟩ := hoperands
    exact within_falls (within_regSetTable hcall (reg ha) (reg hb) (reg hc)) hnext
  | initField =>
    obtain ⟨ha, hb, hc⟩ := hoperands
    exact within_bind (within_literal (lit hb)) fun key _ =>
      within_falls (within_initTable key none (reg ha) (reg hc)) hnext
  | initFieldPinned =>
    obtain ⟨ha, hb, hc⟩ := hoperands
    exact within_bind (within_literal (lit hb)) fun key _ =>
      within_falls (within_initTable key (some inst.d) (reg ha) (reg hc)) hnext
  | initIndex =>
    obtain ⟨ha, hb, hc⟩ := hoperands
    exact within_bind (within_readSlot (reg hb)) fun key _ =>
      within_falls (within_initTable key none (reg ha) (reg hc)) hnext
  | setList =>
    obtain ⟨ha, hcount⟩ := hoperands
    -- A fixed count: an open one would read open results.
    have hb : inst.b ≠ OPEN_COUNT := by simpa [Instr.consumesOpen, hv.opcode] using hcons
    have hcount : inst.a + 1 + inst.b ≤ f.bytecode.maxStack := by
      rcases hcount with h | ⟨-, -, h⟩
      · exact absurd h hb
      · exact h
    have hsome : inst.setListCount = some inst.b := by simp [Instr.setListCount, hb]
    have hlist : Within f (fun _ => True)
        (regSetList rt (f.stackBottom + inst.a) inst.b inst.c) :=
      within_bind (within_readSlot (reg ha)) fun _ _ =>
        within_bind (within_readSlots (by rw [Nat.add_assoc f.stackBottom]; exact regs hcount))
          fun _ _ => within_world _
    simp only [hsome, reduceCtorEq, ↓reduceIte]
    refine within_bind within_get fun _ _ =>
      within_bind (P := fun count => count = inst.b) (within_pure rfl) ?_
    rintro _ rfl
    exact within_bind (within_world _) fun _ _ => within_falls hlist hnext
  | arith aop operands =>
    cases operands with
    | regReg =>
      obtain ⟨ha, hb, hc⟩ := hoperands
      exact within_bind (within_readSlot (reg hb)) fun lhs _ =>
        within_bind (within_readSlot (reg hc)) fun rhs _ =>
          within_falls (within_arith aop lhs rhs (reg ha)) hnext
    | regConst =>
      obtain ⟨ha, hb, hc⟩ := hoperands
      exact within_bind (within_readSlot (reg hb)) fun lhs _ =>
        within_bind (within_getNumberConstant hc) fun y _ =>
          within_falls (within_arith aop lhs _ (reg ha)) hnext
    | constReg =>
      obtain ⟨ha, hb, hc⟩ := hoperands
      exact within_bind (within_getNumberConstant hb) fun x _ =>
        within_bind (within_readSlot (reg hc)) fun rhs _ =>
          within_falls (within_arith aop _ rhs (reg ha)) hnext
  | unm =>
    obtain ⟨ha, hb⟩ := hoperands
    refine within_bind (within_readSlot (reg hb)) fun v _ => ?_
    split
    · exact within_falls (within_writeSlot _ (reg ha)) hnext
    · exact within_bind within_get fun _ _ =>
        within_bind (P := fun _ => False) (within_raise _) fun _ h => h.elim
  | not =>
    obtain ⟨ha, hb⟩ := hoperands
    exact within_bind (within_readSlot (reg hb)) fun v _ =>
      within_falls (within_writeSlot _ (reg ha)) hnext
  | len =>
    obtain ⟨ha, hb⟩ := hoperands
    exact within_falls (within_regLen hcall (reg ha) (reg hb)) hnext
  | concat =>
    obtain ⟨ha, hle⟩ := hoperands
    exact within_falls (within_regConcat (reg ha) (regs hle)) hnext
  | compare cop =>
    obtain ⟨ha, hb, hc⟩ := hoperands
    exact within_bind (within_readSlot (reg hb)) fun lhs _ =>
      within_bind (within_readSlot (reg hc)) fun rhs _ =>
        within_bind (within_compareVals cop lhs rhs) fun b _ =>
          within_falls (within_writeSlot _ (reg ha)) hnext
  | jmp =>
    obtain ⟨t, ht, hl⟩ := htarget rfl
    exact within_goes (within_branch ht) fun ip hip => hip ▸ hl
  | branchCompare cop =>
    obtain ⟨ha, hb⟩ := hoperands
    obtain ⟨t, ht, hl⟩ := htarget rfl
    refine within_bind (within_readSlot (reg ha)) fun lhs _ =>
      within_bind (within_readSlot (reg hb)) fun rhs _ =>
        within_bind (within_compareVals cop lhs rhs) fun b _ => ?_
    exact within_ite (fun _ => within_next hnext) fun _ =>
      within_goes (within_branch ht) fun ip hip => hip ▸ hl
  | testFalse =>
    obtain ⟨t, ht, hl⟩ := htarget rfl
    refine within_bind (within_readSlot (reg hoperands)) fun v _ => ?_
    exact within_ite (fun _ => within_next hnext) fun _ =>
      within_goes (within_branch ht) fun ip hip => hip ▸ hl
  | testTrue =>
    obtain ⟨t, ht, hl⟩ := htarget rfl
    refine within_bind (within_readSlot (reg hoperands)) fun v _ => ?_
    exact within_ite
      (fun _ => within_goes (within_branch ht) fun ip hip => hip ▸ hl)
      fun _ => within_next hnext
  | forPrep =>
    obtain ⟨t, ht, hl⟩ := htarget rfl
    exact within_goes (within_instrForPrep (regs hoperands.2) ht) fun ip hip =>
      hip.elim (fun h => h ▸ hnext) fun h => h ▸ hl
  | forLoop =>
    obtain ⟨t, ht, hl⟩ := htarget rfl
    exact within_goes (within_instrForLoop (regs hoperands) ht) fun ip hip =>
      hip.elim (fun h => h ▸ hnext) fun h => h ▸ hl
  | tforCall =>
    obtain ⟨-, hle⟩ := hoperands
    rw [Nat.add_assoc] at hle
    exact within_bind (within_world _) fun _ _ =>
      within_bind (within_cacheOperand hcache) fun cursor _ =>
        within_falls (within_instrTforCall hcall cursor (regs hle)) hnext
  | tforLoop =>
    obtain ⟨t, ht, hl⟩ := htarget rfl
    exact within_goes (within_instrTforLoop (regs hoperands.2) ht) fun ip hip =>
      hip.elim (fun h => h ▸ hnext) fun h => h ▸ hl
  | closure =>
    obtain ⟨ha, hb⟩ := hoperands
    exact within_falls (within_regClosure (reg ha) hb hok.admitted) hnext
  | vararg =>
    obtain ⟨-, hcount⟩ := hoperands
    have hb : inst.b ≠ OPEN_COUNT := by simpa [Instr.producesOpen, hv.opcode] using hprod
    rcases hcount with h | ⟨-, hlim, hle⟩
    · exact absurd h hb
    · have hfixed : inst.varargCount = .fixed inst.b := by
        simp only [MAX_FIXED_RESULTS] at hlim
        rw [Instr.varargCount, RetCount.fromOperand, if_neg hb, if_neg (by omega)]
      rw [hfixed]
      exact within_falls (within_regVararg (regs hle)) hnext
  | call => exact absurd rfl hop.1
  | ret => exact absurd rfl hop.2.1
  | tailCall => exact absurd rfl hop.2.2

end Quiet

/-! ## Open results -/

/-- A Lua callee was admitted at `slot`, above the frames `fs`. -/
structure Admitting (o : State W) (idx slot : Nat) (fs : List Frame) (s : State W) : Prop where
  wf : s.Wf
  pool : o.upvaluePool.length ≤ s.upvaluePool.length
  bottom : s.stackBottom = slot + 1
  closure : ∃ v c, s.stack[slot]? = some v ∧ s.luaFunction v = some c ∧
    s.stack.length = slot + 1 + c.bytecode.maxStack
  opens : OpensOk o idx fs s
  below : s.OpenBelow slot
  spared : Spared idx o s

/-- The outcome of an instruction. -/
def Stepped (o : State W) (idx : Nat) (f : Frame) (rest : List Frame) (inst : Instr)
    (s : State W) : Next → Prop
  | .next ip => Live o idx f rest s ∧ AtCursor f ip s
  | .leave .call => inst.opcode = some .call ∧ Stacked s.upvaluePool.length idx (f :: rest) ∧
    Admitting o idx (f.stackBottom + inst.a) (f :: rest) s ∧
    ∃ rs, rs.length = rest.length + 2 ∧ Acts o rs s
  | .leave .tailCall => Stacked s.upvaluePool.length idx (f :: rest) ∧
    Admitting o idx (f.stackBottom - 1) rest s ∧
    ∃ r r' rs, rs.length = rest.length ∧ r'.units = 0 ∧ Acts o (r :: r' :: rs) s
  | .leave (.ret first count) => Stopped o idx (f :: rest) s ∧ f.stackBottom - 1 ≤ first ∧
    first + count ≤ s.stack.length

section Open

variable {o s : State W} {idx pc : Nat} {rest : List Frame} {inst : Instr}

/-- The stack at the cursor of an instruction: at the top of the frame, or past
    the start of the results it reads. -/
def Positioned (f : Frame) (inst : Instr) (s : State W) : Prop :=
  if inst.consumesOpen then f.stackBottom + inst.windowStart ≤ s.stack.length
  else s.stack.length = f.top

/-- A consumer finds the open results of its producer above the start of its
    window. -/
theorem atCursor_of_producer {op : Opcode} (hv : VerifiedAt f.bytecode pc inst op)
    (hp : inst.producesOpen = true) (hlen : f.stackBottom + inst.a ≤ s.stack.length) :
    AtCursor f (pc + 1) s := by
  obtain ⟨next, hn, hc, hw⟩ := hv.produces hp
  refine ⟨next, hn, ?_⟩
  rw [if_pos hc]
  omega

/-- A vararg of every value leaves the top after the last. -/
theorem wp_vararg_open (h : Live o idx f rest s) (hlen : s.stack.length = f.top)
    (hv : VerifiedAt f.bytecode pc inst .vararg) (hb : inst.b = OPEN_COUNT) :
    wp (do
      regVararg (f.stackBottom + inst.a) inst.varargCount
      return .next (pc + 1) : Vm W E Next) (fun n s' => Stepped o idx f rest inst s' n)
      (fun _ s' => Stopped o idx (f :: rest) s') s := by
  obtain ⟨info, records, hs, hstart⟩ := h.record
  have ha : inst.a < f.bytecode.maxStack := hv.operands.1
  have htop := h.frameOk.top
  have hall : inst.varargCount = .all := by rw [Instr.varargCount, RetCount.fromOperand, if_pos hb]
  have hp : inst.producesOpen = true := by simp [Instr.producesOpen, hv.opcode, hb]
  have hstop : Stopped o idx (f :: rest) s := h.stopped (by omega)
  rw [hall]
  simp only [regVararg, wp_bind, wp_get, hs, List.head?_cons, wp_demand_some]
  rw [wp_sub hstart]
  refine wp_checkWindow h.wf (fun hbelow => ?_) fun _ => hstop
  refine wp_checkStackSpace ?_ fun _ => hstop
  simp only [truncate, pushAll, wp_modify, wp_pure]
  have hlen' : f.stackBottom + inst.a ≤
      (s.stack.take (f.stackBottom + inst.a) ++ s.varargStack.drop info.varargStart).length := by
    simp only [List.length_append, List.length_take]
    omega
  exact ⟨h.restack (.splice (Nat.le_add_right _ _) (by omega) _) (hbelow.mono hlen'),
    atCursor_of_producer hv hp hlen'⟩

/-- An open set-list takes the values above the table and brings the stack back
    to the top of the frame. -/
theorem wp_setList_open (h : Live o idx f rest s)
    (hlen : f.stackBottom + inst.a + 1 ≤ s.stack.length)
    (hv : VerifiedAt f.bytecode pc inst .setList) (hb : inst.b = OPEN_COUNT) :
    wp (do
      let s ← get
      let count ← (match inst.setListCount with
        | some count => return count
        | none => sub s.stack.length (f.stackBottom + inst.a + 1))
      world (rt.chargeElements count)
      regSetList rt (f.stackBottom + inst.a) count inst.c
      if inst.setListCount = none then resize f.top
      return .next (pc + 1) : Vm W E Next) (fun n s' => Stepped o idx f rest inst s' n)
      (fun _ s' => Stopped o idx (f :: rest) s') s := by
  have hnone : inst.setListCount = none := by simp [Instr.setListCount, hb]
  have hp : inst.producesOpen = false := by simp [Instr.producesOpen, hv.opcode]
  have hstop : ∀ w, Stopped o idx (f :: rest) { s with world := w } :=
    fun w => (h.setWorld w).stopped (by show f.stackBottom ≤ s.stack.length + 1; omega)
  simp only [hnone, wp_bind, wp_get, ↓reduceIte]
  rw [wp_sub hlen]
  refine wp_world (fun w => ?_) fun _ => hstop _
  simp only [regSetList, wp_bind]
  rw [wp_readSlot (by exact hlen), wp_readSlots (by show _ + _ ≤ s.stack.length; omega)]
  refine wp_world (fun w' => ?_) fun _ => hstop _
  simp only [resize, wp_modify, wp_pure]
  have htop := h.frameOk.top
  refine ⟨h.restack (.resize (by omega) (by omega)) ?_, Lands.atCursor (hv.falls (by simp) hp) ?_⟩
  · rw [length_resize]
    exact h.belowTop
  · exact length_resize _ _

/-! ## Calls -/

theorem wp_callBase {X : ErrorKind E → State W → Prop} {base numArgs : Nat}
    (hb : s.stackBottom ≤ base) (hlen : s.stack.length = base + 1 + numArgs)
    {Q : Nat → State W → Prop} : wp (callBase numArgs) Q X s = Q base s := by
  simp only [callBase, wp_bind]
  rw [wp_getTop (by omega)]
  simp only [wp_get]
  rw [if_pos (by omega), wp_pure]
  congr 1
  omega

/-- The window of a call: the stack ends after the arguments, and no open
    upvalue points into it. -/
theorem wp_callWindow {callee : Nat} {args : ArgCount} (h : s.Wf)
    (hfixed : ∀ n, args = .fixed n → n ≤ MAX_ARGUMENTS ∧ callee + 1 + n ≤ s.stack.length)
    (hdynamic : args = .dynamic → callee + 1 ≤ s.stack.length) :
    wp (callWindow callee args : Vm W E Nat)
      (fun n s' => n ≤ MAX_ARGUMENTS ∧ s.OpenBelow callee ∧
        ∃ stack, s' = { s with stack := stack } ∧ stack.length = callee + 1 + n ∧
          AgreeBelow callee s.stack stack)
      (fun _ s' => s' = s) s := by
  simp only [callWindow, wp_bind]
  refine wp_checkWindow h (fun hbelow => ?_) fun _ => rfl
  rcases args with n | _
  · obtain ⟨hn, hle⟩ := hfixed n rfl
    simp only [truncate, wp_bind, wp_modify, wp_pure]
    exact ⟨hn, hbelow, _, rfl, by rw [List.length_take, min_eq_left hle], .take (by omega)⟩
  · have hle := hdynamic rfl
    simp only [wp_bind, wp_get]
    rw [wp_sub (by omega), wp_sub (by omega)]
    refine wp_ite (fun hn => ?_) fun _ => rfl
    exact ⟨hn, hbelow, s.stack, rfl, by omega, .refl callee _⟩

/-- The arguments of a verified call or tail call at its cursor. -/
theorem Positioned.callArgs {frame : Nat} (hpos : Positioned f inst s)
    (hop : inst.opcode = some .call ∨ inst.opcode = some .tailCall)
    (htop : f.top = f.stackBottom + frame)
    (hb : CountOk inst.b MAX_FIXED_ARGS (inst.a + 1) frame) :
    (∀ n, inst.callArgs = .fixed n → n ≤ MAX_ARGUMENTS ∧
      f.stackBottom + inst.a + 1 + n ≤ s.stack.length) ∧
    (inst.callArgs = .dynamic → f.stackBottom + inst.a + 1 ≤ s.stack.length) := by
  have hcons : inst.consumesOpen = (inst.b == OPEN_COUNT) := by
    rcases hop with hop | hop <;> simp [Instr.consumesOpen, hop]
  have hwindow : inst.windowStart = inst.a + 1 := by
    rcases hop with hop | hop <;> simp [Instr.windowStart, hop]
  rw [Positioned, hcons, hwindow] at hpos
  rw [Instr.callArgs, ArgCount.fromOperand]
  rcases hb with hb | ⟨hb, hlim, hle⟩
  · rw [if_pos (by simpa using hb)] at hpos
    rw [if_pos hb]
    exact ⟨by simp, fun _ => by omega⟩
  · simp only [MAX_FIXED_ARGS] at hlim
    rw [if_neg (by simpa using hb)] at hpos
    rw [if_neg hb, if_neg (by omega)]
    refine ⟨fun n hn => ?_, by simp⟩
    obtain rfl : inst.b = n := by simpa using hn
    simp only [MAX_ARGUMENTS]
    omega

/-- After an admission the frames below the callee are as they were. -/
theorem admitting_of_entered {slot units : Nat} {s' : State W} (h : Live o idx f rest s)
    (hslot : f.stackBottom ≤ slot) (hb : s.OpenBelow slot) (he : Entered slot units s s') :
    Stacked s'.upvaluePool.length idx (f :: rest) ∧ Admitting o idx slot (f :: rest) s' ∧
      ∃ rs, rs.length = rest.length + 2 ∧ Acts o rs s' := by
  obtain ⟨rs, hlen, hacts⟩ := h.acts
  have hidx := (h.stacked.bottom_le rfl List.mem_cons_self).1
  refine ⟨h.stacked.mono he.pool, ⟨he.wf, h.pool.trans he.pool, he.bottom, he.closure,
    h.opens.mono he.opens, fun p hp => hb p (he.opens hp), ?_⟩, _, ?_, hacts.entered he⟩
  · refine h.spared.trans (fun p hp => (h.opens p hp).imp_right fun hp' => ?_)
      (he.spared.mono (by omega))
    omega
  · simp [hlen]

/-- A call of a Rust function leaves its results where the callee was; a Lua
    callee is admitted there. -/
theorem wp_execCall (hcall : CallOk call) (h : Live o idx f rest s)
    (hpos : Positioned f inst s) (hv : VerifiedAt f.bytecode pc inst .call) :
    wp (do
      world rt.flushCost
      let args ← callWindow (f.stackBottom + inst.a) inst.callArgs
      if ← callFromLua rt call args inst.callResults then return .leave .call
      else
        match inst.callResults with
        | .fixed _ => resize f.top
        | .all => pure ()
        return .next (pc + 1) : Vm W E Next) (fun n s' => Stepped o idx f rest inst s' n)
      (fun _ s' => Stopped o idx (f :: rest) s') s := by
  obtain ⟨-, hargs, -⟩ := hv.operands
  have htop := h.frameOk.top
  obtain ⟨hfixed, hdynamic⟩ := hpos.callArgs (.inl hv.opcode) htop hargs
  have hle : f.stackBottom ≤ s.stack.length + 1 := by
    rcases hcargs : inst.callArgs with n | _
    · have := (hfixed n hcargs).2
      omega
    · have := hdynamic hcargs
      omega
  rw [wp_bind]
  refine wp_world (fun w => ?_) fun _ => h.stopped hle
  rw [wp_bind]
  refine wp_mono (wp_callWindow (h.wf.congr rfl rfl rfl) hfixed hdynamic) (fun n s₁ h₁ => ?_)
    fun _ s₁ h₁ => ?_
  · obtain ⟨hn, hbelow, stack, rfl, hlen, hagree⟩ := h₁
    have hlive : Live o idx f rest { s with stack := stack, world := w } :=
      h.restack (hagree.mono (Nat.le_add_right _ _)) (State.OpenBelow.mono hbelow (by omega))
    have hbottom : s.stackBottom = f.stackBottom := h.bottom
    simp only [callFromLua, wp_bind]
    rw [wp_callBase (by show s.stackBottom ≤ _; omega) hlen]
    simp only [wp_get]
    refine wp_mono (wp_beginCall hcall hlive.wf hn hlen hbelow (by simp)) (fun r s₂ h₂ => ?_)
      fun _ s₂ h₂ => ?_
    · rcases r with _ | m
      · obtain ⟨units, he⟩ := h₂
        exact ⟨hv.opcode, admitting_of_entered hlive (Nat.le_add_right _ _) hbelow he⟩
      · -- A Rust callee: its results are adjusted in place.
        obtain ⟨hc, hl, hlen₂⟩ := h₂
        have hbelow₂ := hc.openBelow hbelow
        have hlive₂ := hlive.confined (hc.widen (Nat.le_add_right _ _)) hl
          (State.OpenBelow.mono hbelow₂ (by rw [hlen₂]; exact Nat.le_add_right _ _))
        simp only [wp_bind]
        refine wp_mono (wp_finishCall hlive₂.wf hlen₂) (fun _ s₃ h₃ => ?_) fun _ s₃ h₃ => ?_
        · obtain ⟨hc₃, hl₃, hle₃, hfix₃⟩ := h₃
          have hlive₃ := hlive₂.confined (hc₃.widen (Nat.le_add_right _ _)) hl₃
            ((hc₃.openBelow hbelow₂).mono hle₃)
          simp only [wp_pure, Bool.false_eq_true, ↓reduceIte]
          rcases hcres : inst.callResults with k | _
          · have hp : inst.producesOpen = false := by
              simp only [Instr.producesOpen, hv.opcode, beq_eq_false_iff_ne]
              rintro hopen
              simp [Instr.callResults, RetCount.fromOperand, hopen] at hcres
            simp only [resize, wp_bind, wp_modify, wp_pure]
            refine ⟨?_, Lands.atCursor (hv.falls (by simp) hp) (length_resize _ _)⟩
            exact hlive₃.restack (.resize (by omega) (by omega))
              (by rw [length_resize]; exact hlive₃.belowTop)
          · have hp : inst.producesOpen = true := by
              simp only [Instr.producesOpen, hv.opcode, beq_iff_eq]
              by_contra hopen
              rw [Instr.callResults, RetCount.fromOperand, if_neg hopen] at hcres
              split at hcres <;> simp at hcres
            exact ⟨hlive₃, atCursor_of_producer hv hp hle₃⟩
        · subst h₃
          refine hlive₂.stopped ?_
          rw [hlen₂]
          omega
    · obtain ⟨hc, hl, hle₂⟩ := h₂
      exact (hlive.confined (hc.widen (Nat.le_add_right _ _)) hl
        ((hc.openBelow hbelow).mono hle₂)).stopped (by omega)
  · subst h₁
    exact (h.setWorld w).stopped hle

/-! ## Tail calls -/

/-- The caller of a tail call before its callee starts: the callee and its
    arguments took the frame's place, and its record holds no units. -/
structure Vacated (o : State W) (idx : Nat) (f : Frame) (rest : List Frame) (numArgs : Nat)
    (s : State W) : Prop where
  wf : s.Wf
  pool : o.upvaluePool.length ≤ s.upvaluePool.length
  stacked : Stacked s.upvaluePool.length idx (f :: rest)
  acts : ∃ r rs, r.units = 0 ∧ rs.length = rest.length ∧ Acts o (r :: rs) s
  opens : OpensOk o idx (f :: rest) s
  bottom : s.stackBottom = f.stackBottom - 1
  below : s.OpenBelow (f.stackBottom - 1)
  length : s.stack.length = f.stackBottom - 1 + 1 + numArgs
  spared : Spared idx o s

/-- A call that ended in the place of its caller leaves the frame to return. -/
theorem Vacated.stopped {numArgs : Nat} {s' : State W} (h : Vacated o idx f rest numArgs s)
    (hc : Confined (f.stackBottom - 1) (f.stackBottom - 1) s s') (hl : Levels s s')
    (hlen : f.stackBottom - 1 ≤ s'.stack.length) : Stopped o idx (f :: rest) s' where
  wf := hc.wf
  pool := h.pool.trans hc.pool
  stacked := h.stacked.mono hc.pool
  acts := by
    obtain ⟨r, rs, -, hrs, hacts⟩ := h.acts
    exact ⟨r :: rs, by simp [hrs], hacts.confined hc hl⟩
  opens := h.opens.mono fun _ hp => hc.mem_of_mem hp
  below := (hc.openBelow h.below).mono hlen
  reaches g hg := by
    obtain rfl : f = g := by simpa using hg
    omega
  spared := by
    have hidx := (h.stacked.bottom_le rfl List.mem_cons_self).1
    refine h.spared.trans (fun p hp => (h.opens p hp).imp_right fun hp' => ?_)
      (hc.spared.mono (by omega))
    omega

/-- A tail call closes the frame's upvalues and slides the callee and its
    arguments down into the frame's function slot. -/
theorem wp_vacate {X : ErrorKind E → State W → Prop} {numArgs : Nat} (ho : o.OpenBelow idx)
    (h : Live o idx f rest s)
    (hlen : s.stack.length = f.stackBottom + inst.a + 1 + numArgs)
    {m : Nat → Vm W E (Option Nat)} {Q : Option Nat → State W → Prop}
    (hm : ∀ s', Vacated o idx f rest numArgs s' → wp (m (f.stackBottom - 1)) Q X s') :
    wp (do
      let callee ← callBase numArgs
      let s ← get
      let callerBottom := s.stackBottom
      let destination ← sub callerBottom 1
      closeUpvalues callerBottom
      drain destination callee
      let s ← get
      let caller ← demand s.callStack.head?
      modify fun s => { s with callStack := { caller with units := 0 } :: s.callStack.tail }
      releaseChainCharges caller.units
      setBottom destination
      m destination) Q X s := by
  obtain ⟨rs, hrs, hacts⟩ := h.acts
  obtain ⟨r, rs, rfl⟩ : ∃ r rs', rs = r :: rs' := by
    cases rs with
    | nil => simp at hrs
    | cons r rs => exact ⟨r, rs, rfl⟩
  have hbottom := h.bottom
  have hone := h.frameOk.bottom
  simp only [wp_bind]
  rw [wp_callBase (by omega) hlen]
  simp only [wp_get, hbottom]
  rw [wp_sub hone]
  refine wp_mono_ok (wp_closeUpvalues h.wf h.below) fun _ s₁ h₁ => ?_
  have hconf : Confined idx idx s s₁ := h₁.confined
  have hidx := (h.stacked.bottom_le rfl List.mem_cons_self).1
  have hacts₁ := hacts.confined hconf h₁.levels
  rw [wp_drain (by omega) (by rw [h₁.stack]; omega)]
  simp only [hacts₁.callStack, List.cons_append, List.head?_cons, wp_demand_some, wp_modify,
    List.tail_cons]
  have hmeta := hacts₁.metamethod
  simp only [List.map_cons, List.sum_cons] at hmeta
  rw [wp_releaseChainCharges (by show r.units ≤ s₁.metamethodDepth; omega)]
  simp only [setBottom, wp_modify]
  refine hm _ ⟨h₁.wf.congr rfl rfl rfl, h.pool.trans hconf.pool, h.stacked.mono hconf.pool,
    ⟨{ r with units := 0 }, rs, rfl, by simpa using hrs, rfl, hacts₁.starts, ?_,
      hacts₁.callDepth, hacts₁.native⟩, h.opens.mono h₁.opens, rfl, fun p hp => ?_, ?_, ?_⟩
  · show s₁.metamethodDepth - r.units = _
    simp only [List.map_cons, List.sum_cons]
    omega
  · have := h₁.below p hp
    have := h.opens.ne_slot ho h.stacked List.mem_cons_self (h₁.opens hp)
    omega
  · simp only [List.length_append, List.length_take, List.length_drop, h₁.stack]
    omega
  · refine h.spared.agree ?_
    simp only [h₁.stack]
    exact .splice (by omega) (by omega) _

/-- A tail call of a Rust function returns its results from the frame; a Lua
    callee is admitted in the frame's place. -/
theorem wp_execTailCall (hcall : CallOk call) (ho : o.OpenBelow idx)
    (h : Live o idx f rest s) (hpos : Positioned f inst s)
    (hv : VerifiedAt f.bytecode pc inst .tailCall) :
    wp (do
      match ← tailCallFromLua rt call inst (f.stackBottom + inst.a) with
      | some count =>
        let first ← sub f.stackBottom 1
        return .leave (.ret first count)
      | none => return .leave .tailCall : Vm W E Next)
      (fun n s' => Stepped o idx f rest inst s' n)
      (fun _ s' => Stopped o idx (f :: rest) s') s := by
  obtain ⟨-, hargs⟩ := hv.operands
  have htop := h.frameOk.top
  obtain ⟨hfixed, hdynamic⟩ := hpos.callArgs (.inr hv.opcode) htop hargs
  have hle : f.stackBottom ≤ s.stack.length + 1 := by
    rcases hcargs : inst.callArgs with n | _
    · have := (hfixed n hcargs).2
      omega
    · have := hdynamic hcargs
      omega
  rw [wp_bind, tailCallFromLua, wp_bind]
  refine wp_world (fun w => ?_) fun _ => h.stopped hle
  rw [wp_bind]
  refine wp_mono (wp_callWindow (h.wf.congr rfl rfl rfl) hfixed hdynamic) (fun n s₁ h₁ => ?_)
    fun _ s₁ h₁ => ?_
  · obtain ⟨hn, hbelow, stack, rfl, hlen, hagree⟩ := h₁
    have hlive : Live o idx f rest { s with stack := stack, world := w } :=
      h.restack (hagree.mono (Nat.le_add_right _ _)) (State.OpenBelow.mono hbelow (by omega))
    refine wp_vacate ho hlive hlen fun s₂ h₂ => ?_
    obtain ⟨r, rs, hr, hrs, hacts⟩ := h₂.acts
    have hdepth : 1 ≤ s₂.callDepth := by
      rw [hacts.callDepth]
      simp only [List.length_cons]
      omega
    rw [← h₂.bottom]
    refine wp_mono (wp_beginCall hcall h₂.wf hn (h₂.bottom ▸ h₂.length) (h₂.bottom ▸ h₂.below)
      fun _ => hdepth) (fun c s₃ h₃ => ?_) fun _ s₃ h₃ => ?_
    · rw [h₂.bottom] at h₃
      rcases c with _ | c
      · obtain ⟨units, he⟩ := h₃
        have hidx := (h₂.stacked.bottom_le rfl List.mem_cons_self).1
        refine ⟨h₂.stacked.mono he.pool, ⟨he.wf, h₂.pool.trans he.pool, he.bottom, he.closure,
          h₂.opens.tail.mono he.opens, fun p hp => h₂.below p (he.opens hp), ?_⟩, _, r, rs, hrs, hr,
          hacts.entered he⟩
        refine h₂.spared.trans (fun p hp => (h₂.opens p hp).imp_right fun hp' => ?_)
          (he.spared.mono (by omega))
        omega
      · obtain ⟨hc, hl, hlen₃⟩ := h₃
        simp only [wp_bind]
        rw [wp_sub h.frameOk.bottom]
        exact ⟨h₂.stopped hc hl (by omega), le_refl _, hlen₃.ge⟩
    · rw [h₂.bottom] at h₃
      exact h₂.stopped h₃.1 h₃.2.1 h₃.2.2
  · subst h₁
    exact (h.setWorld w).stopped hle

/-! ## Returns -/

/-- The results of a return lie in the stack. -/
theorem wp_execRet (h : Live o idx f rest s) (hpos : Positioned f inst s)
    (hv : VerifiedAt f.bytecode pc inst .ret) :
    wp (do
      world rt.flushCost
      match inst.returnCount with
      | .fixed n => return .leave (.ret (f.stackBottom + inst.a) n)
      | .all =>
        let s ← get
        let count ← sub s.stack.length (f.stackBottom + inst.a)
        return .leave (.ret (f.stackBottom + inst.a) count) : Vm W E Next)
      (fun n s' => Stepped o idx f rest inst s' n)
      (fun _ s' => Stopped o idx (f :: rest) s') s := by
  have htop := h.frameOk.top
  have hcons : inst.consumesOpen = (inst.b == OPEN_COUNT) := by simp [Instr.consumesOpen, hv.opcode]
  have hwindow : inst.windowStart = inst.a := by simp [Instr.windowStart, hv.opcode]
  rw [Positioned, hcons, hwindow] at hpos
  rw [wp_bind, Instr.returnCount, RetCount.fromOperand]
  rcases hv.operands with ⟨hb, ha⟩ | ⟨hb, hlim, hle⟩
  · rw [if_pos (by simpa using hb)] at hpos
    refine wp_world (fun w => ?_) fun _ => h.stopped (by omega)
    simp only [if_pos hb, wp_bind, wp_get]
    rw [wp_sub hpos]
    refine ⟨(h.setWorld w).stopped (by show _ ≤ s.stack.length + 1; omega), by omega, ?_⟩
    show _ ≤ s.stack.length
    omega
  · rw [if_neg (by simpa using hb)] at hpos
    refine wp_world (fun w => ?_) fun _ => h.stopped (by omega)
    simp only [if_neg hb, if_neg (show ¬inst.b > 255 by omega)]
    refine ⟨(h.setWorld w).stopped (by show _ ≤ s.stack.length + 1; omega), by omega, ?_⟩
    show _ ≤ s.stack.length
    omega

/-! ## Every instruction -/

/-- An instruction of verified code, at its cursor, never faults. -/
theorem wp_execInstr {op : Opcode} (hcall : CallOk call) (ho : o.OpenBelow idx)
    (h : Live o idx f rest s) (hpos : Positioned f inst s)
    (hv : VerifiedAt f.bytecode pc inst op) :
    wp (execInstr rt call f inst (pc + 1)) (fun n s' => Stepped o idx f rest inst s' n)
      (fun _ s' => Stopped o idx (f :: rest) s') s := by
  have hle : f.stackBottom ≤ s.stack.length + 1 := by
    have := h.frameOk.top
    rw [Positioned] at hpos
    split at hpos <;> omega
  have hlive : ∀ w, Live o idx f rest { s with world := w } := h.setWorld
  -- The instructions that leave the frame, leave open results or read them.
  by_cases hquiet : inst.producesOpen = false ∧ inst.consumesOpen = false ∧
      op ≠ .call ∧ op ≠ .ret ∧ op ≠ .tailCall
  · obtain ⟨hprod, hcons, hop⟩ := hquiet
    have hlen : s.stack.length = f.top := by simpa [Positioned, hcons] using hpos
    refine wp_mono (within_execInstr hcall h.frameOk hv hprod hcons hop s (h.room hlen))
      (fun n s' h' => ?_) fun _ s' h' => h.faulted h'
    obtain ⟨ht, ip, rfl, hlands⟩ := h'
    have hlen' : s'.stack.length = f.top := ht.length.trans hlen
    refine ⟨h.confined ht.confined ht.levels ?_, hlands.atCursor hlen'⟩
    rw [hlen']
    exact ht.confined.openBelow_top h.belowTop
  · rw [execInstr, wp_bind, wp_demand hv.opcode, wp_bind]
    refine wp_world (fun w => ?_) fun _ => h.stopped hle
    cases op with
    | call => exact wp_execCall hcall (hlive w) hpos hv
    | ret => exact wp_execRet (hlive w) hpos hv
    | tailCall => exact wp_execTailCall hcall ho (hlive w) hpos hv
    | vararg =>
      have hb : inst.b = OPEN_COUNT := by
        simpa [Instr.producesOpen, Instr.consumesOpen, hv.opcode] using hquiet
      have hlen : s.stack.length = f.top := by
        simpa [Positioned, Instr.consumesOpen, hv.opcode] using hpos
      exact wp_vararg_open (hlive w) hlen hv hb
    | setList =>
      have hb : inst.b = OPEN_COUNT := by
        simpa [Instr.producesOpen, Instr.consumesOpen, hv.opcode] using hquiet
      have hlen : f.stackBottom + inst.a + 1 ≤ s.stack.length := by
        simpa [Positioned, Instr.consumesOpen, Instr.windowStart, hv.opcode, hb,
          Nat.add_assoc] using hpos
      exact wp_setList_open (hlive w) hlen hv hb
    | _ => simp [Instr.producesOpen, Instr.consumesOpen, hv.opcode] at hquiet

end Open

end Machine

end Dellingr
