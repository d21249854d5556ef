import Dellingr.Compiler.Verified
import Dellingr.Vm.Dispatch

/-!
# The invariant of execution

What holds of the machine whenever an instruction, a Rust function or a call
starts and ends, stated so that it composes along a run:

* `State.Wf`: the open upvalues are sorted, they are exactly the open entries of
  the pool, and every Lua function is a closure over a verified tree with the
  declared number of captures;
* `Confined`: what an operation leaves alone outside the slots it works in, up
  to the levels (`Levels`) and the length of the stack (`Tame`);
* `wp_readSlot`, `wp_writeSlot` and so on: the primitive operations;
* `keeps_bind`: operations that leave a frame alone compose.
-/

namespace Dellingr

open Effect

variable {W E α β : Type}

/-- A closure over a verified tree, with the declared number of captures and a
    value for every string literal. -/
structure Closure.Ok (c : Closure) (pool : Nat) : Prop where
  admitted : Admitted c.bytecode
  literals : c.literals.length = c.bytecode.stringLiterals.length
  captures : c.upvalues.length = c.bytecode.upvalues.length
  refs : ∀ r ∈ c.upvalues, r < pool

theorem Closure.Ok.mono {c : Closure} {pool pool' : Nat} (h : c.Ok pool) (hp : pool ≤ pool') :
    c.Ok pool' :=
  ⟨h.admitted, h.literals, h.captures, fun r hr => (h.refs r hr).trans_le hp⟩

namespace State

/-- The well-formed states: the open upvalues are sorted and are the open
    entries of the pool, and every Lua function is admitted. -/
structure Wf (s : State W) : Prop where
  sorted : s.openUpvalues.Pairwise fun p q => q.1 < p.1
  open_iff : ∀ i r, (i, r) ∈ s.openUpvalues ↔ s.upvaluePool[r]? = some (.open i)
  closures : ∀ p c, s.luaFunctions p = some c → c.Ok s.upvaluePool.length

/-- No open upvalue points at or above a slot. -/
def OpenBelow (s : State W) (n : Nat) : Prop := ∀ p ∈ s.openUpvalues, p.1 < n

theorem OpenBelow.mono {s : State W} {n n' : Nat} (h : s.OpenBelow n) (hn : n ≤ n') :
    s.OpenBelow n' :=
  fun p hp => (h p hp).trans_le hn

end State

/-! ## Slots -/

/-- Two stacks agree below a slot. -/
def AgreeBelow (n : Nat) (stack stack' : List Val) : Prop := ∀ i < n, stack'[i]? = stack[i]?

namespace AgreeBelow

variable {n : Nat} {stack stack' stack'' : List Val}

theorem refl (n : Nat) (stack : List Val) : AgreeBelow n stack stack := fun _ _ => rfl

theorem trans (h : AgreeBelow n stack stack') (h' : AgreeBelow n stack' stack'') :
    AgreeBelow n stack stack'' :=
  fun i hi => (h' i hi).trans (h i hi)

theorem mono {m : Nat} (h : AgreeBelow n stack stack') (hm : m ≤ n) : AgreeBelow m stack stack' :=
  fun i hi => h i (hi.trans_le hm)

theorem set {i : Nat} (hi : n ≤ i) (v : Val) : AgreeBelow n stack (stack.set i v) :=
  fun _ hj => List.getElem?_set_ne (by omega)

theorem take {k : Nat} (hk : n ≤ k) : AgreeBelow n stack (stack.take k) :=
  fun _ hi => List.getElem?_take_of_lt (by omega)

/-- The slots from `k` on are replaced. -/
theorem splice {k : Nat} (hk : n ≤ k) (hlen : k ≤ stack.length) (vs : List Val) :
    AgreeBelow n stack (stack.take k ++ vs) := by
  intro i hi
  rw [List.getElem?_append_left (by rw [List.length_take]; omega),
    List.getElem?_take_of_lt (by omega)]

theorem append (hlen : n ≤ stack.length) (vs : List Val) : AgreeBelow n stack (stack ++ vs) :=
  fun _ hi => List.getElem?_append_left (by omega)

theorem dropLast (hlen : n < stack.length) : AgreeBelow n stack stack.dropLast := by
  rw [List.dropLast_eq_take]
  exact take (by omega)

/-- Moving the top keeps the slots below both tops. -/
theorem resize {len : Nat} (hn : n ≤ len) (hlen : n ≤ stack.length) :
    AgreeBelow n stack (stack.take len ++ List.replicate (len - stack.length) .nil) := by
  intro i hi
  rw [List.getElem?_append_left (by rw [List.length_take]; omega),
    List.getElem?_take_of_lt (by omega)]

end AgreeBelow

/-- The slots below `n` that no open upvalue points at are as they were. -/
def Spared (n : Nat) (s s' : State W) : Prop :=
  ∀ i < n, (∀ p ∈ s.openUpvalues, p.1 ≠ i) → s'.stack[i]? = s.stack[i]?

namespace Spared

variable {n : Nat} {s s' s'' : State W}

theorem refl (n : Nat) (s : State W) : Spared n s s := fun _ _ _ => rfl

theorem mono {m : Nat} (h : Spared n s s') (hm : m ≤ n) : Spared m s s' :=
  fun i hi ho => h i (hi.trans_le hm) ho

/-- Slots are spared one operation after another where the first opens no upvalue below
    them. -/
theorem trans (h : Spared n s s') (ho : ∀ p ∈ s'.openUpvalues, p ∈ s.openUpvalues ∨ n ≤ p.1)
    (h' : Spared n s' s'') : Spared n s s'' := by
  intro i hi hopen
  refine (h' i hi fun p hp => ?_).trans (h i hi hopen)
  rcases ho p hp with hp | hp
  · exact hopen p hp
  · omega

/-- What follows only changes slots at or above the bound. -/
theorem agree (h : Spared n s s') (ha : AgreeBelow n s'.stack s''.stack) : Spared n s s'' :=
  fun i hi ho => (ha i hi).trans (h i hi ho)

/-- What came before only changed slots at or above the bound. -/
theorem of_agree (h : Spared n s' s'') (ho : s'.openUpvalues = s.openUpvalues)
    (ha : AgreeBelow n s.stack s'.stack) : Spared n s s'' :=
  fun i hi hopen => (h i hi (ho ▸ hopen)).trans (ha i hi)

end Spared

/-- Where two stacks agree, every slot is spared. -/
theorem AgreeBelow.spared {n : Nat} {s s' : State W} (h : AgreeBelow n s.stack s'.stack) :
    Spared n s s' :=
  (Spared.refl n s).agree h

/-! ## Frames -/

/-- What an operation leaves alone when it works in the slots from `lo` up to
    `hi` and above the frames: the bottom of the running frame, the records of
    the active calls, the open upvalues, of which it may add some in its slots
    and close some, and the slots below `lo`, of which it may only write those
    that an open upvalue points at. -/
structure Confined (lo hi : Nat) (s s' : State W) : Prop where
  wf : s'.Wf
  bottom : s'.stackBottom = s.stackBottom
  callStack : s'.callStack = s.callStack
  varargs : s'.varargStack.length = s.varargStack.length
  callDepth : s'.callDepth = s.callDepth
  pool : s.upvaluePool.length ≤ s'.upvaluePool.length
  opens : ∀ p ∈ s'.openUpvalues, p ∈ s.openUpvalues ∨ lo ≤ p.1 ∧ p.1 < hi
  spared : Spared lo s s'

/-- The native depth and the metamethod depth are the same. -/
structure Levels (s s' : State W) : Prop where
  native : s'.nativeCallDepth = s.nativeCallDepth
  metamethod : s'.metamethodDepth = s.metamethodDepth

/-- An operation within a frame: it leaves everything else alone, and the stack
    as long as it was. -/
structure Tame (lo hi : Nat) (s s' : State W) : Prop where
  confined : Confined lo hi s s'
  levels : Levels s s'
  length : s'.stack.length = s.stack.length

section Compose

variable {n lo hi : Nat} {s s' s'' : State W}

theorem Confined.refl (h : s.Wf) : Confined lo hi s s :=
  ⟨h, rfl, rfl, rfl, rfl, le_refl _, fun _ hp => .inl hp, .refl lo s⟩

theorem Confined.trans (h : Confined lo hi s s') (h' : Confined lo hi s' s'') :
    Confined lo hi s s'' where
  wf := h'.wf
  bottom := h'.bottom.trans h.bottom
  callStack := h'.callStack.trans h.callStack
  varargs := h'.varargs.trans h.varargs
  callDepth := h'.callDepth.trans h.callDepth
  pool := h.pool.trans h'.pool
  opens p hp := (h'.opens p hp).elim (h.opens p) .inr
  spared := h.spared.trans (fun p hp => (h.opens p hp).imp_right And.left) h'.spared

/-- The open upvalues that an operation opening none leaves were there. -/
theorem Confined.mem_of_mem (h : Confined n n s s') {p : Nat × Nat} (hp : p ∈ s'.openUpvalues) :
    p ∈ s.openUpvalues :=
  (h.opens p hp).resolve_right fun hp => absurd hp.2 hp.1.not_gt

/-- An operation that opens no upvalue is confined to any slots it works in. -/
theorem Confined.widen (h : Confined n n s s') (hn : lo ≤ n) : Confined lo hi s s' :=
  { h with opens := fun _ hp => .inl (h.mem_of_mem hp), spared := h.spared.mono hn }

theorem Confined.openBelow (h : Confined n n s s') {m : Nat} (hs : s.OpenBelow m) :
    s'.OpenBelow m :=
  fun p hp => hs p (h.mem_of_mem hp)

/-- The slots from `lo` on do not matter to what is confined. -/
theorem Confined.withStack {o : State W} (h : Confined lo hi o s) {stack : List Val}
    (hs : AgreeBelow lo s.stack stack) : Confined lo hi o { s with stack := stack } :=
  ⟨⟨h.wf.sorted, h.wf.open_iff, h.wf.closures⟩, h.bottom, h.callStack, h.varargs, h.callDepth,
    h.pool, h.opens, h.spared.agree hs⟩

theorem Confined.ofStack {stack : List Val} (h : Confined lo hi { s with stack := stack } s')
    (hs : AgreeBelow lo s.stack stack) : Confined lo hi s s' :=
  ⟨h.wf, h.bottom, h.callStack, h.varargs, h.callDepth, h.pool, h.opens,
    h.spared.of_agree rfl hs⟩

theorem Levels.refl (s : State W) : Levels s s := ⟨rfl, rfl⟩

theorem Levels.trans (h : Levels s s') (h' : Levels s' s'') : Levels s s'' :=
  ⟨h'.native.trans h.native, h'.metamethod.trans h.metamethod⟩

theorem Tame.refl (h : s.Wf) : Tame lo hi s s := ⟨.refl h, .refl s, rfl⟩

theorem Tame.trans (h : Tame lo hi s s') (h' : Tame lo hi s' s'') : Tame lo hi s s'' :=
  ⟨h.confined.trans h'.confined, h.levels.trans h'.levels, h'.length.trans h.length⟩

theorem Tame.widen (h : Tame n n s s') (hn : lo ≤ n) : Tame lo hi s s' :=
  ⟨h.confined.widen hn, h.levels, h.length⟩

end Compose

/-- A computation keeps to a frame, whatever it gives and wherever it fails. -/
def Keeps (lo hi : Nat) (m : Vm W E α) (s : State W) : Prop :=
  wp m (fun _ => Tame lo hi s) (fun _ => Tame lo hi s) s

section Keeps

variable {lo hi : Nat} {s : State W}

theorem keeps_pure (h : s.Wf) (a : α) : Keeps lo hi (Pure.pure a : Vm W E α) s := .refl h

theorem keeps_bind {m : Vm W E α} {f : α → Vm W E β} (hm : Keeps lo hi m s)
    (hf : ∀ a s', Tame lo hi s s' → Keeps lo hi (f a) s') : Keeps lo hi (m >>= f) s := by
  rw [Keeps, wp_bind]
  refine wp_mono hm (fun a s' h => ?_) fun _ _ h => h
  exact wp_mono (hf a s' h) (fun _ _ h' => h.trans h') fun _ _ h' => h.trans h'

/-- A computation with a stronger outcome, followed by one that keeps to the
    frame. -/
theorem keeps_bind_of_wp {m : Vm W E α} {f : α → Vm W E β} {P : α → State W → Prop}
    (hm : wp m (fun a s' => Tame lo hi s s' ∧ P a s') (fun _ => Tame lo hi s) s)
    (hf : ∀ a s', Tame lo hi s s' → P a s' → Keeps lo hi (f a) s') :
    Keeps lo hi (m >>= f) s := by
  rw [Keeps, wp_bind]
  refine wp_mono hm (fun a s' h => ?_) fun _ _ h => h
  exact wp_mono (hf a s' h.1 h.2) (fun _ _ h' => h.1.trans h') fun _ _ h' => h.1.trans h'

end Keeps

/-! ## Primitive operations -/

namespace Machine

variable {Q : α → State W → Prop} {X : ErrorKind E → State W → Prop} {s : State W}

theorem wp_sub {a b : Nat} {Q : Nat → State W → Prop} (h : b ≤ a) :
    wp (sub a b) Q X = Q (a - b) := by
  rw [sub, checkedSub_of_le h, wp_demand_some]

theorem wp_readSlot {i : Nat} {Q : Val → State W → Prop} (h : i < s.stack.length) :
    wp (readSlot i) Q X s = Q s.stack[i] s := by
  simp only [readSlot, wp_bind, wp_get, wp_demand (List.getElem?_eq_getElem h)]

theorem wp_writeSlot {i : Nat} {v : Val} {Q : Unit → State W → Prop} (h : i < s.stack.length) :
    wp (writeSlot i v) Q X s = Q () { s with stack := s.stack.set i v } := by
  simp only [writeSlot, wp_bind, wp_get, wp_require h, wp_modify]

theorem wp_readSlots {first count : Nat} {Q : List Val → State W → Prop}
    (h : first + count ≤ s.stack.length) :
    wp (readSlots first count) Q X s = Q ((s.stack.drop first).take count) s := by
  simp only [readSlots, wp_bind, wp_get, wp_require h, wp_pure]

theorem wp_writeSlots {first : Nat} {vs : List Val} {Q : Unit → State W → Prop}
    (h : first + vs.length ≤ s.stack.length) :
    wp (writeSlots first vs) Q X s = Q () { s with
      stack := s.stack.take first ++ vs ++ s.stack.drop (first + vs.length) } := by
  simp only [writeSlots, wp_bind, wp_get, wp_require h, wp_modify]

theorem wp_drain {first last : Nat} {Q : Unit → State W → Prop} (h : first ≤ last)
    (h' : last ≤ s.stack.length) :
    wp (drain first last) Q X s =
      Q () { s with stack := s.stack.take first ++ s.stack.drop last } := by
  simp only [drain, wp_bind, wp_get, wp_require (And.intro h h'), wp_modify]

theorem wp_insertSlot {i : Nat} {v : Val} {Q : Unit → State W → Prop} (h : i ≤ s.stack.length) :
    wp (insertSlot i v) Q X s =
      Q () { s with stack := s.stack.take i ++ v :: s.stack.drop i } := by
  simp only [insertSlot, wp_bind, wp_get, wp_require h, wp_modify]

theorem wp_world {f : W → Except E W} {Q : Unit → State W → Prop}
    (hok : ∀ w, Q () { s with world := w }) (herr : ∀ e, X (.runtime e) s) :
    wp (world f) Q X s := by
  simp only [world, wp_bind, wp_get]
  split
  · exact hok _
  · exact herr _

theorem wp_ask {f : W → Except E (α × W)} (hok : ∀ a w, Q a { s with world := w })
    (herr : ∀ e, X (.runtime e) s) : wp (ask f) Q X s := by
  simp only [ask, wp_bind, wp_get]
  split
  · exact hok _ _
  · exact herr _

theorem wp_tell {f : W → α × W} (hok : ∀ a w, Q a { s with world := w }) :
    wp (tell f) Q X s := by
  simp only [tell, wp_bind, wp_get, wp_modify, wp_pure]
  exact hok _ _

theorem wp_checkStackSpace {n : Nat} {Q : Unit → State W → Prop} (hok : Q () s)
    (herr : ∀ e, X e s) : wp (checkStackSpace n) Q X s := by
  simp only [checkStackSpace, wp_bind, wp_get]
  exact wp_ite (fun _ => herr _) fun _ => hok

/-- The top of the stack is the number of slots from the frame bottom on. -/
theorem wp_getTop {Q : Nat → State W → Prop} (h : s.stackBottom ≤ s.stack.length) :
    wp getTop Q X s = Q (s.stack.length - s.stackBottom) s := by
  simp only [getTop, wp_bind, wp_get, wp_sub h]

section Runs

variable {s' : State W}

theorem run_world_eq_ok {f : W → Except E W} {u : Unit} :
    world f s = .ok u s' ↔ ∃ w, f s.world = .ok w ∧ s' = { s with world := w } := by
  simp only [world, run_get_bind]
  cases f s.world with
  | ok w => simp [Effect.modify, eq_comm]
  | error e => simp [raise, Effect.fail]

theorem run_readSlot_eq_ok {i : Nat} {v : Val} :
    (readSlot i : Vm W E Val) s = .ok v s' ↔ s.stack[i]? = some v ∧ s = s' := by
  simp only [readSlot, run_get_bind, run_demand_eq_ok]

end Runs

/-! ## Operations within a frame -/

section Quiet

variable {lo hi : Nat}

/-- Only the world and the values of slots that are not spared change. -/
theorem tame_of_spared (h : s.Wf) {stack : List Val} {w : W}
    (hs : Spared lo s { s with stack := stack, world := w })
    (hl : stack.length = s.stack.length) : Tame lo hi s { s with stack := stack, world := w } :=
  ⟨⟨⟨h.sorted, h.open_iff, h.closures⟩, rfl, rfl, rfl, rfl, le_refl _, fun _ hp => .inl hp, hs⟩,
    ⟨rfl, rfl⟩, hl⟩

/-- Only the world and the values from `lo` on change. -/
theorem tame_of_stack (h : s.Wf) {stack : List Val} {w : W} (hs : AgreeBelow lo s.stack stack)
    (hl : stack.length = s.stack.length) : Tame lo hi s { s with stack := stack, world := w } :=
  tame_of_spared h hs.spared hl

theorem keeps_fail (h : s.Wf) (e : ErrorKind E) : Keeps lo hi (fail e : Vm W E α) s := .refl h

theorem keeps_demand (h : s.Wf) {o : Option α} {a : α} (ho : o = some a) :
    Keeps lo hi (demand o : Vm W E α) s := by
  rw [Keeps, wp_demand ho]
  exact .refl h

theorem keeps_get (h : s.Wf) : Keeps lo hi (get : Vm W E (State W)) s := .refl h

theorem keeps_world (h : s.Wf) (f : W → Except E W) : Keeps lo hi (world f) s :=
  wp_world (fun _ => tame_of_stack h (.refl lo _) rfl) fun _ => .refl h

theorem keeps_ask (h : s.Wf) (f : W → Except E (α × W)) : Keeps lo hi (ask f) s :=
  wp_ask (fun _ _ => tame_of_stack h (.refl lo _) rfl) fun _ => .refl h

theorem keeps_tell (h : s.Wf) (f : W → α × W) : Keeps lo hi (tell f : Vm W E α) s :=
  wp_tell fun _ _ => tame_of_stack h (.refl lo _) rfl

theorem keeps_readSlot (h : s.Wf) {i : Nat} (hlt : i < s.stack.length) :
    Keeps lo hi (readSlot i : Vm W E Val) s := by
  rw [Keeps, wp_readSlot hlt]
  exact .refl h

theorem keeps_writeSlot (h : s.Wf) {i : Nat} (v : Val) (hlo : lo ≤ i) (hlt : i < s.stack.length) :
    Keeps lo hi (writeSlot i v : Vm W E Unit) s := by
  rw [Keeps, wp_writeSlot hlt]
  exact tame_of_stack h (.set hlo v) (by simp)

/-- A slot that an open upvalue points at may be written from above. -/
theorem keeps_writeSlot_open (h : s.Wf) {p : Nat × Nat} (hp : p ∈ s.openUpvalues) (v : Val)
    (hlt : p.1 < s.stack.length) : Keeps lo hi (writeSlot p.1 v : Vm W E Unit) s := by
  rw [Keeps, wp_writeSlot hlt]
  refine tame_of_spared h (fun i _ ho => ?_) (by simp)
  exact List.getElem?_set_ne (ho p hp)

theorem keeps_readSlots (h : s.Wf) {first count : Nat} (hle : first + count ≤ s.stack.length) :
    Keeps lo hi (readSlots first count : Vm W E (List Val)) s := by
  rw [Keeps, wp_readSlots hle]
  exact .refl h

theorem keeps_writeSlots (h : s.Wf) {first : Nat} {vs : List Val} (hlo : lo ≤ first)
    (hle : first + vs.length ≤ s.stack.length) :
    Keeps lo hi (writeSlots first vs : Vm W E Unit) s := by
  rw [Keeps, wp_writeSlots hle]
  refine tame_of_stack h ?_ (by simp; omega)
  rw [List.append_assoc]
  exact .splice hlo (by omega) _

theorem keeps_checkStackSpace (h : s.Wf) (n : Nat) :
    Keeps lo hi (checkStackSpace n : Vm W E Unit) s :=
  wp_checkStackSpace (.refl h) fun _ => .refl h

end Quiet

end Machine

end Dellingr
