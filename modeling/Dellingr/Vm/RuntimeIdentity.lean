import Dellingr.Lib.Effect
import Dellingr.Vm.Collection

/-!
# The runtime of a bytecode

A state keeps one runtime for each bytecode it runs, and the collector roots the literals
of the runtimes in its cache, not those of closures. So a closure or a frame must run on the
runtime that the cache has for its bytecode, for as long as it lives. Here this is proved
of every run (`Memory.Runs`):

* loading a program and making a closure resolve the runtime of a bytecode
  (`resolveBytecodeRuntime`) and then allocate the closure (`allocClosure`). Any of their
  allocations may collect; while the closure is allocated, its bytecode is pending;
* a call takes the runtime of the closure in its function slot, a tail call replaces the
  frame of its caller, and a return drops the frame;
* a collection may run at any time;
* everything else, `Memory.Mutates`, may change the tables, the roots, the captured
  variables and the cells of the lookup caches in any way.

An address identifies a bytecode among those that are held at one time. It may be used again
once its bytecode is dropped; that a program which is loaded has addresses of its own
is the only assumption (`Memory.Fits`).
-/

namespace Dellingr

/-- Why a closure or a call is refused. -/
inductive Refusal
  | stackOverflow
  | stringTooLong
  | callDepthExceeded

/-- What a runtime is, apart from the cells of its lookup caches. -/
def BytecodeRuntime.fixed (rt : BytecodeRuntime) : List Val × Bool :=
  (rt.literals, rt.caches.reached)

namespace Memory

/-- A computation on the memory of a state. -/
abbrev Alloc := Effect Memory Refusal

open Effect

/-! ## Loads and closures -/

/-- Refuse what is over a limit. -/
def refuse (p : Prop) [Decidable p] (e : Refusal) : Alloc Unit := if p then fail e else pure ()

/-- Collect if the next allocation reaches the threshold. -/
def maybeCollect : Alloc Unit := do
  let mem ← get
  if mem.heap.isFull then
    let mem' ← demand mem.collectGarbage
    modify fun _ => mem'

/-- Intern a string. -/
def allocString (bytes : List UInt8) : Alloc Val := do
  refuse (MAX_STRING_BYTES < bytes.length) .stringTooLong
  maybeCollect
  let (p, heap) := (← get).heap.allocString bytes
  modify fun mem => { mem with heap := heap }
  pure (.str p)

/-- Intern a literal, and root it until its runtime is cached. -/
def allocLiteral (bytes : List UInt8) : Alloc Val := do
  let v ← allocString bytes
  modify fun mem => { mem with rootedValues := mem.rootedValues ++ [v] }
  pure v

/-- Cache a new runtime. -/
def installRuntime (c : Chunk) (literals : List Val) (mem : Memory) : Memory :=
  { mem with
    runtimes := mem.runtimes ++ [⟨literals, .new c⟩]
    bytecodeCaches := mem.bytecodeCaches.insert c.identity ⟨c, mem.runtimes.length⟩ }

/-- Make the runtime of a bytecode that is not cached. -/
def makeRuntime (c : Chunk) : Alloc RuntimeId := do
  refuse (∃ l ∈ c.stringLiterals, MAX_STRING_BYTES < l.length) .stringTooLong
  let watermark := (← get).rootedValues.length
  let result ← attempt do
    let literals ← c.stringLiterals.mapM allocLiteral
    let id := (← get).runtimes.length
    modify (installRuntime c literals)
    pure id
  modify fun mem => { mem with rootedValues := mem.rootedValues.take watermark }
  liftExcept result

/-- The runtime of a bytecode: the cached one, or a new one. -/
def resolveBytecodeRuntime (c : Chunk) : Alloc RuntimeId := do
  match (← get).bytecodeCaches.get (· == c.identity) with
  | some entry => pure entry.runtime
  | none => makeRuntime c

/-- Allocate a closure on the runtime of its bytecode. Its bytecode is pending meanwhile. -/
def allocClosure (c : Chunk) (runtime : RuntimeId) (upvalues : List UInt32) : Alloc ObjectPtr := do
  modify fun mem => { mem with pendingBytecodeCaches := mem.pendingBytecodeCaches ++ [c.identity] }
  maybeCollect
  let (p, heap) := (← get).heap.allocLuaFn c runtime upvalues
  modify fun mem => { mem with heap := heap }
  modify fun mem => { mem with pendingBytecodeCaches := mem.pendingBytecodeCaches.dropLast }
  pure p

/-- Push a closure of a bytecode. -/
def pushClosure (c : Chunk) (upvalues : List UInt32) : Alloc Unit := do
  refuse (MAX_STACK_SIZE < (← get).stack.length + 1) .stackOverflow
  let runtime ← resolveBytecodeRuntime c
  let p ← allocClosure c runtime upvalues
  modify fun mem => { mem with stack := mem.stack ++ [.obj p] }

/-- Load a program: push a closure of its main function. -/
def pushChunk (c : Chunk) : Alloc Unit := pushClosure c []

/-- The open upvalue of a stack slot, opened if it is not. -/
def findOrCreateUpvalue (index : Nat) : Alloc UInt32 := do
  let mem ← get
  match mem.openUpvalues.find? fun e => e.1 = index with
  | some e => pure e.2
  | none =>
    let (r, pool) ← demand (mem.upvaluePool.alloc (.open index))
    modify fun mem => { mem with
      upvaluePool := pool
      openUpvalues := mem.openUpvalues.takeWhile (fun e => e.1 < index) ++ (index, r) ::
        mem.openUpvalues.dropWhile fun e => e.1 < index }
    pure r

/-- Capture a variable for a closure the frame makes. -/
def captureUpvalue (frame : ActiveFrame) : UpvalueDesc → Alloc UInt32
  | .local slot => findOrCreateUpvalue (frame.stackBottom + slot)
  | .upvalue slot => demand frame.upvalues[slot]?

/-- Make a closure of a nested function of the running frame, and store it. -/
def regClosure (dst nested : Nat) : Alloc Unit := do
  let frame ← demand (← get).frames.head?
  let c ← demand frame.bytecode.nested[nested]?
  let runtime ← resolveBytecodeRuntime c
  let upvalues ← c.upvalues.mapM (captureUpvalue frame)
  let p ← allocClosure c runtime upvalues
  modify fun mem => { mem with stack := mem.stack.set dst (.obj p) }

/-- Make a closure of a saved state. Nothing is collected while it is restored. -/
def restoreClosure (c : Chunk) (upvalues : List UInt32) : Alloc ObjectPtr := do
  let mem ← get
  let runtime ← match mem.bytecodeCaches.get (· == c.identity) with
    | some entry => pure entry.runtime
    | none => do
      let interned := c.stringLiterals.foldl (fun (acc : List Val × GcHeap) l =>
        let (p, heap) := acc.2.allocString l
        (acc.1 ++ [.str p], heap)) ([], mem.heap)
      modify fun mem => { mem with heap := interned.2 }
      modify (installRuntime c interned.1)
      pure mem.runtimes.length
  let (p, heap) := (← get).heap.allocLuaFn c runtime upvalues
  modify fun mem => { mem with heap := heap }
  pure p

/-! ## Calls -/

/-- The closure in a stack slot. -/
def luaFunction (mem : Memory) (index : Nat) : Option LuaFn :=
  match mem.stack[index]? with
  | some (.obj p) =>
    match (mem.heap.objects.get p).map WrappedObject.raw with
    | some (.luaFn c) => some c
    | _ => none
  | _ => none

/-- The frame of a call of the closure in a slot. -/
def admittedFrame (index : Nat) (c : LuaFn) : ActiveFrame :=
  ⟨c.bytecode, c.runtime, c.upvalues, index + 1⟩

/-- Call the closure in a slot. -/
def beginCall (index : Nat) : Alloc Unit := do
  let c ← demand ((← get).luaFunction index)
  refuse (MAX_CALL_DEPTH ≤ (← get).callStack.length) .callDepthExceeded
  modify fun mem => { mem with
    callStack := c.bytecode :: mem.callStack
    frames := admittedFrame index c :: mem.frames }

/-- Call the closure in a slot in place of the running frame. -/
def replaceTailCaller (index : Nat) : Alloc Unit := do
  let c ← demand ((← get).luaFunction index)
  let _ ← demand (← get).callStack.head?
  modify fun mem => { mem with
    callStack := c.bytecode :: mem.callStack.tail
    frames := admittedFrame index c :: mem.frames.tail }

/-- Return from the running frame, or leave it with an error. -/
def popActivation : Alloc Unit := do
  let _ ← demand (← get).callStack.head?
  modify fun mem => { mem with callStack := mem.callStack.tail, frames := mem.frames.tail }

/-! ## Runs -/

/-- A bytecode has addresses of its own among those the cache holds. -/
def Fits (mem : Memory) (c : Chunk) : Prop := Coherent fun d => mem.Held d ∨ d.Within c

/-- What the machine does besides: anything that leaves the closures, the frames and the cached
    runtimes alone, the cells of their lookup caches aside, and marks nothing. -/
structure Mutates (mem mem' : Memory) : Prop where
  closures : ∀ p c, (mem'.heap.objects.get p).map WrappedObject.raw = some (.luaFn c) →
    (mem.heap.objects.get p).map WrappedObject.raw = some (.luaFn c)
  objects : ∀ p o, mem'.heap.objects.get p = some o → o.color = .unmarked
  strings : ∀ p e, mem'.heap.strings.get p = some e → e.color = .unmarked
  cells : ∀ i : Nat, mem'.upvaluePool.colors[i]? ≠ some .reachable
  runtimes : mem'.runtimes.map BytecodeRuntime.fixed = mem.runtimes.map BytecodeRuntime.fixed
  caches : mem'.bytecodeCaches = mem.bytecodeCaches
  frames : mem'.frames = mem.frames
  callStack : mem'.callStack = mem.callStack
  pending : mem'.pendingBytecodeCaches = mem.pendingBytecodeCaches

/-- A computation ends with this memory, whether it succeeds or not. -/
def Ends {α : Type} (x : Alloc α) (mem mem' : Memory) : Prop :=
  (∃ a, x mem = .ok a mem') ∨ ∃ e, x mem = .fail e mem'

/-- A memory without functions, as a state is made with. -/
structure Starts (mem : Memory) : Prop where
  clean : mem.Clean
  closures : ∀ p c, (mem.heap.objects.get p).map WrappedObject.raw ≠ some (.luaFn c)
  caches : mem.bytecodeCaches.slots = []
  frames : mem.frames = []
  callStack : mem.callStack = []
  pending : mem.pendingBytecodeCaches = []

/-- The memories that loads, closures, calls, tail calls, returns, collections and
    mutations lead to, in any order. -/
inductive Runs : Memory → Prop
  | start {mem : Memory} : Starts mem → Runs mem
  | load {mem mem' : Memory} {c : Chunk} : Runs mem → mem.Fits c → Ends (pushChunk c) mem mem' →
      Runs mem'
  | resolve {mem mem' : Memory} {c : Chunk} : Runs mem → mem.Fits c →
      Ends (resolveBytecodeRuntime c) mem mem' → Runs mem'
  | restore {mem mem' : Memory} {c : Chunk} {upvalues : List UInt32} : Runs mem → mem.Fits c →
      Ends (restoreClosure c upvalues) mem mem' → Runs mem'
  | closure {mem mem' : Memory} {dst nested : Nat} : Runs mem → Ends (regClosure dst nested) mem mem' →
      Runs mem'
  | call {mem mem' : Memory} {index : Nat} : Runs mem → Ends (beginCall index) mem mem' → Runs mem'
  | tailCall {mem mem' : Memory} {index : Nat} : Runs mem → Ends (replaceTailCaller index) mem mem' →
      Runs mem'
  | leave {mem mem' : Memory} : Runs mem → Ends popActivation mem mem' → Runs mem'
  | collect {mem mem' : Memory} : Runs mem → mem.collectGarbage = some mem' → Runs mem'
  | mutate {mem mem' : Memory} : Runs mem → Mutates mem mem' → Runs mem'

/-! ## The invariant -/

/-- Nothing is marked, and everything runs on the cached runtime of its bytecode. -/
structure Steady (mem : Memory) : Prop where
  clean : mem.Clean
  identified : mem.Identified

variable {mem mem' : Memory} {c : Chunk} {id : RuntimeId}

/-- What is pending, and the other fields of a memory, do not matter. -/
theorem Steady.congr (h : mem.Steady) (hheap : mem'.heap = mem.heap)
    (hpool : ∀ i : Nat, mem'.upvaluePool.colors[i]? ≠ some .reachable)
    (hruntimes : mem'.runtimes = mem.runtimes) (hcaches : mem'.bytecodeCaches = mem.bytecodeCaches)
    (hframes : mem'.frames = mem.frames) (hcalls : mem'.callStack = mem.callStack) :
    mem'.Steady := by
  obtain ⟨⟨ho, hs, -, hr⟩, hid⟩ := h
  refine ⟨⟨hheap ▸ ho, hheap ▸ hs, hpool, hruntimes ▸ hr⟩, ?_⟩
  refine ⟨hcaches ▸ hid.keys, hcaches ▸ hid.distinct, hcaches ▸ hid.runtimes, ?_, ?_, ?_, ?_, ?_⟩
  · rw [hcaches, hruntimes]
    exact hid.present
  · intro p c hc
    rw [Caches, hcaches]
    exact hid.closures p c (hheap ▸ hc)
  · intro f hf
    rw [Caches, hcaches]
    exact hid.frames f (hframes ▸ hf)
  · rw [hcalls, hframes]
    exact hid.calls
  · exact coherent_held_of_subset hid.coherent fun e he => hcaches ▸ he

/-- What a computation that may collect leaves of the cache: it adds nothing, and drops no
    bytecode that is pending. -/
structure Kept (mem mem' : Memory) : Prop where
  steady : mem'.Steady
  subset : ∀ e ∈ mem'.bytecodeCaches.slots, e ∈ mem.bytecodeCaches.slots
  pending : mem'.pendingBytecodeCaches = mem.pendingBytecodeCaches
  caches : ∀ e ∈ mem.bytecodeCaches.slots, e.1 ∈ mem.pendingBytecodeCaches →
    e ∈ mem'.bytecodeCaches.slots

theorem Kept.refl (h : mem.Steady) : Kept mem mem := ⟨h, fun _ => id, rfl, fun _ he _ => he⟩

theorem Kept.trans {mem'' : Memory} (h : Kept mem mem') (h' : Kept mem' mem'') : Kept mem mem'' where
  steady := h'.steady
  subset e he := h.subset e (h'.subset e he)
  pending := h'.pending.trans h.pending
  caches e he hp := h'.caches e (h.caches e he hp) (h.pending ▸ hp)

theorem kept_collect (h : mem.Steady) (hc : mem.collectGarbage = some mem') : Kept mem mem' := by
  have hcol := collected h.clean h.identified hc
  exact ⟨⟨hcol.clean, hcol.identified h.identified⟩, fun e he => hcol.sublist.subset he, hcol.pending,
    fun e he hp => (hcol.caches e).2 ⟨he, .inr (.inr hp)⟩⟩

theorem fits_of_subset (h : mem.Fits c)
    (hsub : ∀ e ∈ mem'.bytecodeCaches.slots, e ∈ mem.bytecodeCaches.slots) : mem'.Fits c := by
  have hheld : ∀ d, mem'.Held d ∨ d.Within c → mem.Held d ∨ d.Within c := by
    rintro d (⟨e, he, hw⟩ | hd)
    · exact .inl ⟨e, hsub e he, hw⟩
    · exact .inr hd
  refine ⟨fun d e hd hw => ?_, fun d e hd he => h.identity d e (hheld d hd) (hheld e he)⟩
  rcases hd with ⟨e', he', hw'⟩ | hd
  · exact .inl ⟨e', he', hw.trans hw'⟩
  · exact .inr (hw.trans hd)

/-! ## Allocation -/

/-- Another heap whose closures run on cached runtimes. -/
theorem Steady.withHeap (h : mem.Steady) {heap : GcHeap}
    (hobjects : ∀ p o, heap.objects.get p = some o → o.color = .unmarked)
    (hstrings : ∀ p e, heap.strings.get p = some e → e.color = .unmarked)
    (hclosures : ∀ p c, (heap.objects.get p).map WrappedObject.raw = some (.luaFn c) →
      mem.Caches c.bytecode c.runtime) : Steady { mem with heap := heap } := by
  obtain ⟨⟨-, -, hc, hr⟩, hid⟩ := h
  exact ⟨⟨hobjects, hstrings, hc, hr⟩, ⟨hid.keys, hid.distinct, hid.runtimes, hid.present, hclosures,
    hid.frames, hid.calls, ⟨hid.coherent.within, hid.coherent.identity⟩⟩⟩

theorem Steady.allocString (h : mem.Steady) (bytes : List UInt8) :
    Steady { mem with heap := (mem.heap.allocString bytes).2 } := by
  rw [GcHeap.allocString]
  split
  · exact h.withHeap h.clean.objects h.clean.strings h.identified.closures
  · refine h.withHeap h.clean.objects (fun p e he => ?_) h.identified.closures
    rw [SlotMap.get_insert] at he
    split at he
    · cases he
      rfl
    · exact h.clean.strings p e he

/-- A new closure on the runtime of its bytecode. -/
theorem Steady.allocLuaFn (h : mem.Steady) (hc : mem.Caches c id) (upvalues : List UInt32) :
    Steady { mem with heap := (mem.heap.allocLuaFn c id upvalues).2 } := by
  refine h.withHeap (fun p o ho => ?_) h.clean.strings fun p d hd => ?_
  · rw [GcHeap.allocLuaFn, SlotMap.get_insert] at ho
    split at ho
    · cases ho
      rfl
    · exact h.clean.objects p o ho
  · rw [GcHeap.allocLuaFn, SlotMap.get_insert] at hd
    split at hd
    · cases hd
      exact hc
    · exact h.identified.closures p d hd

theorem wlp_maybeCollect {E : Refusal → Memory → Prop} (h : mem.Steady) :
    wlp maybeCollect (fun _ mem' => Kept mem mem') E mem := by
  rw [maybeCollect, wlp_bind, wlp_get]
  refine wlp_ite (fun _ => ?_) fun _ => Kept.refl h
  rw [wlp_bind, wlp_demand]
  exact fun mem' hc => kept_collect h hc

theorem wlp_refuse {p : Prop} [Decidable p] {e : Refusal} {Q : Unit → Memory → Prop}
    {E : Refusal → Memory → Prop} (hE : E e mem) (hQ : Q () mem) : wlp (refuse p e) Q E mem :=
  wlp_ite (fun _ => hE) fun _ => hQ

theorem wlp_allocString (h : mem.Steady) (bytes : List UInt8) :
    wlp (allocString bytes) (fun _ mem' => Kept mem mem') (fun _ mem' => Kept mem mem') mem := by
  rw [allocString, wlp_bind]
  refine wlp_refuse (Kept.refl h) ?_
  rw [wlp_bind]
  refine wlp_mono (wlp_maybeCollect h) (fun _ mem₁ hk => ?_) fun _ _ => id
  rw [wlp_bind, wlp_get]
  exact ⟨hk.steady.allocString bytes, hk.subset, hk.pending, hk.caches⟩

theorem wlp_allocLiteral (h : mem.Steady) (bytes : List UInt8) :
    wlp (allocLiteral bytes) (fun _ mem' => Kept mem mem') (fun _ mem' => Kept mem mem') mem := by
  rw [allocLiteral, wlp_bind]
  refine wlp_mono (wlp_allocString h bytes) (fun v mem₁ hk => ?_) fun _ _ => id
  exact ⟨hk.steady.congr rfl hk.steady.clean.cells rfl rfl rfl rfl, hk.subset, hk.pending, hk.caches⟩

/-! ## Runtimes -/

theorem mem_of_get {m : IndexMap Nat BytecodeCacheEntry} {i : Nat} {e : BytecodeCacheEntry}
    (h : m.get (· == i) = some e) : (i, e) ∈ m.slots := by
  obtain ⟨⟨j, e'⟩, hf, rfl⟩ := Option.map_eq_some_iff.1 h
  have hj : j = i := by simpa using List.find?_some hf
  exact hj ▸ List.mem_of_find?_eq_some hf

theorem notMem_of_get {m : IndexMap Nat BytecodeCacheEntry} {i : Nat}
    (h : m.get (· == i) = none) : ∀ e ∈ m.slots, e.1 ≠ i := by
  rw [IndexMap.get, Option.map_eq_none_iff, List.find?_eq_none] at h
  intro e he heq
  exact h e he (by simpa using heq)

/-- A bytecode that is not cached is added with a runtime of its own. -/
theorem Steady.installRuntime (h : mem.Steady) (hfits : mem.Fits c)
    (habsent : ∀ e ∈ mem.bytecodeCaches.slots, e.1 ≠ c.identity) (literals : List Val) :
    (mem.installRuntime c literals).Steady ∧
      (mem.installRuntime c literals).Caches c mem.runtimes.length := by
  have hslots : (mem.installRuntime c literals).bytecodeCaches.slots =
      mem.bytecodeCaches.slots ++ [(c.identity, ⟨c, mem.runtimes.length⟩)] := by
    have hnone : mem.bytecodeCaches.getIndexOf (· == c.identity) = none := by
      rw [IndexMap.getIndexOf, List.findIdx?_eq_none_iff]
      intro e he
      simpa using habsent e he
    show (mem.bytecodeCaches.insert _ _).slots = _
    rw [IndexMap.insert, hnone]
  have hmem : ∀ e, e ∈ (mem.installRuntime c literals).bytecodeCaches.slots ↔
      e ∈ mem.bytecodeCaches.slots ∨ e = (c.identity, ⟨c, mem.runtimes.length⟩) := by
    intro e
    rw [hslots, List.mem_append, List.mem_singleton]
  have hheld : ∀ d, (mem.installRuntime c literals).Held d ↔ mem.Held d ∨ d.Within c := by
    intro d
    constructor
    · rintro ⟨e, he, hw⟩
      rcases (hmem e).1 he with he | rfl
      · exact .inl ⟨e, he, hw⟩
      · exact .inr hw
    · rintro (⟨e, he, hw⟩ | hw)
      · exact ⟨e, (hmem e).2 (.inl he), hw⟩
      · exact ⟨_, (hmem _).2 (.inr rfl), hw⟩
  have hid := h.identified
  refine ⟨⟨⟨h.clean.objects, h.clean.strings, h.clean.cells, fun rt hrt => ?_⟩,
    ⟨fun e he => ?_, ?_, ?_, fun e he => ?_, fun p d hd => ?_, fun f hf => ?_, hid.calls, ?_⟩⟩,
    (hmem _).2 (.inr rfl)⟩
  · rcases List.mem_append.1 hrt with hrt | hrt
    · exact h.clean.runtimes rt hrt
    · rw [List.mem_singleton.1 hrt]
      rfl
  · rcases (hmem e).1 he with he | rfl
    · exact hid.keys e he
    · rfl
  · rw [hslots, List.map_append, List.nodup_append]
    refine ⟨hid.distinct, List.nodup_singleton _, fun i hi j hj heq => ?_⟩
    obtain ⟨e, he, rfl⟩ := List.mem_map.1 hi
    rw [List.map_singleton, List.mem_singleton] at hj
    exact habsent e he (heq.trans hj)
  · rw [hslots, List.map_append, List.nodup_append]
    refine ⟨hid.runtimes, List.nodup_singleton _, fun i hi j hj heq => ?_⟩
    -- The runtimes there are come before the new one.
    obtain ⟨e, he, rfl⟩ := List.mem_map.1 hi
    rw [List.map_singleton, List.mem_singleton] at hj
    exact absurd (hid.present e he) (by rw [heq, hj]; exact Nat.lt_irrefl _)
  · have hlen : (mem.installRuntime c literals).runtimes.length = mem.runtimes.length + 1 := by
      simp [Memory.installRuntime]
    rw [hlen]
    rcases (hmem e).1 he with he | rfl
    · exact Nat.lt_succ_of_lt (hid.present e he)
    · exact Nat.lt_succ_self _
  · exact (hmem _).2 (.inl (hid.closures p d hd))
  · exact (hmem _).2 (.inl (hid.frames f hf))
  · refine ⟨fun d e hd hw => (hheld e).2 (hfits.within d e ((hheld d).1 hd) hw), fun d e hd he => ?_⟩
    exact hfits.identity d e ((hheld d).1 hd) ((hheld e).1 he)

/-- What resolving a runtime leaves. -/
structure Resolved (mem : Memory) (c : Chunk) (id : RuntimeId) (mem' : Memory) : Prop where
  steady : mem'.Steady
  cached : mem'.Caches c id
  pending : mem'.pendingBytecodeCaches = mem.pendingBytecodeCaches

/-- An entry of the cache at the address of a bytecode is that of the bytecode. -/
theorem Steady.caches_of_get (h : mem.Steady) (hfits : mem.Fits c) {entry : BytecodeCacheEntry}
    (hget : mem.bytecodeCaches.get (· == c.identity) = some entry) : mem.Caches c entry.runtime := by
  have hmem := mem_of_get hget
  have heq : entry.bytecode = c := hfits.identity _ _ (.inl ⟨_, hmem, .refl _⟩) (.inr (.refl c))
    (h.identified.keys _ hmem).symm
  have hentry : entry = ⟨c, entry.runtime⟩ := by rw [← heq]
  rw [Caches, ← hentry]
  exact hmem

theorem wlp_makeRuntime (h : mem.Steady) (hfits : mem.Fits c)
    (hget : mem.bytecodeCaches.get (· == c.identity) = none) :
    wlp (makeRuntime c) (fun id mem' => Resolved mem c id mem')
      (fun _ mem' => mem'.Steady ∧ mem'.pendingBytecodeCaches = mem.pendingBytecodeCaches) mem := by
  rw [makeRuntime, wlp_bind]
  refine wlp_refuse ⟨h, rfl⟩ ?_
  rw [wlp_bind, wlp_get]
  simp only [wlp_bind, wlp_attempt]
  -- No allocation of a literal caches anything.
  have hlits : wlp (c.stringLiterals.mapM allocLiteral) (fun _ mem' => Kept mem mem')
      (fun _ mem' => Kept mem mem') mem := by
    refine wlp_mapM (fun l _ mem₁ hk => ?_) (Kept.refl h)
    exact wlp_mono (wlp_allocLiteral hk.steady l) (fun _ _ hk' => hk.trans hk') fun _ _ hk' =>
      hk.trans hk'
  refine wlp_mono hlits (fun literals mem₁ hk => ?_) fun e mem₁ hk => ?_
  · obtain ⟨hsteady, hcached⟩ := hk.steady.installRuntime (fits_of_subset hfits hk.subset)
      (fun e he => notMem_of_get hget e (hk.subset e he)) literals
    simp only [wlp_get, wlp_modify, wlp_pure, wlp_liftExcept]
    refine ⟨?_, by rintro _ ⟨⟩⟩
    rintro _ ⟨⟩
    exact ⟨hsteady.congr rfl hsteady.clean.cells rfl rfl rfl rfl, hcached, hk.pending⟩
  · simp only [wlp_modify, wlp_liftExcept]
    refine ⟨by rintro _ ⟨⟩, ?_⟩
    rintro _ ⟨⟩
    exact ⟨hk.steady.congr rfl hk.steady.clean.cells rfl rfl rfl rfl, hk.pending⟩

theorem wlp_resolveBytecodeRuntime (h : mem.Steady) (hfits : mem.Fits c) :
    wlp (resolveBytecodeRuntime c) (fun id mem' => Resolved mem c id mem')
      (fun _ mem' => mem'.Steady ∧ mem'.pendingBytecodeCaches = mem.pendingBytecodeCaches) mem := by
  rw [resolveBytecodeRuntime, wlp_bind, wlp_get]
  beta_reduce
  split
  · rename_i entry hget
    exact ⟨h, h.caches_of_get hfits hget, rfl⟩
  · rename_i hget
    exact wlp_makeRuntime h hfits hget

/-! ## Closures -/

/-- The runtime of a pending bytecode is there when the closure is allocated. -/
theorem wlp_allocClosure (h : mem.Steady) (hc : mem.Caches c id) (upvalues : List UInt32) :
    wlp (allocClosure c id upvalues) (fun _ mem' => mem'.Steady) (fun _ mem' => mem'.Steady) mem := by
  rw [allocClosure, wlp_bind, wlp_modify]
  beta_reduce
  have hpending : Steady { mem with
      pendingBytecodeCaches := mem.pendingBytecodeCaches ++ [c.identity] } :=
    h.congr rfl h.clean.cells rfl rfl rfl rfl
  rw [wlp_bind]
  refine wlp_mono (wlp_maybeCollect hpending) (fun _ mem₁ hk => ?_) fun _ _ hs => hs
  have hcached : mem₁.Caches c id := hk.caches _ hc
    (List.mem_append_right _ (List.mem_singleton_self _))
  have hsteady := hk.steady.allocLuaFn hcached upvalues
  exact hsteady.congr rfl hsteady.clean.cells rfl rfl rfl rfl

theorem wlp_pushClosure (h : mem.Steady) (hfits : mem.Fits c) (upvalues : List UInt32) :
    wlp (pushClosure c upvalues) (fun _ mem' => mem'.Steady) (fun _ mem' => mem'.Steady) mem := by
  rw [pushClosure, wlp_bind, wlp_get]
  beta_reduce
  rw [wlp_bind]
  refine wlp_refuse h ?_
  rw [wlp_bind]
  refine wlp_mono (wlp_resolveBytecodeRuntime h hfits) (fun id mem₁ hr => ?_) fun _ _ => And.left
  rw [wlp_bind]
  refine wlp_mono (wlp_allocClosure hr.steady hr.cached upvalues) (fun p mem₂ hs => ?_) fun _ _ hs => hs
  exact hs.congr rfl hs.clean.cells rfl rfl rfl rfl

/-- A captured variable takes a cell that is not marked. -/
theorem not_reachable_alloc {pool pool' : UpvaluePool} {u : Upvalue} {r : UInt32}
    (h : pool.alloc u = some (r, pool')) (hcells : ∀ i : Nat, pool.colors[i]? ≠ some .reachable)
    (i : Nat) : pool'.colors[i]? ≠ some .reachable := by
  rcases UpvaluePool.alloc_cases h with ⟨rest, -, -, -, hc, -⟩ | ⟨-, -, -, hc, -⟩
  · rw [hc, List.getElem?_set]
    split
    · split <;> simp
    · exact hcells i
  · rw [hc, List.getElem?_append]
    split
    · exact hcells i
    · rw [List.getElem?_singleton]
      split <;> simp

/-- The invariant, with the runtime of a bytecode in the cache. -/
def Ready (c : Chunk) (id : RuntimeId) (mem : Memory) : Prop := mem.Steady ∧ mem.Caches c id

theorem wlp_captureUpvalue (h : mem.Ready c id) (frame : ActiveFrame) (desc : UpvalueDesc) :
    wlp (captureUpvalue frame desc) (fun _ mem' => mem'.Ready c id) (fun _ mem' => mem'.Steady) mem := by
  cases desc with
  | «local» slot =>
    rw [captureUpvalue, findOrCreateUpvalue, wlp_bind, wlp_get]
    beta_reduce
    split
    · exact h
    · rw [wlp_bind, wlp_demand]
      rintro ⟨r, pool⟩ halloc
      have hcells := not_reachable_alloc halloc h.1.clean.cells
      exact ⟨h.1.congr rfl hcells rfl rfl rfl rfl, h.2⟩
  | upvalue slot =>
    rw [captureUpvalue, wlp_demand]
    exact fun _ _ => h

/-- A nested function of a frame fits: its addresses are held already. -/
theorem Steady.fits_nested (h : mem.Steady) {f : ActiveFrame} (hf : f ∈ mem.frames)
    (hc : c ∈ f.bytecode.nested) : mem.Fits c := by
  have hwithin : ∀ d : Chunk, mem.Held d ∨ d.Within c → mem.Held d := by
    rintro d (hd | hd)
    · exact hd
    · exact ⟨_, h.identified.frames f hf, .nested hc hd⟩
  refine ⟨fun d e hd hw => .inl (h.identified.coherent.within d e (hwithin d hd) hw), ?_⟩
  exact fun d e hd he => h.identified.coherent.identity d e (hwithin d hd) (hwithin e he)

theorem wlp_regClosure (h : mem.Steady) (dst nested : Nat) :
    wlp (regClosure dst nested) (fun _ mem' => mem'.Steady) (fun _ mem' => mem'.Steady) mem := by
  rw [regClosure, wlp_bind, wlp_get]
  beta_reduce
  rw [wlp_bind, wlp_demand]
  intro frame hframe
  rw [wlp_bind, wlp_demand]
  intro c hc
  have hfits := h.fits_nested (List.mem_of_mem_head? hframe) (List.mem_of_getElem? hc)
  rw [wlp_bind]
  refine wlp_mono (wlp_resolveBytecodeRuntime h hfits) (fun id mem₁ hr => ?_) fun _ _ => And.left
  -- Capturing collects nothing, so the runtime stays cached.
  have hcapture : wlp (c.upvalues.mapM (captureUpvalue frame)) (fun _ mem' => mem'.Ready c id)
      (fun _ mem' => mem'.Steady) mem₁ :=
    wlp_mapM (fun desc _ mem₂ hmem₂ => wlp_captureUpvalue hmem₂ frame desc) ⟨hr.steady, hr.cached⟩
  rw [wlp_bind]
  refine wlp_mono hcapture (fun upvalues mem₂ hready => ?_) fun _ _ hs => hs
  rw [wlp_bind]
  refine wlp_mono (wlp_allocClosure hready.1 hready.2 upvalues) (fun p mem₃ hs => ?_) fun _ _ hs => hs
  exact hs.congr rfl hs.clean.cells rfl rfl rfl rfl

/-- Interning the literals of a saved function. -/
theorem Steady.internAll (h : mem.Steady) (literals : List (List UInt8)) (acc : List Val) :
    Steady { mem with heap := (literals.foldl (fun (acc : List Val × GcHeap) l =>
      ((acc.1 ++ [.str (acc.2.allocString l).1], (acc.2.allocString l).2) : List Val × GcHeap))
      (acc, mem.heap)).2 } := by
  induction literals generalizing mem acc with
  | nil => exact h
  | cons l literals ih => exact ih (h.allocString l) _

theorem wlp_restoreClosure (h : mem.Steady) (hfits : mem.Fits c) (upvalues : List UInt32) :
    wlp (restoreClosure c upvalues) (fun _ mem' => mem'.Steady) (fun _ mem' => mem'.Steady) mem := by
  rw [restoreClosure, wlp_bind, wlp_get]
  beta_reduce
  split
  · rename_i entry hget
    exact h.allocLuaFn (h.caches_of_get hfits hget) upvalues
  · rename_i hget
    have hinterned := h.internAll c.stringLiterals []
    obtain ⟨hsteady, hcached⟩ := hinterned.installRuntime (c := c)
      (fits_of_subset hfits fun _ => id) (notMem_of_get hget) _
    exact hsteady.allocLuaFn hcached upvalues

/-! ## Calls keep the invariant -/

/-- Other frames that run on cached runtimes. -/
theorem Steady.withFrames (h : mem.Steady) {frames : List ActiveFrame}
    (hframes : ∀ f ∈ frames, mem.Caches f.bytecode f.runtime) :
    Steady { mem with callStack := frames.map ActiveFrame.bytecode, frames := frames } := by
  obtain ⟨⟨ho, hs, hc, hr⟩, hid⟩ := h
  exact ⟨⟨ho, hs, hc, hr⟩, ⟨hid.keys, hid.distinct, hid.runtimes, hid.present, hid.closures, hframes,
    rfl, ⟨hid.coherent.within, hid.coherent.identity⟩⟩⟩

/-- The frame of a call runs on the cached runtime of its bytecode. -/
theorem Steady.caches_luaFunction (h : mem.Steady) {index : Nat} {c : LuaFn}
    (hc : mem.luaFunction index = some c) :
    mem.Caches (admittedFrame index c).bytecode (admittedFrame index c).runtime := by
  rw [luaFunction] at hc
  split at hc
  · split at hc
    · rename_i hget
      cases hc
      exact h.identified.closures _ _ hget
    · cases hc
  · cases hc

theorem Steady.tail_frames (h : mem.Steady) : ∀ f ∈ mem.frames.tail, mem.Caches f.bytecode f.runtime :=
  fun f hf => h.identified.frames f (List.mem_of_mem_tail hf)

theorem wlp_beginCall (h : mem.Steady) (index : Nat) :
    wlp (beginCall index) (fun _ mem' => mem'.Steady) (fun _ mem' => mem'.Steady) mem := by
  rw [beginCall, wlp_bind, wlp_get]
  beta_reduce
  rw [wlp_bind, wlp_demand]
  intro c hc
  rw [wlp_bind, wlp_get]
  beta_reduce
  rw [wlp_bind]
  refine wlp_refuse h ?_
  have hsteady := h.withFrames (List.forall_mem_cons.2 ⟨h.caches_luaFunction hc, h.identified.frames⟩)
  rw [List.map_cons, ← h.identified.calls] at hsteady
  exact hsteady

theorem wlp_replaceTailCaller (h : mem.Steady) (index : Nat) :
    wlp (replaceTailCaller index) (fun _ mem' => mem'.Steady) (fun _ mem' => mem'.Steady) mem := by
  rw [replaceTailCaller, wlp_bind, wlp_get]
  beta_reduce
  rw [wlp_bind, wlp_demand]
  intro c hc
  rw [wlp_bind, wlp_get]
  beta_reduce
  rw [wlp_bind, wlp_demand]
  intro _ _
  have hsteady := h.withFrames (List.forall_mem_cons.2 ⟨h.caches_luaFunction hc, h.tail_frames⟩)
  rw [List.map_cons, List.map_tail, ← h.identified.calls] at hsteady
  exact hsteady

theorem wlp_popActivation (h : mem.Steady) :
    wlp popActivation (fun _ mem' => mem'.Steady) (fun _ mem' => mem'.Steady) mem := by
  rw [popActivation, wlp_bind, wlp_get]
  beta_reduce
  rw [wlp_bind, wlp_demand]
  intro _ _
  have hsteady := h.withFrames h.tail_frames
  rw [List.map_tail, ← h.identified.calls] at hsteady
  exact hsteady

/-! ## Every run -/

theorem Mutates.steady (hm : Mutates mem mem') (h : mem.Steady) : mem'.Steady := by
  have hlen : mem'.runtimes.length = mem.runtimes.length := by
    simpa using congrArg List.length hm.runtimes
  refine ⟨⟨hm.objects, hm.strings, hm.cells, fun rt hrt => ?_⟩, ?_⟩
  · -- A runtime has the flag of one that was there.
    have hfixed : rt.fixed ∈ mem.runtimes.map BytecodeRuntime.fixed :=
      hm.runtimes ▸ List.mem_map_of_mem hrt
    obtain ⟨rt₀, hrt₀, heq⟩ := List.mem_map.1 hfixed
    have hflag : rt.caches.reached = rt₀.caches.reached := (congrArg Prod.snd heq).symm
    rw [hflag]
    exact h.clean.runtimes rt₀ hrt₀
  · have hid := h.identified
    have hcaches : ∀ c id, mem.Caches c id → mem'.Caches c id := by
      intro c id hc
      rw [Caches, hm.caches]
      exact hc
    refine ⟨hm.caches ▸ hid.keys, hm.caches ▸ hid.distinct, hm.caches ▸ hid.runtimes, ?_, ?_, ?_, ?_, ?_⟩
    · rw [hm.caches, hlen]
      exact hid.present
    · exact fun p c hc => hcaches _ _ (hid.closures p c (hm.closures p c hc))
    · exact fun f hf => hcaches _ _ (hid.frames f (hm.frames ▸ hf))
    · rw [hm.callStack, hm.frames]
      exact hid.calls
    · exact coherent_held_of_subset hid.coherent fun e he => hm.caches ▸ he

theorem Starts.steady (h : Starts mem) : mem.Steady := by
  have hheld : ∀ c, ¬mem.Held c := by
    rintro c ⟨e, he, -⟩
    rw [h.caches] at he
    cases he
  refine ⟨h.clean, ⟨?_, ?_, ?_, ?_, fun p c hc => absurd hc (h.closures p c), ?_, ?_,
    ⟨fun c _ hc => absurd hc (hheld c), fun c _ hc => absurd hc (hheld c)⟩⟩⟩
  · simp [h.caches]
  · simp [h.caches]
  · simp [h.caches]
  · simp [h.caches]
  · simp [h.frames]
  · rw [h.callStack, h.frames]
    rfl

theorem steady_of_ends {α : Type} {x : Alloc α}
    (hx : wlp x (fun _ mem' => mem'.Steady) (fun _ mem' => mem'.Steady) mem) (h : Ends x mem mem') :
    mem'.Steady := by
  rcases h with ⟨a, ha⟩ | ⟨e, he⟩
  · rwa [wlp, ha] at hx
  · rwa [wlp, he] at hx

/-- The invariant holds in every run: by induction, each step keeps it. -/
theorem Runs.steady (h : Runs mem) : mem.Steady := by
  induction h with
  | start h => exact h.steady
  | load _ hfits hends ih => exact steady_of_ends (wlp_pushClosure ih hfits []) hends
  | resolve _ hfits hends ih =>
    refine steady_of_ends (wlp_mono (wlp_resolveBytecodeRuntime ih hfits) ?_ ?_) hends
    · exact fun _ _ hr => hr.steady
    · exact fun _ _ hs => hs.1
  | restore _ hfits hends ih => exact steady_of_ends (wlp_restoreClosure ih hfits _) hends
  | closure _ hends ih => exact steady_of_ends (wlp_regClosure ih _ _) hends
  | call _ hends ih => exact steady_of_ends (wlp_beginCall ih _) hends
  | tailCall _ hends ih => exact steady_of_ends (wlp_replaceTailCaller ih _) hends
  | leave _ hends ih => exact steady_of_ends (wlp_popActivation ih) hends
  | collect _ hc ih => exact (kept_collect ih hc).steady
  | mutate _ hm ih => exact hm.steady ih

/-- The runtime the cache has for a bytecode. -/
def cachedRuntime (mem : Memory) (c : Chunk) : Option RuntimeId :=
  (mem.bytecodeCaches.get (· == c.identity)).map (·.runtime)

theorem Steady.cachedRuntime_eq (h : mem.Steady) (hc : mem.Caches c id) :
    mem.cachedRuntime c = some id := by
  have hget : mem.bytecodeCaches.get (· == c.identity) = some ⟨c, id⟩ := by
    cases hget : mem.bytecodeCaches.get (· == c.identity) with
    | none => exact absurd rfl (notMem_of_get hget _ hc)
    | some entry =>
      -- An address stands once in the cache.
      have hkey := List.inj_on_of_nodup_map h.identified.distinct hc (mem_of_get hget) rfl
      exact congrArg some (congrArg Prod.snd hkey).symm
  rw [cachedRuntime, hget]
  rfl

theorem chunkLiterals_mem_gcRoots (hc : mem.Caches c id) :
    .chunkLiterals (mem.literals id) ∈ mem.gcRoots := by
  have hroot : .chunkLiterals (mem.literals id) ∈ mem.bytecodeCaches.slots.map fun e =>
      GcRoot.chunkLiterals (mem.literals e.2.runtime) := List.mem_map.2 ⟨_, hc, rfl⟩
  refine List.mem_flatten.2 ⟨_, ?_, hroot⟩
  simp

/-- In every run, closures and frames have the runtime the cache has for their bytecode, and
    its literals are roots; no runtime is left flagged; and a collection, whatever is pending
    when it runs, drops a runtime only if its bytecode is not pending and is not in the tree of
    a visited closure or of an active call. -/
theorem runtime_identity (h : Runs mem) :
    (∀ p c, (mem.heap.objects.get p).map WrappedObject.raw = some (.luaFn c) →
      mem.cachedRuntime c.bytecode = some c.runtime ∧
        .chunkLiterals (mem.literals c.runtime) ∈ mem.gcRoots) ∧
    (∀ f ∈ mem.frames, mem.cachedRuntime f.bytecode = some f.runtime ∧
      .chunkLiterals (mem.literals f.runtime) ∈ mem.gcRoots) ∧
    (∀ rt ∈ mem.runtimes, rt.caches.reached = false) ∧
    ∀ pending mem', Memory.collectGarbage { mem with pendingBytecodeCaches := pending } = some mem' →
      (∀ rt ∈ mem'.runtimes, rt.caches.reached = false) ∧
      ∀ e ∈ mem.bytecodeCaches.slots, e ∉ mem'.bytecodeCaches.slots →
        (∀ p c, Visits { mem with pendingBytecodeCaches := pending } (.object p) →
          (mem.heap.objects.get p).map WrappedObject.raw = some (.luaFn c) →
          ¬e.2.bytecode.Within c.bytecode) ∧
        (∀ c ∈ mem.callStack, ¬e.2.bytecode.Within c) ∧ e.1 ∉ pending := by
  have hs := h.steady
  refine ⟨fun p c hc => ?_, fun f hf => ?_, hs.clean.runtimes, fun pending mem' hcollect => ?_⟩
  · have hcached := hs.identified.closures p c hc
    exact ⟨hs.cachedRuntime_eq hcached, chunkLiterals_mem_gcRoots hcached⟩
  · have hcached := hs.identified.frames f hf
    exact ⟨hs.cachedRuntime_eq hcached, chunkLiterals_mem_gcRoots hcached⟩
  · have hpending : Steady { mem with pendingBytecodeCaches := pending } :=
      hs.congr rfl hs.clean.cells rfl rfl rfl rfl
    have hcol := collected hpending.clean hpending.identified hcollect
    refine ⟨hcol.clean.runtimes, fun e he hdropped => ?_⟩
    have hretains : ¬Retains { mem with pendingBytecodeCaches := pending } e :=
      fun hr => hdropped ((hcol.caches e).2 ⟨he, hr⟩)
    refine ⟨fun p c hv hc hw => ?_, fun c hc hw => ?_, fun hp => ?_⟩
    · exact hretains (.inl ⟨p, c, hv, hc, hw⟩)
    · exact hretains (.inr (.inl ⟨c, hc, hw⟩))
    · exact hretains (.inr (.inr hp))

/-! ## A function that outlives the one around it -/

/-- A function nested in another one. -/
def innerChunk : Chunk := { identity := 2 }

/-- The function around it. -/
def outerChunk : Chunk := { identity := 1, nested := [innerChunk] }

/-- A heap with the global table only. -/
def startHeap : GcHeap where
  objects := SlotMap.empty.insert { raw := .table Table.empty }
  strings := SlotMap.empty
  threshold := .disabled
  policy := ⟨2, 1⟩
  cachePruneCountdown := 1
  countdown_pos := Nat.one_pos

/-- A memory without functions. -/
def startMemory : Memory where
  heap := startHeap
  upvaluePool := .new
  runtimes := []
  bytecodeCaches := ⟨[]⟩
  stack := []
  globalEnv := ⟨⟨0, 0⟩, [], [], []⟩
  metaNames := []
  stringMetatable := none
  registry := ⟨.empty, []⟩
  rootedValues := []
  suspendedEnvs := []
  varargStack := []
  openUpvalues := []
  callStack := []
  frames := []
  pendingBytecodeCaches := []
  patterns := ⟨[]⟩
  patternBytes := 0
  formatPointerIds := ⟨[]⟩

/-- The outer function is loaded. -/
def loadedMemory : Memory :=
  { startMemory with
    heap := (startHeap.allocLuaFn outerChunk 0 []).2
    runtimes := [⟨[], .new outerChunk⟩]
    bytecodeCaches := ⟨[(1, ⟨outerChunk, 0⟩)]⟩
    stack := [.obj ⟨1, 0⟩] }

/-- It is called, with one register. -/
def callingMemory : Memory :=
  { loadedMemory with
    stack := [.obj ⟨1, 0⟩, .nil]
    callStack := [outerChunk]
    frames := [⟨outerChunk, 0, [], 1⟩] }

/-- It made a closure of the inner function and returned it: only that closure is on the stack. -/
def returnedMemory : Memory :=
  { loadedMemory with
    heap := (loadedMemory.heap.allocLuaFn innerChunk 1 []).2
    runtimes := [⟨[], .new outerChunk⟩, ⟨[], .new innerChunk⟩]
    bytecodeCaches := ⟨[(1, ⟨outerChunk, 0⟩), (2, ⟨innerChunk, 1⟩)]⟩
    stack := [.obj ⟨2, 0⟩] }

theorem starts_startMemory : Starts startMemory := by
  have hobjects : ∀ p o, startMemory.heap.objects.get p = some o → o = { raw := .table Table.empty } := by
    intro p o ho
    have hmem := SlotMap.get_eq_some.1 ho
    exact (Prod.mk.inj (List.mem_singleton.1 hmem)).2
  refine ⟨⟨fun p o ho => ?_, fun p e he => ?_, fun i hi => ?_, fun rt hrt => ?_⟩, fun p c hc => ?_,
    rfl, rfl, rfl, rfl⟩
  · rw [hobjects p o ho]
  · cases he
  · cases hi
  · cases hrt
  · obtain ⟨o, ho, hraw⟩ := Option.map_eq_some_iff.1 hc
    rw [hobjects p o ho] at hraw
    cases hraw

theorem fits_outerChunk : startMemory.Fits outerChunk := by
  have hheld : ∀ d : Chunk, startMemory.Held d ∨ d.Within outerChunk →
      d = outerChunk ∨ d = innerChunk := by
    rintro d (⟨e, he, -⟩ | hd)
    · cases he
    · cases hd with
      | refl => exact .inl rfl
      | nested hm hw =>
        cases List.mem_singleton.1 hm
        cases hw with
        | refl => exact .inr rfl
        | nested hm => cases hm
  refine ⟨fun d e hd hw => ?_, fun d e hd he hid => ?_⟩
  · rcases hd with ⟨e', he', -⟩ | hd
    · cases he'
    · exact .inr (hw.trans hd)
  · rcases hheld d hd with rfl | rfl <;> rcases hheld e he with rfl | rfl
    · rfl
    · cases hid
    · cases hid
    · rfl

/-- A mutation of the stack. -/
theorem Runs.withStack (h : Runs mem) (stack : List Val) : Runs { mem with stack := stack } :=
  .mutate h ⟨fun _ _ hc => hc, h.steady.clean.objects, h.steady.clean.strings, h.steady.clean.cells,
    rfl, rfl, rfl, rfl, rfl⟩

theorem runs_returnedMemory : Runs returnedMemory := by
  have hloaded : Runs loadedMemory :=
    .load (.start starts_startMemory) fits_outerChunk (.inl ⟨(), rfl⟩)
  have hcalled : Runs { callingMemory with stack := loadedMemory.stack } :=
    @Runs.call loadedMemory _ 0 hloaded (.inl ⟨(), rfl⟩)
  have hcalling : Runs callingMemory := hcalled.withStack [.obj ⟨1, 0⟩, .nil]
  have hclosure : Runs { returnedMemory with
      stack := [.obj ⟨1, 0⟩, .obj ⟨2, 0⟩]
      callStack := callingMemory.callStack
      frames := callingMemory.frames } :=
    @Runs.closure callingMemory _ 1 0 hcalling (.inl ⟨(), rfl⟩)
  have hleft : Runs { returnedMemory with stack := [.obj ⟨1, 0⟩, .obj ⟨2, 0⟩] } :=
    .leave hclosure (.inl ⟨(), rfl⟩)
  exact hleft.withStack [.obj ⟨2, 0⟩]

/-- The collection drops the runtime of the outer function. -/
theorem collect_returnedMemory : ∃ mem', returnedMemory.collectGarbage = some mem' ∧
    mem'.bytecodeCaches.slots.map Prod.fst = [2] := Option.map_eq_some_iff.1 rfl

/-- The runtime of a function is dropped while a closure nested in it is reachable. -/
theorem ancestor_dropped : Runs returnedMemory ∧
    ∃ mem', returnedMemory.collectGarbage = some mem' ∧
      returnedMemory.Visits (.object ⟨2, 0⟩) ∧
      (returnedMemory.heap.objects.get ⟨2, 0⟩).map WrappedObject.raw =
        some (.luaFn ⟨innerChunk, 1, []⟩) ∧
      innerChunk ∈ outerChunk.nested ∧
      (1, ⟨outerChunk, 0⟩) ∈ returnedMemory.bytecodeCaches.slots ∧
      (1, ⟨outerChunk, 0⟩) ∉ mem'.bytecodeCaches.slots := by
  obtain ⟨mem', hcollect, hkeys⟩ := collect_returnedMemory
  refine ⟨runs_returnedMemory, mem', hcollect, ?_, rfl, List.mem_singleton_self _,
    List.mem_cons_self, fun hmem => ?_⟩
  · refine .root ?_ ?_
    · exact List.mem_flatMap.2 ⟨.stack [.obj ⟨2, 0⟩], List.mem_cons_self, List.mem_singleton_self _⟩
    · exact ⟨_, rfl⟩
  · have hkey : 1 ∈ mem'.bytecodeCaches.slots.map Prod.fst := List.mem_map.2 ⟨_, hmem, rfl⟩
    rw [hkeys] at hkey
    cases List.mem_singleton.1 hkey

/-- The closure of the inner function keeps the runtime of its bytecode. -/
theorem runtime_identity_returned : returnedMemory.cachedRuntime innerChunk = some 1 :=
  ((runtime_identity runs_returnedMemory).1 ⟨2, 0⟩ ⟨innerChunk, 1, []⟩ rfl).1

end Memory

end Dellingr
