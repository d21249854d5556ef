import Dellingr.Lib.Tracing
import Dellingr.Vm.Collector

/-!
# The mark phase

Marking works on nodes of four kinds (`Node`): objects, strings, slots of the pool of
captured variables, and runtimes. Whatever it does is marking a list of nodes one after
the other (`markNodes`); only objects are queued.

* `advances_markNodes` says what marking a list does: the live ones among them are marked,
  the objects newly marked are queued, and nothing but colours changes (`Same`).
* `marked_of_drained` says what is marked when the worklist is empty: the nodes that the
  roots reach through what the collector visits (`Marking.emits`), and no others.
* `drains` says that the worklist becomes empty: an object is queued when it is marked,
  so the objects that are queued or unmarked get fewer by one with each that is traced.
-/

namespace Dellingr

/-- What a collection marks. -/
inductive Node
  | object (p : ObjectPtr)
  | string (p : StringPtr)
  | cell (r : UInt32)
  | runtime (id : RuntimeId)
  deriving DecidableEq

/-- What a value names. -/
def Val.nodes : Val → List Node
  | .obj p => [.object p]
  | .str p => [.string p]
  | _ => []

/-- What a hash slot names: its key, whether its value is nil or not, and its value. -/
def slotNodes (e : TableKey × Val) : List Node := e.1.asLive.toList.flatMap Val.nodes ++ e.2.nodes

/-- What a collection visits of a table. -/
def Table.emits (t : Table) : List Node :=
  (t.array.drop t.lead).flatMap Val.nodes ++ t.storage.slots.flatMap slotNodes ++
    t.metatable.toList.map .object

/-- What the value of a closed slot names. -/
def closedNodes (slots : List Upvalue) (r : UInt32) : List Node :=
  match slots[r.toNat]? with
  | some (.closed v) => v.nodes
  | _ => []

/-- What a collection visits of an object, for the slots of captured variables. -/
def RawObject.emits (slots : List Upvalue) : RawObject → List Node
  | .luaFn c => .runtime c.runtime :: c.upvalues.flatMap fun r => .cell r :: closedNodes slots r
  | .table t => t.emits

/-- What is visited of a root. -/
def GcRoot.nodes : GcRoot → List Node
  | .stack values | .chunkLiterals values | .rootedValues values | .varargs values =>
    values.flatMap Val.nodes
  | .globals env => .object env.table :: (env.builtinNames.map .string ++ env.pins.map .string ++
      env.envTables.flatMap fun e => .object e.table :: e.pins.map .string)
  | .metaNames names => names.map .string
  | .stringMetatable p => [.object p]
  | .anchors registry => registry.slots.values.flatMap Val.nodes
  | .suspendedEnv env => env.contents.emits
  | .openUpvalue r => [.cell r]
  | .activeChunk _ | .pendingChunk _ => []

namespace Marking

variable {m m' m'' : Marking} {n k : Node} {ns ms : List Node}

/-- There is such a node, and it has not been freed. -/
def Live (m : Marking) : Node → Prop
  | .object p => ∃ o, m.heap.objects.get p = some o
  | .string p => ∃ e, m.heap.strings.get p = some e
  | .cell r => m.upvaluePool.Live r.toNat
  | .runtime id => ∃ rt, m.runtimes[id]? = some rt

/-- A node has the colour of those that are reached. -/
def Marked (m : Marking) : Node → Prop
  | .object p => ∃ o, m.heap.objects.get p = some o ∧ o.color = .reachable
  | .string p => ∃ e, m.heap.strings.get p = some e ∧ e.color = .reachable
  | .cell r => m.upvaluePool.colors[r.toNat]? = some .reachable
  | .runtime id => ∃ rt, m.runtimes[id]? = some rt ∧ rt.caches.reached = true

/-- What the collector visits of a node. -/
def emits (m : Marking) : Node → List Node
  | .object p => ((m.heap.objects.get p).map fun o => o.raw.emits m.upvaluePool.slots).getD []
  | _ => []

/-- The objects that are not marked. -/
def unmarked (m : Marking) : Nat := m.heap.objects.entries.countP fun e => e.2.color = .unmarked

end Marking

/-- A runtime with its flag down. -/
def BytecodeRuntime.unreached (rt : BytecodeRuntime) : BytecodeRuntime :=
  { rt with caches := { rt.caches with reached := false } }

namespace Marking

variable {m m' m'' : Marking} {n k : Node} {ns ms : List Node}

/-- Two states of marking differ in colours, flags and the worklist only. -/
structure Same (m m' : Marking) : Prop where
  objects : m'.heap.objects.map WrappedObject.raw = m.heap.objects.map WrappedObject.raw
  strings : m'.heap.strings.map StringEntry.data = m.heap.strings.map StringEntry.data
  threshold : m'.heap.threshold = m.heap.threshold
  policy : m'.heap.policy = m.heap.policy
  countdown : m'.heap.cachePruneCountdown = m.heap.cachePruneCountdown
  slots : m'.upvaluePool.slots = m.upvaluePool.slots
  occupied : ∀ i, m'.upvaluePool.Live i ↔ m.upvaluePool.Live i
  /-- A slot without an index has the colour it had. -/
  beyond : ∀ i, 2 ^ 32 ≤ i → m'.upvaluePool.colors[i]? = m.upvaluePool.colors[i]?
  runtimes : m'.runtimes.map BytecodeRuntime.unreached = m.runtimes.map BytecodeRuntime.unreached

namespace Same

theorem refl (m : Marking) : Same m m :=
  ⟨rfl, rfl, rfl, rfl, rfl, rfl, fun _ => Iff.rfl, fun _ _ => rfl, rfl⟩

theorem trans (h : Same m m') (h' : Same m' m'') : Same m m'' where
  objects := h'.objects.trans h.objects
  strings := h'.strings.trans h.strings
  threshold := h'.threshold.trans h.threshold
  policy := h'.policy.trans h.policy
  countdown := h'.countdown.trans h.countdown
  slots := h'.slots.trans h.slots
  occupied i := (h'.occupied i).trans (h.occupied i)
  beyond i hi := (h'.beyond i hi).trans (h.beyond i hi)
  runtimes := h'.runtimes.trans h.runtimes

/-- The contents of an object. -/
theorem raw (h : Same m m') (p : ObjectPtr) :
    (m'.heap.objects.get p).map WrappedObject.raw = (m.heap.objects.get p).map WrappedObject.raw := by
  rw [← SlotMap.get_map, h.objects, SlotMap.get_map]

theorem data (h : Same m m') (p : StringPtr) :
    (m'.heap.strings.get p).map StringEntry.data = (m.heap.strings.get p).map StringEntry.data := by
  rw [← SlotMap.get_map, h.strings, SlotMap.get_map]

theorem runtime (h : Same m m') (id : RuntimeId) :
    (m'.runtimes[id]?).map BytecodeRuntime.unreached =
      (m.runtimes[id]?).map BytecodeRuntime.unreached := by
  rw [← List.getElem?_map, h.runtimes, List.getElem?_map]

theorem live (h : Same m m') : m'.Live n ↔ m.Live n := by
  have some_iff {α β : Type} {a b : Option α} {f : α → β} (h : a.map f = b.map f) :
      (∃ x, a = some x) ↔ ∃ x, b = some x := by
    rw [← Option.isSome_iff_exists, ← Option.isSome_iff_exists, ← Option.isSome_map (f := f), h,
      Option.isSome_map]
  cases n with
  | object p => exact some_iff (h.raw p)
  | string p => exact some_iff (h.data p)
  | cell r => exact h.occupied r.toNat
  | runtime id => exact some_iff (h.runtime id)

theorem emits (h : Same m m') (n : Node) : m'.emits n = m.emits n := by
  cases n with
  | object p =>
    have hmap {o : Option WrappedObject} (slots : List Upvalue) :
        (o.map fun o => o.raw.emits slots) = (o.map WrappedObject.raw).map (·.emits slots) := by
      rw [Option.map_map]
      rfl
    rw [Marking.emits, Marking.emits, h.slots, hmap, hmap, h.raw]
  | string p => rfl
  | cell r => rfl
  | runtime id => rfl

end Same

theorem live_of_marked (h : m.Marked n) : m.Live n := by
  cases n with
  | object p => exact ⟨_, h.choose_spec.1⟩
  | string p => exact ⟨_, h.choose_spec.1⟩
  | cell r => exact .inr h
  | runtime id => exact ⟨_, h.choose_spec.1⟩

/-! ## Marking a list of nodes -/

/-- Mark a node. -/
def markNode (m : Marking) : Node → Option Marking
  | .object p => some (m.mark p)
  | .string p => some (m.markString p)
  | .cell r => m.markSlot r
  | .runtime id => some (m.markReached id)

/-- Mark nodes one after the other. -/
def markNodes (m : Marking) (ns : List Node) : Option Marking := ns.foldlM markNode m

/-- What marking nodes does: those that are live are marked, and the objects among them
    that were not are queued. -/
structure Advances (ns : List Node) (m m' : Marking) : Prop where
  same : Same m m'
  marked : ∀ k, m'.Marked k ↔ m.Marked k ∨ k ∈ ns ∧ m.Live k
  queued : ∀ p, p ∈ m'.worklist ↔
    p ∈ m.worklist ∨ Node.object p ∈ ns ∧ m.Live (.object p) ∧ ¬m.Marked (.object p)
  effort : m'.unmarked + m'.worklist.length = m.unmarked + m.worklist.length

namespace Advances

theorem refl (m : Marking) : Advances [] m m := ⟨.refl m, by simp, by simp, rfl⟩

theorem trans (h : Advances ns m m') (h' : Advances ms m' m'') : Advances (ns ++ ms) m m'' where
  same := h.same.trans h'.same
  marked k := by
    rw [h'.marked, h.marked, h.same.live, List.mem_append]
    tauto
  queued p := by
    rw [h'.queued, h.queued, h.marked, h.same.live, List.mem_append]
    tauto
  effort := h'.effort.trans h.effort

end Advances

/-- Marking a node that does not get a new colour. -/
theorem advances_of_marked (h : m.Live n → m.Marked n) : Advances [n] m m where
  same := .refl m
  marked k := by
    refine ⟨.inl, ?_⟩
    rintro (hk | ⟨hk, hl⟩)
    · exact hk
    · rw [List.mem_singleton] at hk
      exact hk ▸ h (hk ▸ hl)
  queued p := by
    refine ⟨.inl, ?_⟩
    rintro (hp | ⟨hp, hl, hm⟩)
    · exact hp
    · rw [List.mem_singleton] at hp
      exact absurd (hp ▸ h (hp ▸ hl)) hm
  effort := rfl

theorem advances_mark (p : ObjectPtr) : Advances [.object p] m (m.mark p) := by
  rw [mark]
  split
  · rename_i o ho
    split
    · rename_i hc
      refine ⟨⟨SlotMap.map_modify fun _ => rfl, rfl, rfl, rfl, rfl, rfl, fun _ => Iff.rfl,
        fun _ _ => rfl, rfl⟩,
        fun k => ?_, fun q => ?_, ?_⟩
      · cases k with
        | object q =>
          simp only [Marked, Live, SlotMap.get_modify, List.mem_singleton, Node.object.injEq]
          by_cases hq : q = p
          · simp [hq, ho]
          · simp [hq]
        | string q => simp [Marked]
        | cell r => simp [Marked]
        | runtime id => simp [Marked]
      · rw [List.mem_cons, List.mem_singleton, Node.object.injEq]
        constructor
        · rintro (rfl | hq)
          · exact .inr ⟨rfl, ⟨o, ho⟩, by rintro ⟨o', ho', hm⟩; simp_all⟩
          · exact .inl hq
        · rintro (hq | ⟨rfl, -⟩)
          · exact .inr hq
          · exact .inl rfl
      · have := SlotMap.countP_modify (p := fun o : WrappedObject => o.color = .unmarked)
          (f := fun o => { o with color := .reachable }) ho (by simp [hc]) (by simp)
        simp only [unmarked, List.length_cons]
        omega
    · rename_i hc
      refine advances_of_marked fun _ => ⟨o, ho, ?_⟩
      cases hcolor : o.color with
      | unmarked => exact absurd hcolor hc
      | reachable => rfl
  · rename_i ho
    refine advances_of_marked ?_
    rintro ⟨o, ho'⟩
    simp [ho] at ho'

theorem advances_markString (p : StringPtr) : Advances [.string p] m (m.markString p) := by
  refine ⟨⟨rfl, SlotMap.map_modify fun _ => rfl, rfl, rfl, rfl, rfl, fun _ => Iff.rfl,
        fun _ _ => rfl, rfl⟩,
    fun k => ?_, fun q => by simp [markString], rfl⟩
  cases k with
  | object q => simp [Marked, markString]
  | string q =>
    simp only [Marked, Live, markString, SlotMap.get_modify, List.mem_singleton, Node.string.injEq]
    by_cases hq : q = p
    · simp only [hq, if_true, true_and, Option.map_eq_some_iff]
      constructor
      · rintro ⟨e, ⟨e', he', rfl⟩, -⟩
        exact .inr ⟨e', he'⟩
      · rintro (⟨e, he, -⟩ | ⟨e, he⟩)
        · exact ⟨_, ⟨e, he, rfl⟩, rfl⟩
        · exact ⟨_, ⟨e, he, rfl⟩, rfl⟩
    · simp [hq]
  | cell r => simp [Marked, markString]
  | runtime id => simp [Marked, markString]

theorem advances_markReached (id : RuntimeId) :
    Advances [.runtime id] m (m.markReached id) := by
  refine ⟨⟨rfl, rfl, rfl, rfl, rfl, rfl, fun _ => Iff.rfl, fun _ _ => rfl, ?_⟩, fun k => ?_,
    fun q => by simp [markReached], rfl⟩
  · refine List.ext_getElem? fun i => ?_
    simp only [markReached, List.getElem?_map, List.getElem?_modify]
    cases m.runtimes[i]? with
    | none => rfl
    | some rt => by_cases hi : id = i <;> simp [hi, BytecodeRuntime.unreached]
  · cases k with
    | object q => simp [Marked, markReached]
    | string q => simp [Marked, markReached]
    | cell r => simp [Marked, markReached]
    | runtime i =>
      simp only [Marked, Live, markReached, List.getElem?_modify, List.mem_singleton,
        Node.runtime.injEq]
      cases m.runtimes[i]? with
      | none => simp
      | some rt =>
        by_cases hi : id = i
        · simp [hi]
        · simp [hi, Ne.symm hi]

theorem advances_markSlot {r : UInt32} (h : m.markSlot r = some m') : Advances [.cell r] m m' := by
  obtain ⟨pool, hp, hm⟩ := Option.bind_eq_some_iff.1 h
  cases hm
  obtain ⟨c, hcolor, hne, hs, hc, -⟩ := UpvaluePool.mark_cases hp
  have hlt := (List.getElem?_eq_some_iff.1 hcolor).1
  refine ⟨⟨rfl, rfl, rfl, rfl, rfl, hs, fun i => ?_, fun i hi => ?_, rfl⟩, fun k => ?_,
    fun q => by simp, rfl⟩
  · by_cases hi : i = r.toNat
    · rw [UpvaluePool.live_iff, UpvaluePool.live_iff, hi, hc]
      exact ⟨fun _ => ⟨c, hcolor, hne⟩, fun _ => ⟨_, List.getElem?_set_self hlt, by decide⟩⟩
    · exact UpvaluePool.live_congr (hc ▸ List.getElem?_set_ne (Ne.symm hi))
  · have := r.toNat_lt
    exact hc ▸ List.getElem?_set_ne (by omega)
  · cases k with
    | object q => simp [Marked]
    | string q => simp [Marked]
    | cell q =>
      simp only [Marked, Live, List.mem_singleton, Node.cell.injEq, hc]
      by_cases hq : q = r
      · rw [hq, List.getElem?_set_self hlt]
        simp [UpvaluePool.live_iff, hcolor, hne]
      · rw [List.getElem?_set_ne fun h => hq (UInt32.toNat_inj.1 h.symm)]
        simp [hq]
    | runtime id => simp [Marked]

theorem advances_markNode (h : m.markNode n = some m') : Advances [n] m m' := by
  cases n with
  | object p => exact Option.some.inj h ▸ advances_mark p
  | string p => exact Option.some.inj h ▸ advances_markString p
  | cell r => exact advances_markSlot h
  | runtime id => exact Option.some.inj h ▸ advances_markReached id

/-- Marking a list of nodes. -/
theorem advances_markNodes (h : m.markNodes ns = some m') : Advances ns m m' := by
  induction ns generalizing m with
  | nil => exact Option.some.inj h ▸ .refl m
  | cons n ns ih =>
    obtain ⟨m₁, h₁, h⟩ := Option.bind_eq_some_iff.1 h
    exact (advances_markNode h₁).trans (ih h)

theorem markSlot_of_live {r : UInt32} (h : m.Live (.cell r)) : ∃ m', m.markSlot r = some m' := by
  obtain ⟨c, hc, hne⟩ := UpvaluePool.live_iff.1 h
  have hp : ∃ pool, m.upvaluePool.markSlot r = some pool := by
    rw [UpvaluePool.markSlot, hc]
    cases c with
    | free => exact absurd rfl hne
    | unmarked => exact ⟨_, rfl⟩
    | reachable => exact ⟨_, rfl⟩
  obtain ⟨pool, hp⟩ := hp
  exact ⟨{ m with upvaluePool := pool }, by rw [markSlot, hp]; rfl⟩

/-- Marking fails only at a slot that is free. -/
theorem markNodes_of_live (h : ∀ r, Node.cell r ∈ ns → m.Live (.cell r)) :
    ∃ m', m.markNodes ns = some m' := by
  induction ns generalizing m with
  | nil => exact ⟨m, rfl⟩
  | cons n ns ih =>
    have hn : ∃ m₁, m.markNode n = some m₁ := by
      cases n with
      | object p => exact ⟨_, rfl⟩
      | string p => exact ⟨_, rfl⟩
      | cell r => exact markSlot_of_live (h r List.mem_cons_self)
      | runtime id => exact ⟨_, rfl⟩
    obtain ⟨m₁, h₁⟩ := hn
    obtain ⟨m', h'⟩ := ih fun r hr =>
      (advances_markNode h₁).same.live.2 (h r (List.mem_cons_of_mem _ hr))
    refine ⟨m', ?_⟩
    rw [markNodes, List.foldlM_cons, h₁]
    exact h'

/-! ## Everything is marking a list of nodes -/

theorem markNodes_append : m.markNodes (ns ++ ms) = (m.markNodes ns).bind (markNodes · ms) :=
  List.foldlM_append

theorem markNodes_object (p : ObjectPtr) :
    m.markNodes (.object p :: ns) = (m.mark p).markNodes ns := rfl

theorem markNodes_val (v : Val) : m.markNodes v.nodes = some (m.markVal v) := by
  cases v <;> rfl

theorem markNodes_vals (vs : List Val) :
    m.markNodes (vs.flatMap Val.nodes) = some (m.markVals vs) := by
  induction vs generalizing m with
  | nil => rfl
  | cons v vs ih =>
    rw [List.flatMap_cons, markNodes_append, markNodes_val]
    exact ih

theorem markNodes_strings (ps : List StringPtr) :
    m.markNodes (ps.map .string) = some (m.markStrings ps) := by
  induction ps generalizing m with
  | nil => rfl
  | cons p ps ih => exact ih

theorem markNodes_slot (e : TableKey × Val) : m.markNodes (slotNodes e) =
    some ((match e.1.asLive with | some key => m.markVal key | none => m).markVal e.2) := by
  rw [slotNodes, markNodes_append]
  cases e.1.asLive with
  | none => exact markNodes_val e.2
  | some key =>
    rw [Option.toList_some, List.flatMap_singleton, markNodes_val]
    exact markNodes_val e.2

/-- The contents of a table. -/
theorem markValues_eq (t : Table) :
    m.markValues t = if t.lead ≤ t.array.length then m.markNodes t.emits else none := by
  rw [markValues]
  split
  · rw [Table.emits, markNodes_append, markNodes_append, markNodes_vals, Option.bind_some]
    cases t.storage with
    | inline entries =>
      have hslots : ∀ {m : Marking},
          m.markNodes ((TableStorage.inline entries).slots.flatMap slotNodes) =
            some (entries.foldl (fun m e => (m.markVal e.1).markVal e.2) m) := by
        simp only [TableStorage.slots]
        induction entries with
        | nil => intros; rfl
        | cons e entries ih =>
          intro m
          rw [List.map_cons, List.flatMap_cons, markNodes_append, markNodes_slot]
          exact ih
      rw [hslots]
      cases t.metatable <;> rfl
    | map map policy =>
      have hslots : ∀ {m : Marking},
          m.markNodes ((TableStorage.map map policy).slots.flatMap slotNodes) =
            some (map.slots.foldl (fun m e =>
              (match e.1.asLive with | some key => m.markVal key | none => m).markVal e.2) m) := by
        simp only [TableStorage.slots]
        induction map.slots with
        | nil => intros; rfl
        | cons e slots ih =>
          intro m
          rw [List.flatMap_cons, markNodes_append, markNodes_slot]
          exact ih
      rw [hslots]
      cases t.metatable <;> rfl
  · rfl

/-- A captured variable of a closure. -/
theorem markUpvalue_eq (r : UInt32) :
    m.markUpvalue r = m.markNodes (.cell r :: closedNodes m.upvaluePool.slots r) := by
  rw [markUpvalue, markNodes, List.foldlM_cons, markNode]
  cases h : m.markSlot r with
  | none => rfl
  | some m₁ =>
    have hadv := advances_markSlot h
    have hlive := live_of_marked ((hadv.marked (.cell r)).2 (.inr ⟨List.mem_singleton_self _, ?_⟩))
    · obtain ⟨c, hc, -⟩ := UpvaluePool.live_iff.1 hlive
      have hlt := (List.getElem?_eq_some_iff.1 hc).1
      rw [← m₁.upvaluePool.parallel] at hlt
      have hget : m₁.upvaluePool.slots[r.toNat]? = some (m₁.upvaluePool.slots.get ⟨_, hlt⟩) :=
        List.getElem?_eq_getElem hlt
      simp only [Option.bind_eq_bind, Option.bind_some, UpvaluePool.get, closedNodes,
        ← hadv.same.slots, hget]
      cases m₁.upvaluePool.slots.get ⟨_, hlt⟩ with
      | «open» i => rfl
      | closed v => exact (markNodes_val v).symm
    · obtain ⟨pool, hp, -⟩ := Option.bind_eq_some_iff.1 h
      obtain ⟨c, hcolor, hne, -⟩ := UpvaluePool.mark_cases hp
      exact UpvaluePool.live_iff.2 ⟨c, hcolor, hne⟩

theorem markUpvalues_eq (rs : List UInt32) : rs.foldlM markUpvalue m =
    m.markNodes (rs.flatMap fun r => .cell r :: closedNodes m.upvaluePool.slots r) := by
  induction rs generalizing m with
  | nil => rfl
  | cons r rs ih =>
    rw [List.foldlM_cons, List.flatMap_cons, markNodes_append, markUpvalue_eq]
    cases h : m.markNodes (.cell r :: closedNodes m.upvaluePool.slots r) with
    | none => rfl
    | some m₁ =>
      rw [Option.bind_eq_bind, Option.bind_some, Option.bind_some, ih,
        (advances_markNodes h).same.slots]

end Marking

/-- What marking relies on to trace an object: its captured variables are in use, or its
    dead prefix lies in its window. -/
def RawObject.Traceable (m : Marking) : RawObject → Prop
  | .luaFn c => ∀ r ∈ c.upvalues, m.Live (.cell r)
  | .table t => t.lead ≤ t.array.length

namespace Marking

variable {m m' m'' m₀ : Marking} {n k : Node} {ns ms roots : List Node}

theorem markChildren_eq {o : RawObject} (h : m.markChildren o = some m') :
    m.markNodes (o.emits m.upvaluePool.slots) = some m' := by
  cases o with
  | luaFn c =>
    rw [markChildren, markUpvalues_eq] at h
    exact h
  | table t =>
    rw [markChildren, markValues_eq] at h
    split at h
    · exact h
    · cases h

theorem mem_closedNodes {slots : List Upvalue} {r q : UInt32} : Node.cell q ∉ closedNodes slots r := by
  rw [closedNodes]
  split
  · rename_i v _
    cases v <;> simp [Val.nodes]
  · simp

theorem cell_notMem_vals {vs : List Val} {r : UInt32} : Node.cell r ∉ vs.flatMap Val.nodes := by
  rw [List.mem_flatMap]
  rintro ⟨v, -, hr⟩
  cases v <;> simp [Val.nodes] at hr

theorem cell_notMem_emits {t : Table} {r : UInt32} : Node.cell r ∉ t.emits := by
  simp only [Table.emits, List.mem_append, not_or]
  refine ⟨⟨cell_notMem_vals, ?_⟩, by simp⟩
  rw [List.mem_flatMap]
  rintro ⟨e, -, hr⟩
  rcases List.mem_append.1 hr with hr | hr
  · exact cell_notMem_vals hr
  · have hval : Node.cell r ∈ [e.2].flatMap Val.nodes := by simpa using hr
    exact cell_notMem_vals hval

theorem markChildren_of_traceable {o : RawObject} (h : o.Traceable m) :
    ∃ m', m.markChildren o = some m' := by
  cases o with
  | luaFn c =>
    rw [markChildren, markUpvalues_eq]
    refine markNodes_of_live fun r hr => ?_
    obtain ⟨q, hq, hr⟩ := List.mem_flatMap.1 hr
    rcases List.mem_cons.1 hr with hr | hr
    · exact (advances_markReached c.runtime).same.live.2 (Node.cell.inj hr ▸ h q hq)
    · exact absurd hr mem_closedNodes
  | table t =>
    have hlead : t.lead ≤ t.array.length := h
    rw [markChildren, markValues_eq, if_pos hlead]
    exact markNodes_of_live fun r hr => absurd hr cell_notMem_emits

/-! ## The worklist -/

/-- What holds while the worklist is traced, of a marking that started at `m₀`. -/
structure Traces (m₀ : Marking) (roots : List Node) (m : Marking) : Prop where
  same : Same m₀ m
  tracing : Tracing m₀.Live m₀.emits roots m.Marked fun n => ∃ p ∈ m.worklist, n = .object p
  queued : ∀ p ∈ m.worklist, m.Marked (.object p)

/-- The roots are marked, and nothing is traced yet. -/
theorem traces_of_roots (hfresh : ∀ n, ¬m₀.Marked n) (hwork : m₀.worklist = [])
    (h : Advances roots m₀ m) : Traces m₀ roots m := by
  have hmarked : ∀ k, m.Marked k ↔ k ∈ roots ∧ m₀.Live k := fun k => by
    rw [h.marked]
    exact ⟨fun hk => hk.resolve_left (hfresh k), .inr⟩
  have hqueue : ∀ p, p ∈ m.worklist ↔ m.Marked (.object p) := fun p => by
    rw [h.queued, hmarked, hwork]
    simp [hfresh]
  refine ⟨h.same, ⟨fun n hn => ?_, fun n hn hl => (hmarked n).2 ⟨hn, hl⟩, fun n hn => ?_⟩,
    fun p => (hqueue p).1⟩
  · obtain ⟨hr, hl⟩ := (hmarked n).1 hn
    exact .root hr hl
  · cases n with
    | object p => exact .inl ⟨p, (hqueue p).2 hn, rfl⟩
    | string p => exact .inr fun m hm => absurd hm List.not_mem_nil
    | cell r => exact .inr fun m hm => absurd hm List.not_mem_nil
    | runtime id => exact .inr fun m hm => absurd hm List.not_mem_nil

/-- The state with an object taken from the worklist. -/
theorem traces_step {p : ObjectPtr} {rest : List ObjectPtr} {o : WrappedObject}
    (h : Traces m₀ roots m) (hwork : m.worklist = p :: rest) (ho : m.heap.objects.get p = some o)
    (hm : markChildren { m with worklist := rest } o.raw = some m') :
    Traces m₀ roots m' ∧ m'.unmarked + m'.worklist.length = m.unmarked + rest.length := by
  have hadv := advances_markNodes (markChildren_eq hm)
  have hemits : m₀.emits (.object p) = o.raw.emits m.upvaluePool.slots := by
    rw [← h.same.emits, emits, ho]
    rfl
  -- The worklist is no part of what stays the same.
  have hsame : Same m m' := ⟨hadv.same.objects, hadv.same.strings, hadv.same.threshold,
    hadv.same.policy, hadv.same.countdown, hadv.same.slots, hadv.same.occupied, hadv.same.beyond,
    hadv.same.runtimes⟩
  have hp : m.Marked (.object p) := h.queued p (by rw [hwork]; exact List.mem_cons_self)
  have hmarked : ∀ k, m'.Marked k ↔ m.Marked k ∨ k ∈ m₀.emits (.object p) ∧ m₀.Live k := fun k => by
    rw [hadv.marked, hemits, ← h.same.live]
    rfl
  refine ⟨⟨h.same.trans hsame, ?_, fun q hq => ?_⟩, hadv.effort⟩
  · refine h.tracing.trace (n := .object p) (fun k hk => (hmarked k).2 (.inl hk)) (fun k hk => ?_)
      (fun k hk hl => (hmarked k).2 (.inr ⟨hk, hl⟩)) ?_ (fun k hk => ?_)
    · rcases (hmarked k).1 hk with hk | ⟨hk, hl⟩
      · exact .inl hk
      · exact .inr (.edge (h.tracing.sound _ hp) hk hl)
    · rintro k ⟨q, hq, rfl⟩
      rw [hwork] at hq
      rcases List.mem_cons.1 hq with rfl | hq
      · exact .inl rfl
      · exact .inr ⟨q, (hadv.queued q).2 (.inl hq), rfl⟩
    · by_cases hold : m.Marked k
      · exact .inl hold
      refine .inr ?_
      obtain ⟨hk, hl⟩ := ((hmarked k).1 hk).resolve_left hold
      cases k with
      | object q =>
        refine .inl ⟨q, (hadv.queued q).2 (.inr ⟨hemits ▸ hk, h.same.live.2 hl, hold⟩), rfl⟩
      | string q => exact .inr fun m hm => absurd hm List.not_mem_nil
      | cell r => exact .inr fun m hm => absurd hm List.not_mem_nil
      | runtime id => exact .inr fun m hm => absurd hm List.not_mem_nil
  · rcases (hadv.queued q).1 hq with hq | ⟨hq, hl, -⟩
    · exact (hadv.marked _).2 (.inl (h.queued q (by rw [hwork]; exact List.mem_cons_of_mem _ hq)))
    · exact (hadv.marked _).2 (.inr ⟨hq, hl⟩)

theorem traces_drain {fuel : Nat} (h : Traces m₀ roots m)
    (hd : m.drainMarkWorklist fuel = some m') : Traces m₀ roots m' ∧ m'.worklist = [] := by
  induction fuel generalizing m with
  | zero =>
    rw [drainMarkWorklist] at hd
    split at hd
    · rename_i hw
      exact Option.some.inj hd ▸ ⟨h, hw⟩
    · cases hd
  | succ fuel ih =>
    rw [drainMarkWorklist] at hd
    split at hd
    · rename_i hw
      exact Option.some.inj hd ▸ ⟨h, hw⟩
    · rename_i p rest hw
      obtain ⟨o, ho, hd⟩ := Option.bind_eq_some_iff.1 hd
      obtain ⟨m₁, h₁, hd⟩ := Option.bind_eq_some_iff.1 hd
      exact ih (traces_step h hw ho h₁).1 hd

/-- The worklist becomes empty: each object is queued once. -/
theorem drains {fuel : Nat} (h : Traces m₀ roots m)
    (htrace : ∀ p o, Tracing.Reaches m₀.Live m₀.emits roots (.object p) →
      (m₀.heap.objects.get p).map WrappedObject.raw = some o → o.Traceable m₀)
    (hfuel : m.unmarked + m.worklist.length ≤ fuel) :
    ∃ m', m.drainMarkWorklist fuel = some m' := by
  induction fuel generalizing m with
  | zero =>
    refine ⟨m, ?_⟩
    rw [drainMarkWorklist, if_pos (List.eq_nil_of_length_eq_zero (by omega))]
  | succ fuel ih =>
    rw [drainMarkWorklist]
    split
    · exact ⟨m, rfl⟩
    · rename_i p rest hw
      have hp := h.queued p (by rw [hw]; exact List.mem_cons_self)
      obtain ⟨o, ho, -⟩ : m.Marked (.object p) := h.queued p (by rw [hw]; exact List.mem_cons_self)
      have hraw : (m₀.heap.objects.get p).map WrappedObject.raw = some o.raw := by
        rw [← h.same.raw, ho]
        rfl
      have ht : o.raw.Traceable { m with worklist := rest } := by
        have := htrace p o.raw (h.tracing.sound _ hp) hraw
        cases hr : o.raw with
        | luaFn c =>
          rw [hr] at this
          exact fun r hr => h.same.live.2 (this r hr)
        | table t =>
          rw [hr] at this
          exact this
      obtain ⟨m₁, h₁⟩ := markChildren_of_traceable ht
      obtain ⟨htraces, heffort⟩ := traces_step h hw ho h₁
      obtain ⟨m', hm'⟩ := ih htraces (by rw [hw, List.length_cons] at hfuel; omega)
      refine ⟨m', ?_⟩
      rw [ho, Option.bind_eq_bind, Option.bind_some, h₁]
      exact hm'

/-- When the worklist is empty, the nodes the roots reach are marked, and no others. -/
theorem marked_of_drained (h : Traces m₀ roots m) (hdone : m.worklist = []) :
    m.Marked n ↔ Tracing.Reaches m₀.Live m₀.emits roots n := by
  refine h.tracing.marked_iff ?_
  rintro k ⟨p, hp, -⟩
  rw [hdone] at hp
  exact absurd hp List.not_mem_nil

end Marking

end Dellingr
