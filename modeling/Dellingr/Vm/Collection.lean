import Dellingr.Vm.ChunkTree
import Dellingr.Vm.Marking

/-!
# One collection

What a collection does to each part of a state, said of the nodes it visits
(`Memory.Visits`): those the roots reach through what the collector reads of an object.

* `marked_roots`, `visits_roots`: the roots are marked, and their bytecodes retained;
* `swept_object` and so on: each part after the sweep;
* `mem_swept_caches`: the runtimes that stay are those of the bytecodes in the trees of
  active calls and of visited closures, and the pending ones.

Nothing here depends on the shape of tables or on which captured variables are open.
-/

namespace Dellingr

/-- The bytecodes a root retains. -/
def LiveChunks.visit (live : LiveChunks) : GcRoot → LiveChunks
  | .activeChunk bytecode => { live with trees := retainBytecodeTree live.trees bytecode }
  | .pendingChunk identity => { live with pending := live.pending ++ [identity] }
  | _ => live

/-- What marking relies on to visit a root. -/
def GcRoot.Markable (m : Marking) : GcRoot → Prop
  | .suspendedEnv env => env.contents.lead ≤ env.contents.array.length
  | .openUpvalue r => m.Live (.cell r)
  | _ => True

namespace Marking

variable {m m' : Marking} {live live' : LiveChunks}

theorem markNodes_globals (env : GlobalHandles) :
    m.markNodes (GcRoot.globals env).nodes = some (m.markGlobals env) := by
  have henv : ∀ {m : Marking} (envs : List EnvTable),
      m.markNodes (envs.flatMap fun e => .object e.table :: e.pins.map .string) =
        some (envs.foldl (fun m env => (m.mark env.table).markStrings env.pins) m) := by
    intro m envs
    induction envs generalizing m with
    | nil => rfl
    | cons e envs ih =>
      rw [List.flatMap_cons, markNodes_append, markNodes_object, markNodes_strings]
      exact ih
  rw [GcRoot.nodes, markNodes_object, markNodes_append, markNodes_append, markNodes_strings, Option.bind_some, markNodes_strings,
    Option.bind_some, henv]
  rfl

/-- Visiting a root marks its nodes and retains its bytecodes. -/
theorem markRoot_eq (root : GcRoot) :
    markRoot (m, live) root =
      match root with
      | .suspendedEnv env =>
        if env.contents.lead ≤ env.contents.array.length then
          (m.markNodes root.nodes).map (·, live.visit root)
        else none
      | _ => (m.markNodes root.nodes).map (·, live.visit root) := by
  cases root with
  | stack values => simp only [GcRoot.nodes, markNodes_vals]; rfl
  | globals env => rw [markNodes_globals]; rfl
  | chunkLiterals values => simp only [GcRoot.nodes, markNodes_vals]; rfl
  | metaNames names => simp only [GcRoot.nodes, markNodes_strings]; rfl
  | stringMetatable p => rfl
  | anchors registry => simp only [GcRoot.nodes, markNodes_vals]; rfl
  | rootedValues values => simp only [GcRoot.nodes, markNodes_vals]; rfl
  | suspendedEnv env =>
    simp only [markRoot, markValues_eq, GcRoot.nodes]
    split
    · cases m.markNodes env.contents.emits <;> rfl
    · rfl
  | varargs values => simp only [GcRoot.nodes, markNodes_vals]; rfl
  | openUpvalue r =>
    simp only [markRoot, GcRoot.nodes, markNodes, List.foldlM_cons, List.foldlM_nil, markNode]
    cases m.markSlot r <;> rfl
  | activeChunk bytecode => rfl
  | pendingChunk identity => rfl

theorem advances_markRoot {root : GcRoot} (h : markRoot (m, live) root = some (m', live')) :
    Advances root.nodes m m' ∧ live' = live.visit root := by
  have hmap : (m.markNodes root.nodes).map (·, live.visit root) = some (m', live') := by
    rw [markRoot_eq] at h
    split at h
    · split at h
      · exact h
      · cases h
    · exact h
  obtain ⟨m₁, hm, heq⟩ := Option.map_eq_some_iff.1 hmap
  cases heq
  exact ⟨advances_markNodes hm, rfl⟩

theorem markRoot_of_markable (live : LiveChunks) {root : GcRoot} (h : root.Markable m) :
    ∃ m', markRoot (m, live) root = some m' := by
  have hcells : ∀ r, Node.cell r ∈ root.nodes → m.Live (.cell r) := by
    intro r hr
    cases root with
    | openUpvalue q => exact Node.cell.inj (List.mem_singleton.1 hr) ▸ h
    | suspendedEnv env => exact absurd hr cell_notMem_emits
    | stack values => exact absurd hr cell_notMem_vals
    | chunkLiterals values => exact absurd hr cell_notMem_vals
    | rootedValues values => exact absurd hr cell_notMem_vals
    | varargs values => exact absurd hr cell_notMem_vals
    | anchors registry => exact absurd hr cell_notMem_vals
    | globals env => simp [GcRoot.nodes] at hr
    | metaNames names => simp [GcRoot.nodes] at hr
    | stringMetatable p => simp [GcRoot.nodes] at hr
    | activeChunk bytecode => simp [GcRoot.nodes] at hr
    | pendingChunk identity => simp [GcRoot.nodes] at hr
  obtain ⟨m₁, hm⟩ := markNodes_of_live hcells
  refine ⟨(m₁, live.visit root), ?_⟩
  rw [markRoot_eq, hm]
  split
  · exact if_pos h
  · rfl

/-- Visiting the roots. -/
theorem advances_markRoots {roots : List GcRoot}
    (h : roots.foldlM markRoot (m, live) = some (m', live')) :
    Advances (roots.flatMap GcRoot.nodes) m m' ∧ live' = roots.foldl LiveChunks.visit live := by
  induction roots generalizing m live with
  | nil =>
    cases h
    exact ⟨.refl _, rfl⟩
  | cons root roots ih =>
    obtain ⟨⟨m₁, live₁⟩, h₁, h⟩ := Option.bind_eq_some_iff.1 h
    obtain ⟨hadv, rfl⟩ := advances_markRoot h₁
    obtain ⟨hadv', rfl⟩ := ih h
    exact ⟨hadv.trans hadv', rfl⟩

theorem markRoots_of_markable (live : LiveChunks) {roots : List GcRoot} (h : ∀ root ∈ roots, root.Markable m) :
    ∃ m', roots.foldlM markRoot (m, live) = some m' := by
  induction roots generalizing m live with
  | nil => exact ⟨_, rfl⟩
  | cons root roots ih =>
    obtain ⟨⟨m₁, live₁⟩, h₁⟩ := markRoot_of_markable live (h root List.mem_cons_self)
    have hmark : ∀ root ∈ roots, root.Markable m₁ := by
      intro root' hroot
      have := h root' (List.mem_cons_of_mem _ hroot)
      cases root' with
      | openUpvalue r => exact (advances_markRoot h₁).1.same.live (n := .cell r) |>.2 this
      | _ => exact this
    obtain ⟨m', h'⟩ := ih live₁ hmark
    refine ⟨m', ?_⟩
    rw [List.foldlM_cons, h₁]
    exact h'

end Marking

/-! ## The bytecodes that are retained -/

section Retained

variable {held : Chunk → Prop} {live : LiveChunks} {trees : Finset Nat} {roots : List GcRoot}
  {entries : List BytecodeCacheEntry} {runtimes : List BytecodeRuntime}

theorem mem_visit_pending {i : Nat} : i ∈ (roots.foldl LiveChunks.visit live).pending ↔
    i ∈ live.pending ∨ .pendingChunk i ∈ roots := by
  induction roots generalizing live with
  | nil => simp
  | cons root roots ih =>
    rw [List.foldl_cons, ih, List.mem_cons]
    cases root <;> simp [LiveChunks.visit, or_assoc]

/-- The roots retain the trees of the active calls. -/
theorem full_visit (hheld : Coherent held) (hroots : ∀ c, .activeChunk c ∈ roots → held c)
    (hfull : Full held live.trees) : Full held (roots.foldl LiveChunks.visit live).trees ∧
      ∀ i, i ∈ (roots.foldl LiveChunks.visit live).trees ↔
        i ∈ live.trees ∨ ∃ c, .activeChunk c ∈ roots ∧ InTree i c := by
  induction roots generalizing live with
  | nil => exact ⟨hfull, by simp⟩
  | cons root roots ih =>
    have hrest : ∀ c, .activeChunk c ∈ roots → held c := fun c hc =>
      hroots c (List.mem_cons_of_mem _ hc)
    rw [List.foldl_cons]
    cases root with
    | activeChunk c =>
      obtain ⟨hfull', hmem⟩ := full_retainBytecodeTree hheld (hroots c List.mem_cons_self) hfull
      obtain ⟨hdone, hmem'⟩ := @ih { live with trees := retainBytecodeTree live.trees c } hrest
        hfull'
      refine ⟨hdone, fun i => (hmem' i).trans ?_⟩
      rw [hmem]
      constructor
      · rintro ((hi | hi) | ⟨d, hd, hi⟩)
        · exact .inl hi
        · exact .inr ⟨c, List.mem_cons_self, hi⟩
        · exact .inr ⟨d, List.mem_cons_of_mem _ hd, hi⟩
      · rintro (hi | ⟨d, hd, hi⟩)
        · exact .inl (.inl hi)
        · rcases List.mem_cons.1 hd with hd | hd
          · cases hd
            exact .inl (.inr hi)
          · exact .inr ⟨d, hd, hi⟩
    | pendingChunk identity =>
      obtain ⟨hdone, hmem'⟩ := @ih { live with pending := live.pending ++ [identity] } hrest
        hfull
      exact ⟨hdone, fun i => (hmem' i).trans (by simp)⟩
    | _ =>
      obtain ⟨hdone, hmem'⟩ := @ih live hrest hfull
      exact ⟨hdone, fun i => (hmem' i).trans (by simp)⟩

/-- The flag of a runtime is up. -/
def Flagged (runtimes : List BytecodeRuntime) (id : RuntimeId) : Prop :=
  ∃ rt, runtimes[id]? = some rt ∧ rt.caches.reached = true

theorem flagged_iff {id : RuntimeId} :
    (runtimes[id]?.map (·.caches.reached)).getD false = true ↔ Flagged runtimes id := by
  rw [Flagged]
  cases runtimes[id]? <;> simp

/-- Lowering a flag leaves the others. -/
theorem flagged_modify {id j : RuntimeId} (h : id ≠ j) {f : BytecodeRuntime → BytecodeRuntime} :
    Flagged (runtimes.modify id f) j ↔ Flagged runtimes j := by
  rw [Flagged, Flagged, List.getElem?_modify]
  simp [h]

/-- Changing each of several runtimes. -/
theorem getElem?_foldl_modify {ids : List RuntimeId} (hnodup : ids.Nodup)
    {f : BytecodeRuntime → BytecodeRuntime} (j : RuntimeId) :
    (ids.foldl (fun l id => l.modify id f) runtimes)[j]? =
      if j ∈ ids then (runtimes[j]?).map f else runtimes[j]? := by
  induction ids generalizing runtimes with
  | nil => simp
  | cons id ids ih =>
    rw [List.nodup_cons] at hnodup
    rw [List.foldl_cons, ih hnodup.2, List.getElem?_modify]
    by_cases hj : id = j
    · subst hj
      simp [hnodup.1]
    · simp [hj, Ne.symm hj]

theorem length_foldl_modify (ids : List RuntimeId) (f : BytecodeRuntime → BytecodeRuntime)
    (runtimes : List BytecodeRuntime) :
    (ids.foldl (fun l id => l.modify id f) runtimes).length = runtimes.length := by
  induction ids generalizing runtimes with
  | nil => rfl
  | cons id ids ih => rw [List.foldl_cons, ih, List.length_modify]

theorem takeReached_runtimes (entries : List BytecodeCacheEntry) (trees : Finset Nat)
    (runtimes : List BytecodeRuntime) : (takeReached entries trees runtimes).2 =
      (entries.map (·.runtime)).foldl (fun l id => l.modify id .unreached) runtimes := by
  induction entries generalizing trees runtimes with
  | nil => rfl
  | cons e entries ih => exact ih _ _

/-- The flags retain the trees of the flagged runtimes. -/
theorem full_takeReached (runtimes : List BytecodeRuntime) (hheld : Coherent held) (hentries : ∀ e ∈ entries, held e.bytecode)
    (hnodup : (entries.map (·.runtime)).Nodup) (hfull : Full held trees) :
    Full held (takeReached entries trees runtimes).1 ∧
      ∀ i, i ∈ (takeReached entries trees runtimes).1 ↔
        i ∈ trees ∨ ∃ e ∈ entries, Flagged runtimes e.runtime ∧ InTree i e.bytecode := by
  induction entries generalizing trees runtimes with
  | nil => exact ⟨hfull, by simp [takeReached]⟩
  | cons e entries ih =>
    rw [List.map_cons, List.nodup_cons] at hnodup
    -- The trees after this entry.
    have hstep : ∃ trees', Full held trees' ∧
        (∀ i, i ∈ trees' ↔ i ∈ trees ∨ Flagged runtimes e.runtime ∧ InTree i e.bytecode) ∧
        takeReached (e :: entries) trees runtimes =
          takeReached entries trees' (runtimes.modify e.runtime .unreached) := by
      by_cases hflag : Flagged runtimes e.runtime
      · obtain ⟨hfull', hmem⟩ :=
          full_retainBytecodeTree hheld (hentries e List.mem_cons_self) hfull
        refine ⟨_, hfull', fun i => by rw [hmem]; simp [hflag], ?_⟩
        rw [takeReached, if_pos (flagged_iff.2 hflag)]
        rfl
      · refine ⟨trees, hfull, fun i => by simp [hflag], ?_⟩
        rw [takeReached, if_neg fun h => hflag (flagged_iff.1 h)]
        rfl
    obtain ⟨trees', hfull', hmem, heq⟩ := hstep
    obtain ⟨hdone, hmem'⟩ := @ih trees' (runtimes.modify e.runtime .unreached)
      (fun e' he => hentries e' (List.mem_cons_of_mem _ he)) hnodup.2 hfull'
    rw [heq]
    refine ⟨hdone, fun i => ?_⟩
    rw [hmem', hmem]
    -- The other runtimes have their flags still.
    have hother : ∀ e' ∈ entries, (Flagged (runtimes.modify e.runtime .unreached) e'.runtime ↔
        Flagged runtimes e'.runtime) := fun e' he =>
      flagged_modify fun h => hnodup.1 (List.mem_map.2 ⟨e', he, h.symm⟩)
    constructor
    · rintro ((hi | hi) | ⟨e', he, hf, hi⟩)
      · exact .inl hi
      · exact .inr ⟨e, List.mem_cons_self, hi⟩
      · exact .inr ⟨e', List.mem_cons_of_mem _ he, (hother e' he).1 hf, hi⟩
    · rintro (hi | ⟨e', he, hf, hi⟩)
      · exact .inl (.inl hi)
      · rcases List.mem_cons.1 he with rfl | he
        · exact .inl (.inr ⟨hf, hi⟩)
        · exact .inr ⟨e', he, (hother e' he).2 hf, hi⟩

end Retained

/-! ## The sweep -/

namespace GcHeap

variable {h : GcHeap}

theorem get_collect_objects (p : ObjectPtr) :
    h.collect.objects.get p = (h.objects.get p).bind WrappedObject.swept := by
  rw [← SlotMap.get_filterMap, collect]
  split <;> rfl

theorem get_collect_strings (p : StringPtr) :
    h.collect.strings.get p = (h.strings.get p).bind StringEntry.swept := by
  rw [← SlotMap.get_filterMap, collect]
  split <;> rfl

theorem collect_countdown : h.collect.cachePruneCountdown = h.cachePruneCountdown := by
  rw [collect]
  split <;> rfl

/-- Counting a collection leaves the objects and the strings. -/
theorem runtimeCachePruneDue_spec : h.runtimeCachePruneDue.2.objects = h.objects ∧
    h.runtimeCachePruneDue.2.strings = h.strings ∧
    (h.runtimeCachePruneDue.1 = true ↔ h.cachePruneCountdown = 1) := by
  have := h.countdown_pos
  rw [runtimeCachePruneDue]
  split
  · exact ⟨rfl, rfl, by simp; omega⟩
  · exact ⟨rfl, rfl, by simp; omega⟩

/-- What is live depends on the objects and the strings only. -/
theorem valIsLive_congr {h' : GcHeap} (ho : h'.objects = h.objects) (hs : h'.strings = h.strings) :
    h'.valIsLive = h.valIsLive := by
  funext v
  cases v <;> simp [valIsLive, ho, hs]

end GcHeap

theorem dropDeadEntries_congr {h h' : GcHeap} (hv : h'.valIsLive = h.valIsLive)
    (c : RuntimeCaches) : c.dropDeadEntries h' = c.dropDeadEntries h := by
  have hclear : ∀ {E : Type} [CacheEntry E], (clearDead h' : Option E → Option E) = clearDead h := by
    intro E _
    funext e
    cases e <;> simp [clearDead, hv]
  simp only [RuntimeCaches.dropDeadEntries, hclear]

namespace Memory

variable (mem : Memory) (live : LiveChunks)

/-- What is visited of the roots, once the dropped handles of the host are removed. -/
def rootNodes : List Node := mem.drainReleased.gcRoots.flatMap GcRoot.nodes

/-- The nodes a collection visits. -/
def Visits (n : Node) : Prop :=
  Tracing.Reaches mem.marking.Live mem.marking.emits mem.rootNodes n

/-- The bytecodes the cache holds, with their nested functions. -/
def Held (c : Chunk) : Prop := ∃ e ∈ mem.bytecodeCaches.slots, c.Within e.2.bytecode

/-- The state with the colours that marking leaves. -/
def colored (m : Marking) : Memory :=
  { mem with
    registry := mem.registry.drainReleased
    heap := m.heap
    upvaluePool := m.upvaluePool
    runtimes := m.runtimes }

theorem sweep_heap : (mem.sweep live).heap = mem.heap.collect.runtimeCachePruneDue.2 := rfl

theorem sweep_upvaluePool : (mem.sweep live).upvaluePool = mem.upvaluePool.sweep := rfl

/-- The state before the runtime caches are pruned. -/
def collectedHeap : Memory :=
  { mem.sweepBytecodeCaches live with heap := (mem.sweepBytecodeCaches live).heap.collect }

theorem sweep_runtimes : (mem.sweep live).runtimes =
    if mem.heap.collect.runtimeCachePruneDue.1 then (mem.collectedHeap live).dropDeadCacheEntries
    else (mem.sweepBytecodeCaches live).runtimes := rfl

theorem sweep_bytecodeCaches : (mem.sweep live).bytecodeCaches =
    (mem.sweepBytecodeCaches live).bytecodeCaches := rfl

/-! ## What is assumed between collections -/

/-- Nothing is marked. -/
structure Clean : Prop where
  objects : ∀ p o, mem.heap.objects.get p = some o → o.color = .unmarked
  strings : ∀ p e, mem.heap.strings.get p = some e → e.color = .unmarked
  cells : ∀ i : Nat, mem.upvaluePool.colors[i]? ≠ some .reachable
  runtimes : ∀ rt ∈ mem.runtimes, rt.caches.reached = false

/-- A bytecode runs on the runtime that the cache has for it. -/
def Caches (bytecode : Chunk) (runtime : RuntimeId) : Prop :=
  (bytecode.identity, ⟨bytecode, runtime⟩) ∈ mem.bytecodeCaches.slots

/-- Every closure and every active frame runs on the runtime that the cache has for its
    bytecode. -/
structure Identified : Prop where
  keys : ∀ e ∈ mem.bytecodeCaches.slots, e.1 = e.2.bytecode.identity
  distinct : (mem.bytecodeCaches.slots.map Prod.fst).Nodup
  runtimes : (mem.bytecodeCaches.slots.map (·.2.runtime)).Nodup
  present : ∀ e ∈ mem.bytecodeCaches.slots, e.2.runtime < mem.runtimes.length
  closures : ∀ p c, (mem.heap.objects.get p).map WrappedObject.raw = some (.luaFn c) →
    mem.Caches c.bytecode c.runtime
  frames : ∀ f ∈ mem.frames, mem.Caches f.bytecode f.runtime
  calls : mem.callStack = mem.frames.map ActiveFrame.bytecode
  coherent : Coherent mem.Held

/-- The runtime of a cached bytecode stays: a visited closure or an active call has the
    bytecode in its tree, or a closure of it is pending. -/
def Retains (e : Nat × BytecodeCacheEntry) : Prop :=
  (∃ p c, mem.Visits (.object p) ∧
    (mem.heap.objects.get p).map WrappedObject.raw = some (.luaFn c) ∧
    e.2.bytecode.Within c.bytecode) ∨
  (∃ c ∈ mem.callStack, e.2.bytecode.Within c) ∨ e.1 ∈ mem.pendingBytecodeCaches

variable {mem live} {mem' : Memory}

theorem Clean.not_marked (h : mem.Clean) (n : Node) : ¬mem.marking.Marked n := by
  cases n with
  | object p =>
    rintro ⟨o, ho, hc⟩
    rw [h.objects p o ho] at hc
    cases hc
  | string p =>
    rintro ⟨e, he, hc⟩
    rw [h.strings p e he] at hc
    cases hc
  | cell r => exact h.cells r.toNat
  | runtime id =>
    rintro ⟨rt, hrt, hr⟩
    rw [h.runtimes rt (List.mem_of_getElem? hrt)] at hr
    cases hr

/-- The bytecodes the roots retain. -/
def retained (mem : Memory) : LiveChunks := mem.drainReleased.gcRoots.foldl LiveChunks.visit {}

/-- A collection marks and then sweeps. -/
theorem collectGarbage_cases (hclean : mem.Clean) (h : mem.collectGarbage = some mem') :
    ∃ m, mem.marking.Traces mem.rootNodes m ∧ m.worklist = [] ∧
      mem' = (mem.colored m).sweep mem.retained := by
  obtain ⟨⟨m₁, live⟩, hroots, h⟩ := Option.bind_eq_some_iff.1 h
  obtain ⟨m₂, hdrain, h⟩ := Option.bind_eq_some_iff.1 h
  obtain ⟨hadv, rfl⟩ := Marking.advances_markRoots hroots
  obtain ⟨htraces, hdone⟩ :=
    Marking.traces_drain (Marking.traces_of_roots hclean.not_marked rfl hadv) hdrain
  exact ⟨m₂, htraces, hdone, (Option.some.inj h).symm⟩

/-- A collection ends when what it traces can be traced. -/
theorem collectGarbage_of_traceable (hclean : mem.Clean)
    (hroots : ∀ root ∈ mem.drainReleased.gcRoots, root.Markable mem.marking)
    (htrace : ∀ p o, mem.Visits (.object p) →
      (mem.heap.objects.get p).map WrappedObject.raw = some o → o.Traceable mem.marking) :
    ∃ mem', mem.collectGarbage = some mem' := by
  obtain ⟨⟨m₁, live⟩, h₁⟩ := Marking.markRoots_of_markable {} hroots
  obtain ⟨hadv, rfl⟩ := Marking.advances_markRoots h₁
  have htraces := Marking.traces_of_roots hclean.not_marked rfl hadv
  -- Before marking nothing is queued, so there are no more to trace than objects.
  have hfuel : m₁.unmarked + m₁.worklist.length ≤ m₁.heap.objects.len := by
    have hlen : m₁.heap.objects.len = mem.heap.objects.len := by
      have := congrArg (fun m => m.entries.length) hadv.same.objects
      simpa [SlotMap.map, SlotMap.len, marking] using this
    rw [hadv.effort, hlen]
    exact List.countP_le_length
  obtain ⟨m₂, h₂⟩ := Marking.drains htraces htrace hfuel
  refine ⟨(mem.colored m₂).sweep mem.retained, ?_⟩
  rw [collectGarbage]
  simp only [Option.bind_eq_bind]
  refine Option.bind_eq_some_iff.2 ⟨_, h₁, Option.bind_eq_some_iff.2 ⟨m₂, h₂, rfl⟩⟩

/-- A runtime is visited through the closures that run on it. -/
theorem visits_runtime {id : RuntimeId} : mem.Visits (.runtime id) ↔ id < mem.runtimes.length ∧
    ∃ p c, mem.Visits (.object p) ∧
      (mem.heap.objects.get p).map WrappedObject.raw = some (.luaFn c) ∧ c.runtime = id := by
  have hvals : ∀ vs : List Val, Node.runtime id ∉ vs.flatMap Val.nodes := by
    intro vs h
    obtain ⟨v, -, h⟩ := List.mem_flatMap.1 h
    cases v <;> simp [Val.nodes] at h
  have htable : ∀ t : Table, Node.runtime id ∉ t.emits := by
    intro t h
    simp only [Table.emits, List.mem_append] at h
    rcases h with (h | h) | h
    · exact hvals _ h
    · obtain ⟨e, -, h⟩ := List.mem_flatMap.1 h
      rcases List.mem_append.1 h with h | h
      · exact hvals _ h
      · have hval : Node.runtime id ∈ [e.2].flatMap Val.nodes := by simpa using h
        exact hvals _ hval
    · simp at h
  have hroot : ∀ root : GcRoot, Node.runtime id ∉ root.nodes := by
    intro root
    cases root with
    | stack values => exact hvals values
    | chunkLiterals values => exact hvals values
    | rootedValues values => exact hvals values
    | varargs values => exact hvals values
    | anchors registry => exact hvals _
    | suspendedEnv env => exact htable _
    | _ => simp [GcRoot.nodes]
  constructor
  · intro h
    cases h with
    | root hr hl =>
      obtain ⟨root, -, hr⟩ := List.mem_flatMap.1 hr
      exact absurd hr (hroot root)
    | @edge n _ hn hm hl =>
      obtain ⟨rt, hrt⟩ := hl
      refine ⟨(List.getElem?_eq_some_iff.1 hrt).1, ?_⟩
      cases n with
      | object p =>
        obtain ⟨o, ho⟩ := Tracing.live_of_reaches hn
        have ho' : mem.heap.objects.get p = some o := ho
        rw [Marking.emits, ho] at hm
        simp only [Option.map_some, Option.getD_some] at hm
        cases hraw : o.raw with
        | table t =>
          rw [hraw] at hm
          exact absurd hm (htable t)
        | luaFn c =>
          rw [hraw] at hm
          refine ⟨p, c, hn, by rw [ho']; simp [hraw], ?_⟩
          rcases List.mem_cons.1 hm with hm | hm
          · exact (Node.runtime.inj hm).symm
          · obtain ⟨r, -, hm⟩ := List.mem_flatMap.1 hm
            rcases List.mem_cons.1 hm with hm | hm
            · cases hm
            · rw [closedNodes] at hm
              split at hm
              · rename_i v _
                exact absurd (by simpa using hm) (hvals [v])
              · cases hm
      | string p => cases hm
      | cell r => cases hm
      | runtime i => cases hm
  · rintro ⟨hlt, p, c, hp, hraw, rfl⟩
    obtain ⟨o, ho, hr⟩ := Option.map_eq_some_iff.1 hraw
    refine .edge hp ?_ ⟨_, List.getElem?_eq_getElem hlt⟩
    have ho' : mem.marking.heap.objects.get p = some o := ho
    rw [Marking.emits, ho']
    simp [hr, RawObject.emits]

/-! ## What a collection leaves -/

/-- The parts of a state after a collection, by the nodes it visits. -/
structure Collected (mem mem' : Memory) : Prop where
  object : ∀ p o, mem'.heap.objects.get p = some o ↔
    mem.heap.objects.get p = some o ∧ mem.Visits (.object p)
  string : ∀ p e, mem'.heap.strings.get p = some e ↔
    mem.heap.strings.get p = some e ∧ mem.Visits (.string p)
  cell : ∀ i, mem'.upvaluePool.Live i ↔ ∃ r : UInt32, r.toNat = i ∧ mem.Visits (.cell r)
  slots : ∀ i, mem'.upvaluePool.Live i → mem'.upvaluePool.slots[i]? = mem.upvaluePool.slots[i]?
  clean : mem'.Clean
  caches : ∀ e, e ∈ mem'.bytecodeCaches.slots ↔ e ∈ mem.bytecodeCaches.slots ∧ mem.Retains e
  sublist : mem'.bytecodeCaches.slots.Sublist mem.bytecodeCaches.slots
  length : mem'.runtimes.length = mem.runtimes.length
  runtimes : ∀ e ∈ mem'.bytecodeCaches.slots, mem'.runtimes[e.2.runtime]? =
    (mem.runtimes[e.2.runtime]?).map fun rt =>
      if mem.heap.cachePruneCountdown = 1 then
        { rt with caches := rt.caches.dropDeadEntries mem'.heap }
      else rt
  frames : mem'.frames = mem.frames
  callStack : mem'.callStack = mem.callStack
  pending : mem'.pendingBytecodeCaches = mem.pendingBytecodeCaches
  suspended : mem'.suspendedEnvs = mem.suspendedEnvs
  opened : mem'.openUpvalues = mem.openUpvalues

section Collected

variable {m : Marking}

theorem visits_iff (ht : mem.marking.Traces mem.rootNodes m) (hdone : m.worklist = []) {n : Node} :
    mem.Visits n ↔ m.Marked n := (Marking.marked_of_drained ht hdone).symm

theorem object_swept (hclean : mem.Clean) (ht : mem.marking.Traces mem.rootNodes m)
    (hdone : m.worklist = []) (p : ObjectPtr) (o : WrappedObject) :
    ((mem.colored m).sweep live).heap.objects.get p = some o ↔
      mem.heap.objects.get p = some o ∧ mem.Visits (.object p) := by
  rw [sweep_heap, GcHeap.runtimeCachePruneDue_spec.1, GcHeap.get_collect_objects,
    visits_iff ht hdone, Option.bind_eq_some_iff]
  have hraw := ht.same.raw p
  constructor
  · rintro ⟨o', ho', hs⟩
    have ho' : m.heap.objects.get p = some o' := ho'
    rw [WrappedObject.swept] at hs
    split at hs
    · rename_i hc
      cases hs
      refine ⟨?_, o', ho', hc⟩
      rw [ho', Option.map_some, eq_comm, Option.map_eq_some_iff] at hraw
      obtain ⟨o, ho, hr⟩ := hraw
      have hcolor := hclean.objects p o ho
      have ho : mem.heap.objects.get p = some o := ho
      rw [ho, ← hr, ← hcolor]
    · cases hs
  · rintro ⟨ho, o', ho', hc⟩
    refine ⟨o', ho', ?_⟩
    have hraw' : o'.raw = o.raw := by
      have ho : mem.marking.heap.objects.get p = some o := ho
      rw [ho, ho'] at hraw
      exact Option.some.inj hraw
    rw [WrappedObject.swept, hc, hraw', ← hclean.objects p o ho]

theorem string_swept (hclean : mem.Clean) (ht : mem.marking.Traces mem.rootNodes m)
    (hdone : m.worklist = []) (p : StringPtr) (e : StringEntry) :
    ((mem.colored m).sweep live).heap.strings.get p = some e ↔
      mem.heap.strings.get p = some e ∧ mem.Visits (.string p) := by
  rw [sweep_heap, GcHeap.runtimeCachePruneDue_spec.2.1, GcHeap.get_collect_strings,
    visits_iff ht hdone, Option.bind_eq_some_iff]
  have hdata := ht.same.data p
  constructor
  · rintro ⟨e', he', hs⟩
    have he' : m.heap.strings.get p = some e' := he'
    rw [StringEntry.swept] at hs
    split at hs
    · rename_i hc
      cases hs
      refine ⟨?_, e', he', hc⟩
      rw [he', Option.map_some, eq_comm, Option.map_eq_some_iff] at hdata
      obtain ⟨e, he, hr⟩ := hdata
      have hcolor := hclean.strings p e he
      have he : mem.heap.strings.get p = some e := he
      rw [he, ← hr, ← hcolor]
    · cases hs
  · rintro ⟨he, e', he', hc⟩
    refine ⟨e', he', ?_⟩
    have hdata' : e'.data = e.data := by
      have he : mem.marking.heap.strings.get p = some e := he
      rw [he, he'] at hdata
      exact Option.some.inj hdata
    rw [StringEntry.swept, hc, hdata', ← hclean.strings p e he]

theorem cell_swept (hclean : mem.Clean) (ht : mem.marking.Traces mem.rootNodes m)
    (hdone : m.worklist = []) (i : Nat) :
    ((mem.colored m).sweep live).upvaluePool.Live i ↔
      ∃ r : UInt32, r.toNat = i ∧ mem.Visits (.cell r) := by
  have hlive : m.upvaluePool.sweep.Live i ↔ m.upvaluePool.colors[i]? = some .reachable := by
    rw [UpvaluePool.live_iff, UpvaluePool.sweep_colors]
    cases m.upvaluePool.colors[i]? with
    | none => simp
    | some c => cases c <;> simp [UpvalueSlotColor.swept]
  rw [sweep_upvaluePool]
  refine hlive.trans ⟨fun hc => ?_, ?_⟩
  · -- A slot without an index is never marked.
    have hlt : i < 2 ^ 32 := by
      by_contra hge
      rw [ht.same.beyond i (Nat.le_of_not_lt hge)] at hc
      exact hclean.cells i hc
    refine ⟨.ofNat i, UpvaluePool.ofNat_toNat hlt, (visits_iff ht hdone).2 ?_⟩
    rwa [Marking.Marked, UpvaluePool.ofNat_toNat hlt]
  · rintro ⟨r, rfl, hv⟩
    exact (visits_iff ht hdone).1 hv

theorem slots_swept (ht : mem.marking.Traces mem.rootNodes m) (i : Nat)
    (h : ((mem.colored m).sweep live).upvaluePool.Live i) :
    ((mem.colored m).sweep live).upvaluePool.slots[i]? = mem.upvaluePool.slots[i]? := by
  rw [sweep_upvaluePool] at h ⊢
  obtain ⟨c, hc, hne⟩ := UpvaluePool.live_iff.1 h
  rw [UpvaluePool.sweep_colors] at hc
  obtain ⟨c', hc', hs⟩ := Option.map_eq_some_iff.1 hc
  have hslots : m.upvaluePool.slots = mem.upvaluePool.slots := ht.same.slots
  refine ((UpvaluePool.swept_sweep _).slots i (.inr ?_)).trans (by rw [← hslots]; rfl)
  rw [hc']
  cases c' with
  | free => exact absurd hs.symm hne
  | unmarked => exact absurd hs.symm hne
  | reachable => simp

theorem activeChunk_mem_gcRoots {c : Chunk} :
    .activeChunk c ∈ mem.drainReleased.gcRoots ↔ c ∈ mem.callStack := by
  simp [gcRoots, drainReleased]

theorem pendingChunk_mem_gcRoots {i : Nat} :
    .pendingChunk i ∈ mem.drainReleased.gcRoots ↔ i ∈ mem.pendingBytecodeCaches := by
  simp [gcRoots, drainReleased]

theorem held_of_caches {c : Chunk} {id : RuntimeId} (h : mem.Caches c id) : mem.Held c :=
  ⟨_, h, .refl _⟩

theorem Identified.call_held (hid : mem.Identified) {c : Chunk} (h : c ∈ mem.callStack) :
    mem.Held c := by
  rw [hid.calls] at h
  obtain ⟨f, hf, rfl⟩ := List.mem_map.1 h
  exact held_of_caches (hid.frames f hf)

/-- A runtime belongs to one bytecode. -/
theorem Identified.eq_of_runtime (hid : mem.Identified) {e e' : Nat × BytecodeCacheEntry}
    (he : e ∈ mem.bytecodeCaches.slots) (he' : e' ∈ mem.bytecodeCaches.slots)
    (h : e.2.runtime = e'.2.runtime) : e = e' :=
  List.inj_on_of_nodup_map hid.runtimes he he' h

/-- The flagged runtimes are those of the visited closures. -/
theorem Identified.flagged_iff (hid : mem.Identified) (ht : mem.marking.Traces mem.rootNodes m)
    (hdone : m.worklist = []) {e : Nat × BytecodeCacheEntry} (he : e ∈ mem.bytecodeCaches.slots) :
    Flagged m.runtimes e.2.runtime ↔ ∃ p c, mem.Visits (.object p) ∧
      (mem.heap.objects.get p).map WrappedObject.raw = some (.luaFn c) ∧
      c.bytecode = e.2.bytecode := by
  have hiff : mem.Visits (.runtime e.2.runtime) ↔ Flagged m.runtimes e.2.runtime :=
    visits_iff ht hdone
  rw [← hiff, visits_runtime]
  constructor
  · rintro ⟨-, p, c, hp, hc, hr⟩
    refine ⟨p, c, hp, hc, ?_⟩
    rw [← hid.eq_of_runtime (hid.closures p c hc) he hr]
  · rintro ⟨p, c, hp, hc, hb⟩
    refine ⟨hid.present e he, p, c, hp, hc, ?_⟩
    -- The bytecode is cached once, under its address.
    have hcache := hid.closures p c hc
    have heq := List.inj_on_of_nodup_map hid.distinct hcache he (by rw [hb, hid.keys e he])
    rw [← heq]

/-- A cached bytecode is in a tree when its address is. -/
theorem Identified.inTree_iff (hid : mem.Identified) {e : Nat × BytecodeCacheEntry}
    (he : e ∈ mem.bytecodeCaches.slots) {c : Chunk} (hc : mem.Held c) :
    InTree e.1 c ↔ e.2.bytecode.Within c := by
  constructor
  · rintro ⟨d, hd, hi⟩
    have heq := hid.coherent.identity d e.2.bytecode (hid.coherent.within _ _ hc hd)
      ⟨e, he, .refl _⟩ (by rw [hi, hid.keys e he])
    exact heq ▸ hd
  · exact fun h => ⟨_, h, (hid.keys e he).symm⟩

/-- The trees that the roots and the flags retain. -/
theorem Identified.mem_trees (hid : mem.Identified) (i : Nat) (runtimes : List BytecodeRuntime) :
    i ∈ (takeReached (mem.bytecodeCaches.slots.map Prod.snd) mem.retained.trees runtimes).1 ↔
      (∃ c ∈ mem.callStack, InTree i c) ∨
      ∃ e ∈ mem.bytecodeCaches.slots, Flagged runtimes e.2.runtime ∧ InTree i e.2.bytecode := by
  have hactive : ∀ c, .activeChunk c ∈ mem.drainReleased.gcRoots → mem.Held c := fun c hc =>
    hid.call_held (activeChunk_mem_gcRoots.1 hc)
  have hentries : ∀ e ∈ mem.bytecodeCaches.slots.map Prod.snd, mem.Held e.bytecode := by
    intro e he
    obtain ⟨e', he', rfl⟩ := List.mem_map.1 he
    exact ⟨e', he', .refl _⟩
  have hnodup : ((mem.bytecodeCaches.slots.map Prod.snd).map (·.runtime)).Nodup := by
    rw [List.map_map]
    exact hid.runtimes
  have hempty : Full mem.Held (LiveChunks.trees {}) := full_empty
  obtain ⟨hfull, htrees⟩ := full_visit hid.coherent hactive hempty
  obtain ⟨-, htaken⟩ := full_takeReached runtimes hid.coherent hentries hnodup hfull
  rw [retained, htaken, htrees]
  refine or_congr ?_ ?_
  · simp only [activeChunk_mem_gcRoots]
    simp
  · simp only [List.mem_map, exists_exists_and_eq_and]

theorem mem_swept_caches (hid : mem.Identified) (ht : mem.marking.Traces mem.rootNodes m)
    (hdone : m.worklist = []) (e : Nat × BytecodeCacheEntry) :
    e ∈ ((mem.colored m).sweep mem.retained).bytecodeCaches.slots ↔
      e ∈ mem.bytecodeCaches.slots ∧ mem.Retains e := by
  show e ∈ mem.bytecodeCaches.slots.filter (fun e => decide (e.1 ∈
    (takeReached (mem.bytecodeCaches.slots.map Prod.snd) mem.retained.trees m.runtimes).1 ∪
      mem.retained.pending.toFinset)) ↔ _
  rw [List.mem_filter, decide_eq_true_eq, Finset.mem_union, List.mem_toFinset]
  refine and_congr_right fun he => ?_
  have hpending : e.1 ∈ mem.retained.pending ↔ e.1 ∈ mem.pendingBytecodeCaches := by
    rw [retained, mem_visit_pending, pendingChunk_mem_gcRoots]
    simp
  have hcalls : (∃ c ∈ mem.callStack, InTree e.1 c) ↔
      ∃ c ∈ mem.callStack, e.2.bytecode.Within c :=
    exists_congr fun c => and_congr_right fun hc => hid.inTree_iff he (hid.call_held hc)
  have hflags : (∃ e' ∈ mem.bytecodeCaches.slots,
        Flagged m.runtimes e'.2.runtime ∧ InTree e.1 e'.2.bytecode) ↔
      ∃ p c, mem.Visits (.object p) ∧
        (mem.heap.objects.get p).map WrappedObject.raw = some (.luaFn c) ∧
        e.2.bytecode.Within c.bytecode := by
    constructor
    · rintro ⟨e', he', hf, hi⟩
      obtain ⟨p, c, hp, hc, hb⟩ := (hid.flagged_iff ht hdone he').1 hf
      refine ⟨p, c, hp, hc, ?_⟩
      rw [hb]
      exact (hid.inTree_iff he ⟨e', he', .refl _⟩).1 hi
    · rintro ⟨p, c, hp, hc, hw⟩
      have hcache := hid.closures p c hc
      exact ⟨_, hcache, (hid.flagged_iff ht hdone hcache).2 ⟨p, c, hp, hc, rfl⟩,
        (hid.inTree_iff he (held_of_caches hcache)).2 hw⟩
  rw [hpending, hid.mem_trees, Retains, hcalls, hflags, or_assoc]
  exact or_left_comm

/-- The runtimes once the flags are taken: they are what they were before marking. -/
theorem taken_runtimes (hclean : mem.Clean) (hid : mem.Identified)
    (ht : mem.marking.Traces mem.rootNodes m) (hdone : m.worklist = []) (trees : Finset Nat) :
    (takeReached (mem.bytecodeCaches.slots.map Prod.snd) trees m.runtimes).2 = mem.runtimes := by
  have hnodup : ((mem.bytecodeCaches.slots.map Prod.snd).map (·.runtime)).Nodup := by
    rw [List.map_map]
    exact hid.runtimes
  refine List.ext_getElem? fun id => ?_
  rw [takeReached_runtimes, getElem?_foldl_modify hnodup]
  have hsame : (m.runtimes[id]?).map BytecodeRuntime.unreached =
      (mem.runtimes[id]?).map BytecodeRuntime.unreached := ht.same.runtime id
  -- Before marking no flag is up.
  have hdown : (mem.runtimes[id]?).map BytecodeRuntime.unreached = mem.runtimes[id]? := by
    cases hrt : mem.runtimes[id]? with
    | none => rfl
    | some rt =>
      have hr := hclean.runtimes rt (List.mem_of_getElem? hrt)
      rw [Option.map_some, BytecodeRuntime.unreached, ← hr]
  split
  · rw [hsame, hdown]
  · rename_i hnot
    rw [← hdown, ← hsame]
    cases hrt : m.runtimes[id]? with
    | none => rfl
    | some rt =>
      -- A flag is up for the runtime of a visited closure, which is cached.
      have hreached : rt.caches.reached = false := by
        by_contra hr
        rw [Bool.not_eq_false] at hr
        have hv : mem.Visits (.runtime id) := (visits_iff ht hdone).2 ⟨rt, hrt, hr⟩
        obtain ⟨-, p, c, -, hc, rfl⟩ := visits_runtime.1 hv
        refine hnot ?_
        rw [List.map_map]
        exact List.mem_map.2 ⟨_, hid.closures p c hc, rfl⟩
      rw [Option.map_some, BytecodeRuntime.unreached, ← hreached]

/-- The runtimes after the sweep. -/
theorem runtimes_swept (hclean : mem.Clean) (hid : mem.Identified)
    (ht : mem.marking.Traces mem.rootNodes m) (hdone : m.worklist = []) (id : RuntimeId) :
    ((mem.colored m).sweep mem.retained).runtimes[id]? =
      if mem.heap.cachePruneCountdown = 1 ∧
        id ∈ ((mem.colored m).sweep mem.retained).bytecodeCaches.slots.map (·.2.runtime) then
        (mem.runtimes[id]?).map fun rt => { rt with
          caches := rt.caches.dropDeadEntries ((mem.colored m).sweep mem.retained).heap }
      else mem.runtimes[id]? := by
  have htaken : ((mem.colored m).sweepBytecodeCaches mem.retained).runtimes = mem.runtimes :=
    taken_runtimes hclean hid ht hdone mem.retained.trees
  have hdue : (mem.colored m).heap.collect.runtimeCachePruneDue.1 = true ↔
      mem.heap.cachePruneCountdown = 1 := by
    rw [GcHeap.runtimeCachePruneDue_spec.2.2, GcHeap.collect_countdown]
    exact Eq.congr_left ht.same.countdown
  have hnodup : (((mem.colored m).sweep mem.retained).bytecodeCaches.slots.map
      (·.2.runtime)).Nodup :=
    hid.runtimes.sublist (List.filter_sublist.map _)
  rw [sweep_runtimes]
  by_cases hc : mem.heap.cachePruneCountdown = 1
  · rw [if_pos (hdue.2 hc), dropDeadCacheEntries]
    refine (getElem?_foldl_modify hnodup id).trans ?_
    simp only [hc, true_and]
    -- Counting the collection frees nothing.
    have hlive : ((mem.colored m).collectedHeap mem.retained).heap.valIsLive =
        ((mem.colored m).sweep mem.retained).heap.valIsLive :=
      (GcHeap.valIsLive_congr GcHeap.runtimeCachePruneDue_spec.1
        GcHeap.runtimeCachePruneDue_spec.2.1).symm
    simp only [dropDeadEntries_congr hlive]
    rw [← htaken]
    rfl
  · rw [if_neg fun h => hc (hdue.1 h), htaken, if_neg fun h => hc h.1]

theorem clean_swept (hclean : mem.Clean) (hid : mem.Identified)
    (ht : mem.marking.Traces mem.rootNodes m) (hdone : m.worklist = []) :
    ((mem.colored m).sweep mem.retained).Clean := by
  refine ⟨fun p o ho => ?_, fun p e he => ?_, fun i hi => ?_, fun rt hrt => ?_⟩
  · exact hclean.objects p o ((object_swept hclean ht hdone p o).1 ho).1
  · exact hclean.strings p e ((string_swept hclean ht hdone p e).1 he).1
  · rw [sweep_upvaluePool, UpvaluePool.sweep_colors] at hi
    obtain ⟨c, -, hc⟩ := Option.map_eq_some_iff.1 hi
    cases c <;> cases hc
  · obtain ⟨id, hid'⟩ := List.mem_iff_getElem?.1 hrt
    rw [runtimes_swept hclean hid ht hdone] at hid'
    split at hid'
    · obtain ⟨rt', hrt', rfl⟩ := Option.map_eq_some_iff.1 hid'
      exact hclean.runtimes rt' (List.mem_of_getElem? hrt')
    · exact hclean.runtimes rt (List.mem_of_getElem? hid')

end Collected

/-- What a collection leaves. -/
theorem collected (hclean : mem.Clean) (hid : mem.Identified) (h : mem.collectGarbage = some mem') :
    Collected mem mem' := by
  obtain ⟨m, ht, hdone, rfl⟩ := collectGarbage_cases hclean h
  refine ⟨object_swept hclean ht hdone, string_swept hclean ht hdone, cell_swept hclean ht hdone,
    slots_swept ht, clean_swept hclean hid ht hdone, mem_swept_caches hid ht hdone,
    List.filter_sublist, ?_, fun e he => ?_, rfl, rfl, rfl, rfl, rfl⟩
  · have htaken : ((mem.colored m).sweepBytecodeCaches mem.retained).runtimes = mem.runtimes :=
      taken_runtimes hclean hid ht hdone mem.retained.trees
    rw [sweep_runtimes]
    split
    · rw [dropDeadCacheEntries, length_foldl_modify]
      exact congrArg List.length htaken
    · rw [htaken]
  · rw [runtimes_swept hclean hid ht hdone]
    by_cases hc : mem.heap.cachePruneCountdown = 1
    · rw [if_pos ⟨hc, List.mem_map_of_mem he⟩]
      simp [hc]
    · simp [hc]

theorem coherent_held_of_subset (h : Coherent mem.Held)
    (hsub : ∀ e ∈ mem'.bytecodeCaches.slots, e ∈ mem.bytecodeCaches.slots) :
    Coherent mem'.Held := by
  have hheld : ∀ c, mem'.Held c → mem.Held c := fun c ⟨e, he, hw⟩ => ⟨e, hsub e he, hw⟩
  refine ⟨fun c d ⟨e, he, hw⟩ hd => ⟨e, he, hd.trans hw⟩, fun c d hc hd => ?_⟩
  exact h.identity c d (hheld c hc) (hheld d hd)

/-- After a collection, what is left runs on cached runtimes. -/
theorem Collected.identified (hid : mem.Identified) (h : Collected mem mem') : mem'.Identified where
  keys e he := hid.keys e (h.sublist.subset he)
  distinct := hid.distinct.sublist (h.sublist.map _)
  runtimes := hid.runtimes.sublist (h.sublist.map _)
  present e he := h.length ▸ hid.present e (h.sublist.subset he)
  closures p c hc := by
    obtain ⟨o, ho, hr⟩ := Option.map_eq_some_iff.1 hc
    obtain ⟨ho', hv⟩ := (h.object p o).1 ho
    have hc' : (mem.heap.objects.get p).map WrappedObject.raw = some (.luaFn c) := by
      rw [ho', Option.map_some, hr]
    exact (h.caches _).2 ⟨hid.closures p c hc', .inl ⟨p, c, hv, hc', .refl _⟩⟩
  frames f hf := by
    rw [h.frames] at hf
    refine (h.caches _).2 ⟨hid.frames f hf, .inr (.inl ⟨f.bytecode, ?_, .refl _⟩)⟩
    rw [hid.calls]
    exact List.mem_map_of_mem hf
  calls := by rw [h.callStack, h.frames, hid.calls]
  coherent := coherent_held_of_subset hid.coherent fun _ he => h.sublist.subset he

end Memory

end Dellingr
