import Dellingr.Vm.Collection
import Dellingr.Vm.Table.Refinement

/-!
# Exactness of a collection

What a collection is for: it frees the objects, the captured variables and the strings
that the roots do not reach, and nothing else. Here reachability is that of the program
(`Memory.Reaches`): a table names its keys, those of cleared slots included, its values
and its metatable, a closure its captured variables, and a closed variable its value.

The collector does not quite follow these edges. It skips the dead prefix of a window,
and it marks the value of a closed variable along with the closure that captures it. What
it visits is nevertheless what is reached (`visits_iff_reaches`): a dead prefix is nil,
and a variable that only the list of open ones names is open.
-/

namespace Dellingr

/-- What a table names: its keys, values and metatable. -/
def Table.nodes (t : Table) : List Node :=
  t.array.flatMap Val.nodes ++ t.storage.slots.flatMap slotNodes ++ t.metatable.toList.map .object

/-- What a root names. -/
def GcRoot.named : GcRoot → List Node
  | .suspendedEnv env => env.contents.nodes
  | root => root.nodes

/-! ## The entries of a runtime cache -/

/-- A cell of the caches of a runtime. -/
inductive CacheCell
  | globalLookup (i : Nat)
  | field (i : Nat)
  | methodFirst (i : Nat)
  | methodSecond (i : Nat)
  | stringMethod (i : Nat)
  | setField (i : Nat)
  | tforCursor (i : Nat)

/-- An entry of any of the caches. -/
inductive AnyCacheEntry
  | globalLookup (e : GlobalLookupCacheEntry)
  | field (e : FieldLookupCacheEntry)
  | method (e : MethodLookupCacheEntry)
  | stringMethod (e : StringMethodCacheEntry)
  | tforCursor (e : TforCursorEntry)
  deriving DecidableEq

/-- What an entry names. -/
def AnyCacheEntry.handles : AnyCacheEntry → List Val
  | globalLookup e => CacheEntry.handles e
  | field e => CacheEntry.handles e
  | method e => CacheEntry.handles e
  | stringMethod e => CacheEntry.handles e
  | tforCursor e => CacheEntry.handles e

/-- The entry of a cell. -/
def RuntimeCaches.entryAt (c : RuntimeCaches) : CacheCell → Option AnyCacheEntry
  | .globalLookup i => (c.globalLookup[i]?.join).map .globalLookup
  | .field i => (c.fieldLookup[i]?.bind (·.fieldEntry)).map .field
  | .methodFirst i => (c.fieldLookup[i]?.bind (·.methodFirst)).map .method
  | .methodSecond i => (c.fieldLookup[i]?.bind (·.methodSecond)).map .method
  | .stringMethod i => (c.fieldLookup[i]?.bind (·.stringMethodEntry)).map .stringMethod
  | .setField i => (c.setFieldLookup[i]?.join).map .field
  | .tforCursor i => (c.tforCursor[i]?.join).map .tforCursor

theorem map_clearDead {E : Type} [CacheEntry E] (h : GcHeap) {f : E → AnyCacheEntry}
    (hf : ∀ e, (f e).handles = CacheEntry.handles e) (e : Option E) :
    (clearDead h e).map f = (e.map f).filter fun e => e.handles.all h.valIsLive := by
  cases e with
  | none => rfl
  | some e =>
    rw [clearDead, Option.map_some, Option.filter_some, hf]
    split <;> rfl

/-- Exactly the entries stay that name live values only. -/
theorem entryAt_dropDeadEntries (h : GcHeap) (c : RuntimeCaches) (a : CacheCell) :
    (c.dropDeadEntries h).entryAt a = (c.entryAt a).filter fun e => e.handles.all h.valIsLive := by
  have hcells : ∀ {E : Type} [CacheEntry E] (l : List (Option E)) (i : Nat),
      ((l.map (clearDead h))[i]?).join = clearDead h (l[i]?).join := by
    intro E _ l i
    rw [List.getElem?_map]
    cases l[i]? <;> rfl
  have hslots : ∀ {E : Type} [CacheEntry E] (f : FieldLookupCacheSlot → Option E)
      (g : FieldLookupCacheSlot → FieldLookupCacheSlot) (i : Nat),
      (∀ slot, f (g slot) = clearDead h (f slot)) →
      ((c.fieldLookup.map g)[i]?).bind f = clearDead h ((c.fieldLookup[i]?).bind f) := by
    intro E _ f g i hg
    rw [List.getElem?_map]
    cases c.fieldLookup[i]? with
    | none => rfl
    | some slot => exact hg slot
  cases a with
  | globalLookup i =>
    rw [RuntimeCaches.entryAt, RuntimeCaches.dropDeadEntries, hcells]
    exact map_clearDead h (fun _ => rfl) _
  | field i =>
    rw [RuntimeCaches.entryAt, RuntimeCaches.dropDeadEntries, hslots _ _ i fun _ => rfl]
    exact map_clearDead h (fun _ => rfl) _
  | methodFirst i =>
    rw [RuntimeCaches.entryAt, RuntimeCaches.dropDeadEntries, hslots _ _ i fun _ => rfl]
    exact map_clearDead h (fun _ => rfl) _
  | methodSecond i =>
    rw [RuntimeCaches.entryAt, RuntimeCaches.dropDeadEntries, hslots _ _ i fun _ => rfl]
    exact map_clearDead h (fun _ => rfl) _
  | stringMethod i =>
    rw [RuntimeCaches.entryAt, RuntimeCaches.dropDeadEntries, hslots _ _ i fun _ => rfl]
    exact map_clearDead h (fun _ => rfl) _
  | setField i =>
    rw [RuntimeCaches.entryAt, RuntimeCaches.dropDeadEntries, hcells]
    exact map_clearDead h (fun _ => rfl) _
  | tforCursor i =>
    rw [RuntimeCaches.entryAt, RuntimeCaches.dropDeadEntries, hcells]
    exact map_clearDead h (fun _ => rfl) _

/-! ## Reachability -/

/-- The nodes of a list that skipping nil values leaves. -/
theorem Table.emits_eq {t : Table} (h : t.WindowOk) : t.emits = t.nodes := by
  have hprefix : (t.array.take t.lead).flatMap Val.nodes = [] := by
    refine List.flatMap_eq_nil_iff.2 fun v hv => ?_
    obtain ⟨i, hi, hv⟩ := List.mem_take_iff_getElem.1 hv
    have hnil := h.prefix_nil i (by omega)
    rw [List.getElem?_eq_getElem (by omega), hv] at hnil
    rw [Option.some.inj hnil]
    rfl
  rw [emits, nodes]
  conv_rhs => rw [← List.take_append_drop t.lead t.array, List.flatMap_append, hprefix]
  rfl

namespace Memory

variable (mem : Memory)

/-- What a node names. -/
def edges : Node → List Node
  | .object p =>
    match (mem.heap.objects.get p).map WrappedObject.raw with
    | some (.table t) => t.nodes
    | some (.luaFn c) => c.upvalues.map .cell
    | none => []
  | .cell r => closedNodes mem.upvaluePool.slots r
  | _ => []

/-- What the roots name. -/
def roots : List Node := mem.drainReleased.gcRoots.flatMap GcRoot.named

/-- What the roots reach. -/
def Reaches (n : Node) : Prop := Tracing.Reaches mem.marking.Live mem.edges mem.roots n

/-- What holds of a state between collections: nothing is marked, closures and frames run on
    cached runtimes, the dead prefixes of windows are nil, the captured variables of closures
    are in use, and those on the list of open ones are open. -/
structure Wf : Prop where
  clean : mem.Clean
  identified : mem.Identified
  tables : ∀ p t, (mem.heap.objects.get p).map WrappedObject.raw = some (.table t) → t.WindowOk
  suspended : ∀ env ∈ mem.suspendedEnvs, env.contents.WindowOk
  captured : ∀ p c, (mem.heap.objects.get p).map WrappedObject.raw = some (.luaFn c) →
    ∀ r ∈ c.upvalues, mem.upvaluePool.Live r.toNat
  opened : ∀ e ∈ mem.openUpvalues, mem.upvaluePool.Live e.2.toNat ∧
    mem.upvaluePool.slots[e.2.toNat]? = some (.open e.1)

variable {mem} {mem' : Memory}

theorem suspendedEnv_mem_gcRoots {env : SuspendedEnv} :
    .suspendedEnv env ∈ mem.drainReleased.gcRoots ↔ env ∈ mem.suspendedEnvs := by
  simp [gcRoots, drainReleased]

theorem openUpvalue_mem_gcRoots {r : UInt32} :
    .openUpvalue r ∈ mem.drainReleased.gcRoots ↔ ∃ i, (i, r) ∈ mem.openUpvalues := by
  simp [gcRoots, drainReleased]

namespace Wf

/-- The roots name what is visited of them. -/
theorem rootNodes_eq (h : mem.Wf) : mem.rootNodes = mem.roots := by
  rw [rootNodes, roots]
  refine List.flatMap_congr fun root hroot => ?_
  cases root with
  | suspendedEnv env =>
    exact Table.emits_eq (h.suspended env (suspendedEnv_mem_gcRoots.1 hroot))
  | _ => rfl

theorem emits_table (h : mem.Wf) {p : ObjectPtr} {t : Table}
    (ht : (mem.heap.objects.get p).map WrappedObject.raw = some (.table t)) :
    mem.marking.emits (.object p) = mem.edges (.object p) := by
  obtain ⟨o, ho, hr⟩ := Option.map_eq_some_iff.1 ht
  have ho' : mem.marking.heap.objects.get p = some o := ho
  rw [edges, ht, Marking.emits, ho', Option.map_some, hr, Option.getD_some]
  exact Table.emits_eq (h.tables p t ht)

/-- A variable that a root names is open. -/
theorem root_cell (h : mem.Wf) {r : UInt32} (hr : Node.cell r ∈ mem.rootNodes) :
    closedNodes mem.upvaluePool.slots r = [] := by
  obtain ⟨root, hroot, hr⟩ := List.mem_flatMap.1 hr
  have hopen : root = .openUpvalue r := by
    cases root with
    | openUpvalue q => rw [Node.cell.inj (List.mem_singleton.1 hr)]
    | suspendedEnv env => exact absurd hr Marking.cell_notMem_emits
    | stack values => exact absurd hr Marking.cell_notMem_vals
    | chunkLiterals values => exact absurd hr Marking.cell_notMem_vals
    | rootedValues values => exact absurd hr Marking.cell_notMem_vals
    | varargs values => exact absurd hr Marking.cell_notMem_vals
    | anchors registry => exact absurd hr Marking.cell_notMem_vals
    | _ => simp [GcRoot.nodes] at hr
  rw [hopen] at hroot
  obtain ⟨i, hi⟩ := openUpvalue_mem_gcRoots.1 hroot
  rw [closedNodes, (h.opened _ hi).2]

end Wf

theorem emits_luaFn {p : ObjectPtr} {c : LuaFn}
    (hc : (mem.heap.objects.get p).map WrappedObject.raw = some (.luaFn c)) :
    mem.marking.emits (.object p) = .runtime c.runtime ::
      c.upvalues.flatMap fun r => .cell r :: closedNodes mem.upvaluePool.slots r := by
  obtain ⟨o, ho, hr⟩ := Option.map_eq_some_iff.1 hc
  have ho' : mem.marking.heap.objects.get p = some o := ho
  rw [Marking.emits, ho', Option.map_some, hr, Option.getD_some]
  rfl

theorem edges_luaFn {p : ObjectPtr} {c : LuaFn}
    (hc : (mem.heap.objects.get p).map WrappedObject.raw = some (.luaFn c)) :
    mem.edges (.object p) = c.upvalues.map .cell := by
  rw [edges, hc]

theorem edges_table {p : ObjectPtr} {t : Table}
    (ht : (mem.heap.objects.get p).map WrappedObject.raw = some (.table t)) :
    mem.edges (.object p) = t.nodes := by
  rw [edges, ht]

theorem raw_of_live {p : ObjectPtr} (h : mem.marking.Live (.object p)) :
    ∃ o, (mem.heap.objects.get p).map WrappedObject.raw = some o := by
  obtain ⟨o, ho⟩ := h
  exact ⟨o.raw, congrArg (Option.map WrappedObject.raw) ho⟩

/-- What is reached is visited. A closed variable is reached through a closure, whose
    visit marks its value. -/
theorem Reaches.visits (h : mem.Wf) {n : Node} (hn : mem.Reaches n) :
    mem.Visits n ∧ ∀ r, n = .cell r → ∀ k ∈ closedNodes mem.upvaluePool.slots r,
      mem.marking.Live k → mem.Visits k := by
  induction hn with
  | root hr hl =>
    rw [← h.rootNodes_eq] at hr
    refine ⟨.root hr hl, ?_⟩
    rintro r rfl k hk
    rw [h.root_cell hr] at hk
    cases hk
  | @edge n k hn hk hl ih =>
    obtain ⟨hv, hcell⟩ := ih
    cases n with
    | object p =>
      obtain ⟨o, ho⟩ := raw_of_live (Tracing.live_of_reaches hn)
      cases o with
      | table t =>
        have hk' : k ∈ mem.marking.emits (.object p) := h.emits_table ho ▸ hk
        refine ⟨.edge hv hk' hl, ?_⟩
        rintro r rfl
        rw [h.emits_table ho, edges_table ho, ← Table.emits_eq (h.tables p t ho)] at hk'
        exact absurd hk' Marking.cell_notMem_emits
      | luaFn c =>
        rw [edges_luaFn ho] at hk
        obtain ⟨r, hr, rfl⟩ := List.mem_map.1 hk
        have hmem : ∀ j ∈ Node.cell r :: closedNodes mem.upvaluePool.slots r,
            j ∈ mem.marking.emits (.object p) := fun j hj => by
          rw [emits_luaFn ho]
          exact List.mem_cons_of_mem _ (List.mem_flatMap.2 ⟨r, hr, hj⟩)
        refine ⟨.edge hv (hmem _ List.mem_cons_self) hl, ?_⟩
        rintro q hq j hj hlj
        cases hq
        exact .edge hv (hmem j (List.mem_cons_of_mem _ hj)) hlj
    | cell r =>
      refine ⟨hcell r rfl k hk hl, ?_⟩
      rintro q rfl
      exact absurd hk Marking.mem_closedNodes
    | string p => cases hk
    | runtime id => cases hk

/-- What is visited is reached, the runtimes aside. -/
theorem Visits.reaches (h : mem.Wf) {n : Node} (hn : mem.Visits n) :
    mem.Reaches n ∨ ∃ id, n = .runtime id := by
  induction hn with
  | root hr hl => exact .inl (.root (h.rootNodes_eq ▸ hr) hl)
  | @edge n k hn hk hl ih =>
    cases n with
    | object p =>
      obtain ⟨o, ho⟩ := raw_of_live (Tracing.live_of_reaches hn)
      have hp : mem.Reaches (.object p) := ih.resolve_right (by simp)
      cases o with
      | table t => exact .inl (.edge hp (h.emits_table ho ▸ hk) hl)
      | luaFn c =>
        rw [emits_luaFn ho] at hk
        rcases List.mem_cons.1 hk with hk | hk
        · exact .inr ⟨_, hk⟩
        obtain ⟨r, hr, hk⟩ := List.mem_flatMap.1 hk
        have hcell : mem.Reaches (.cell r) :=
          .edge hp (edges_luaFn ho ▸ List.mem_map_of_mem hr) (h.captured p c ho r hr)
        rcases List.mem_cons.1 hk with rfl | hk
        · exact .inl hcell
        · exact .inl (.edge hcell hk hl)
    | string p => cases hk
    | cell r => cases hk
    | runtime id => cases hk

theorem visits_object (h : mem.Wf) {p : ObjectPtr} :
    mem.Visits (.object p) ↔ mem.Reaches (.object p) :=
  ⟨fun hv => (hv.reaches h).resolve_right (by simp), fun hr => (hr.visits h).1⟩

theorem visits_string (h : mem.Wf) {p : StringPtr} :
    mem.Visits (.string p) ↔ mem.Reaches (.string p) :=
  ⟨fun hv => (hv.reaches h).resolve_right (by simp), fun hr => (hr.visits h).1⟩

theorem visits_cell (h : mem.Wf) {r : UInt32} : mem.Visits (.cell r) ↔ mem.Reaches (.cell r) :=
  ⟨fun hv => (hv.reaches h).resolve_right (by simp), fun hr => (hr.visits h).1⟩

/-- A collection ends. -/
theorem Wf.collects (h : mem.Wf) : ∃ mem', mem.collectGarbage = some mem' := by
  refine collectGarbage_of_traceable h.clean (fun root hroot => ?_) fun p o _ ho => ?_
  · cases root with
    | suspendedEnv env => exact (h.suspended env (suspendedEnv_mem_gcRoots.1 hroot)).lead_le
    | openUpvalue r =>
      obtain ⟨i, hi⟩ := openUpvalue_mem_gcRoots.1 hroot
      exact (h.opened _ hi).1
    | _ => trivial
  · cases o with
    | table t => exact (h.tables p t ho).lead_le
    | luaFn c => exact h.captured p c ho

/-- After a collection all of this holds again. -/
theorem Wf.collected (h : mem.Wf) (hc : Collected mem mem') : mem'.Wf := by
  -- What is left of an object is what it was, and it was visited.
  have hraw : ∀ p o, (mem'.heap.objects.get p).map WrappedObject.raw = some o →
      (mem.heap.objects.get p).map WrappedObject.raw = some o ∧ mem.Visits (.object p) := by
    intro p o ho
    obtain ⟨w, hw, hr⟩ := Option.map_eq_some_iff.1 ho
    obtain ⟨hw', hv⟩ := (hc.object p w).1 hw
    exact ⟨by rw [hw', Option.map_some, hr], hv⟩
  refine ⟨hc.clean, hc.identified h.identified, fun p t ht => h.tables p t (hraw p _ ht).1,
    fun env henv => h.suspended env (hc.suspended ▸ henv), fun p c hlua r hr => ?_, fun e he => ?_⟩
  · obtain ⟨hlua, hv⟩ := hraw p _ hlua
    refine (hc.cell _).2 ⟨r, rfl, .edge hv ?_ (h.captured p c hlua r hr)⟩
    rw [emits_luaFn hlua]
    exact List.mem_cons_of_mem _ (List.mem_flatMap.2 ⟨r, hr, List.mem_cons_self⟩)
  · rw [hc.opened] at he
    obtain ⟨hlive, hopen⟩ := h.opened e he
    have hroot : Node.cell e.2 ∈ mem.rootNodes :=
      List.mem_flatMap.2 ⟨_, openUpvalue_mem_gcRoots.2 ⟨e.1, he⟩, List.mem_singleton_self _⟩
    have hlive' : mem'.upvaluePool.Live e.2.toNat := (hc.cell _).2 ⟨e.2, rfl, .root hroot hlive⟩
    exact ⟨hlive', by rw [hc.slots _ hlive', hopen]⟩

/-! ## Exactness -/

/-- What a collection does to a state. -/
structure Exact (mem mem' : Memory) : Prop where
  /-- The objects that are not reached are freed. -/
  object_freed : ∀ p o, mem.heap.objects.get p = some o →
    (mem'.heap.objects.get p = none ↔ ¬mem.Reaches (.object p))
  /-- The objects that are left are as they were. -/
  object_kept : ∀ p o, mem'.heap.objects.get p = some o → mem.heap.objects.get p = some o
  string_freed : ∀ p e, mem.heap.strings.get p = some e →
    (mem'.heap.strings.get p = none ↔ ¬mem.Reaches (.string p))
  string_kept : ∀ p e, mem'.heap.strings.get p = some e → mem.heap.strings.get p = some e
  cell_freed : ∀ i, mem.upvaluePool.Live i →
    (¬mem'.upvaluePool.Live i ↔ ¬∃ r : UInt32, r.toNat = i ∧ mem.Reaches (.cell r))
  cell_kept : ∀ i, mem'.upvaluePool.Live i →
    mem.upvaluePool.Live i ∧ mem'.upvaluePool.slots[i]? = mem.upvaluePool.slots[i]?
  /-- Every colour is reset, and every flag. -/
  clean : mem'.Clean
  /-- A closure that is left runs on a runtime that stays cached. -/
  closure_cached : ∀ p c, (mem'.heap.objects.get p).map WrappedObject.raw = some (.luaFn c) →
    mem'.Caches c.bytecode c.runtime
  /-- The runtime of an active call stays cached. -/
  active_cached : ∀ c ∈ mem.callStack, ∀ id, mem.Caches c id → mem'.Caches c id
  /-- When the caches are pruned, no entry that is left names something freed. -/
  pruned : mem.heap.cachePruneCountdown = 1 → ∀ e ∈ mem'.bytecodeCaches.slots, ∃ rt rt',
    mem.runtimes[e.2.runtime]? = some rt ∧ mem'.runtimes[e.2.runtime]? = some rt' ∧
    (∀ a entry, rt'.caches.entryAt a = some entry → rt.caches.entryAt a = some entry ∧
      ∀ v ∈ entry.handles, mem'.heap.valIsLive v = true) ∧
    -- And no entry is dropped that names live values only.
    ∀ a entry, rt.caches.entryAt a = some entry →
      (∀ v ∈ entry.handles, mem'.heap.valIsLive v = true) → rt'.caches.entryAt a = some entry
  /-- Otherwise the caches of the cached runtimes are as they were. -/
  unpruned : mem.heap.cachePruneCountdown ≠ 1 → ∀ e ∈ mem'.bytecodeCaches.slots,
    mem'.runtimes[e.2.runtime]? = mem.runtimes[e.2.runtime]?

theorem Collected.pruned (hid : mem.Identified) (h : Collected mem mem')
    (hdue : mem.heap.cachePruneCountdown = 1) (e : Nat × BytecodeCacheEntry)
    (he : e ∈ mem'.bytecodeCaches.slots) : ∃ rt rt',
    mem.runtimes[e.2.runtime]? = some rt ∧ mem'.runtimes[e.2.runtime]? = some rt' ∧
      ∀ a, rt'.caches.entryAt a =
        (rt.caches.entryAt a).filter fun e => e.handles.all mem'.heap.valIsLive := by
  obtain ⟨rt, hrt⟩ : ∃ rt, mem.runtimes[e.2.runtime]? = some rt :=
    ⟨_, List.getElem?_eq_getElem (hid.present e (h.sublist.subset he))⟩
  refine ⟨rt, { rt with caches := rt.caches.dropDeadEntries mem'.heap }, hrt, ?_, ?_⟩
  · rw [h.runtimes e he, hrt, Option.map_some, if_pos hdue]
  · exact entryAt_dropDeadEntries mem'.heap _

/-- A collection frees exactly what is not reached, leaves the rest as it was, resets the
    colours, keeps the runtimes in use and prunes their caches exactly. -/
theorem collect_exact (h : mem.Wf) :
    ∃ mem', mem.collectGarbage = some mem' ∧ Exact mem mem' ∧ mem'.Wf := by
  obtain ⟨mem', hcollect⟩ := h.collects
  have hc := collected h.clean h.identified hcollect
  refine ⟨mem', hcollect, ?_, h.collected hc⟩
  refine ⟨fun p o ho => ?_, fun p o ho => ((hc.object p o).1 ho).1, fun p e he => ?_,
    fun p e he => ((hc.string p e).1 he).1, fun i _ => ?_, fun i hi => ⟨?_, hc.slots i hi⟩, hc.clean,
    (hc.identified h.identified).closures, fun c hcall id hcache => ?_, fun hdue e he => ?_,
    fun hdue e he => ?_⟩
  · rw [← visits_object h, Option.eq_none_iff_forall_ne_some]
    refine ⟨fun hnone hv => hnone o ((hc.object p o).2 ⟨ho, hv⟩), fun hv o' ho' => ?_⟩
    exact hv ((hc.object p o').1 ho').2
  · rw [← visits_string h, Option.eq_none_iff_forall_ne_some]
    refine ⟨fun hnone hv => hnone e ((hc.string p e).2 ⟨he, hv⟩), fun hv e' he' => ?_⟩
    exact hv ((hc.string p e').1 he').2
  · rw [hc.cell i]
    simp only [visits_cell h]
  · obtain ⟨r, rfl, hv⟩ := (hc.cell i).1 hi
    have hlive : mem.marking.Live (.cell r) := Tracing.live_of_reaches hv
    exact hlive
  · exact (hc.caches _).2 ⟨hcache, .inr (.inl ⟨c, hcall, .refl c⟩)⟩
  · obtain ⟨rt, rt', hrt, hrt', hentries⟩ := hc.pruned h.identified hdue e he
    refine ⟨rt, rt', hrt, hrt', fun a entry ha => ?_, fun a entry ha hlive => ?_⟩
    · rw [hentries, Option.filter_eq_some_iff, List.all_eq_true] at ha
      exact ha
    · rw [hentries, Option.filter_eq_some_iff, List.all_eq_true]
      exact ⟨ha, hlive⟩
  · rw [hc.runtimes e he]
    simp [hdue]

end Memory

/-! ## A state to collect -/

/-- A function that captures one variable. -/
def capturing : Chunk := { identity := 1, upvalues := [.local 0] }

/-- A heap with the global table, a closure and a table that nothing names. -/
def capturingHeap : GcHeap where
  objects := ((SlotMap.empty.insert { raw := .table Table.empty }).insert
    { raw := .luaFn ⟨capturing, 0, [0]⟩ }).insert { raw := .table Table.empty }
  strings := SlotMap.empty
  threshold := .disabled
  policy := ⟨2, 1⟩
  cachePruneCountdown := 1
  countdown_pos := Nat.one_pos

/-- The closure is on the stack; what it captures is closed over the global table. -/
def capturingMemory : Memory where
  heap := capturingHeap
  upvaluePool := ⟨[.closed (.obj ⟨0, 0⟩)], [.unmarked], [], rfl⟩
  runtimes := [⟨[], .new capturing⟩]
  bytecodeCaches := ⟨[(1, ⟨capturing, 0⟩)]⟩
  stack := [.obj ⟨1, 0⟩]
  globalEnv := ⟨⟨0, 0⟩, [], [], []⟩
  metaNames := []
  stringMetatable := none
  registry := ⟨.empty, []⟩
  rootedValues := []
  suspendedEnvs := []
  varargStack := []
  openUpvalues := []
  callStack := []
  frames := []
  pendingBytecodeCaches := []
  patterns := ⟨[]⟩
  patternBytes := 0
  formatPointerIds := ⟨[]⟩

/-- The objects of the heap. -/
theorem raw_capturing {p : ObjectPtr} {o : RawObject}
    (h : (capturingMemory.heap.objects.get p).map WrappedObject.raw = some o) :
    o = .table Table.empty ∨ o = .luaFn ⟨capturing, 0, [0]⟩ := by
  obtain ⟨w, hw, rfl⟩ := Option.map_eq_some_iff.1 h
  have hmem := SlotMap.get_eq_some.1 hw
  simp only [capturingMemory, capturingHeap, SlotMap.insert, SlotMap.empty, List.nil_append,
    List.cons_append, List.mem_cons, List.not_mem_nil, or_false, Prod.mk.injEq] at hmem
  rcases hmem with ⟨-, rfl⟩ | ⟨-, rfl⟩ | ⟨-, rfl⟩
  · exact .inl rfl
  · exact .inr rfl
  · exact .inl rfl

theorem held_capturing {c : Chunk} (h : capturingMemory.Held c) : c = capturing := by
  obtain ⟨e, he, hw⟩ := h
  cases List.mem_singleton.1 he
  cases hw with
  | refl => rfl
  | nested hm => cases hm

theorem wf_capturing : capturingMemory.Wf := by
  have hclean : capturingMemory.Clean := by
    refine ⟨fun p o ho => ?_, fun p e he => ?_, fun i hi => ?_, fun rt hrt => ?_⟩
    · have hmem := SlotMap.get_eq_some.1 ho
      simp only [capturingMemory, capturingHeap, SlotMap.insert, SlotMap.empty, List.nil_append,
        List.cons_append, List.mem_cons, List.not_mem_nil, or_false, Prod.mk.injEq] at hmem
      rcases hmem with ⟨-, rfl⟩ | ⟨-, rfl⟩ | ⟨-, rfl⟩ <;> rfl
    · cases he
    · have hmem := List.mem_of_getElem? hi
      cases List.mem_singleton.1 hmem
    · cases List.mem_singleton.1 hrt
      rfl
  have hcoherent : Coherent capturingMemory.Held := by
    refine ⟨?_, fun c d hc hd _ => ?_⟩
    · rintro c d ⟨e, he, hw⟩ hd
      exact ⟨e, he, hd.trans hw⟩
    · rw [held_capturing hc, held_capturing hd]
  refine ⟨hclean, ⟨?_, ?_, ?_, ?_, fun p c hc => ?_, ?_, rfl, hcoherent⟩, fun p t ht => ?_, ?_,
    fun p c hc r hr => ?_, ?_⟩
  · intro e he
    cases List.mem_singleton.1 he
    rfl
  · exact List.nodup_singleton _
  · exact List.nodup_singleton _
  · intro e he
    cases List.mem_singleton.1 he
    exact Nat.one_pos
  · cases (raw_capturing hc).resolve_left (by simp)
    exact List.mem_singleton_self _
  · intro f hf
    cases hf
  · cases (raw_capturing ht).resolve_right (by simp)
    exact Table.empty_ok.window
  · intro env henv
    cases henv
  · cases (raw_capturing hc).resolve_left (by simp)
    cases List.mem_singleton.1 hr
    exact .inl rfl
  · intro e he
    cases he

/-- The collection of this state ends, and is exact. -/
theorem collect_exact_capturing : ∃ mem', capturingMemory.collectGarbage = some mem' ∧
    Memory.Exact capturingMemory mem' ∧ mem'.Wf :=
  Memory.collect_exact wf_capturing

end Dellingr
