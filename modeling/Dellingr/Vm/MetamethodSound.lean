import Dellingr.Lib.HandlerChain
import Dellingr.Vm.Metamethod
import Dellingr.Vm.Table.FieldSlot

/-!
# Resolution is the recursive definition

What a read and a store resolve to is defined by recursion over raw contents and handlers (`MetaHeap.gettable`
and `MetaHeap.settable`, as chains of handlers in the sense of `Dellingr.Lib.HandlerChain`). The walks answer what
the recursive definition answers, as long as the units that it takes fit under the limit, and refuse with the
metamethod depth otherwise, so on every chain that leads into a cycle.

* A cached answer is one the raw lookup gives (`CachesOk`), and the caches stay so.
* Every exit returns the units of the walk, except that of a pending call, which gives their number.
-/

namespace Dellingr.Metamethod

open Effect

/-! ## The recursive definitions -/

namespace MetaHeap

variable (h : MetaHeap) (key : Val)

/-- The `__index` of the metatable of all strings, or nil. -/
def stringHandler : Val :=
  match h.stringMetatable.bind h.asTable with
  | some mt => mt.get (.str h.index)
  | none => .nil

/-- What a value answers when it is indexed, or its handler. -/
def askIndex : Val → Except LuaType Val ⊕ Val
  | .obj p =>
    match h.asTable p with
    | some t =>
      if t.get key ≠ .nil then .inl (.ok (t.get key))
      else if h.metatableField t h.index = .nil then .inl (.ok .nil)
      else .inr (h.metatableField t h.index)
    | none => .inl (.error .function)
  | .str _ => if h.stringHandler = .nil then .inl (.error .string) else .inr h.stringHandler
  | v => .inl (.error (h.typ v))

/-- `v[key]`. A handler takes a level if it is a string or continues. -/
def gettable : Chain Val (Except LuaType Val) where
  ask := h.askIndex key
  callable := h.calls
  levels
    | .str _ => 1
    | v => if (h.askIndex key v).isRight then 1 else 0

/-- The table that takes a store raw, or the handler of the store. -/
def askNewindex : Val → Except LuaType ObjectPtr ⊕ Val
  | .obj p =>
    match h.asTable p with
    | some t =>
      if t.get key ≠ .nil ∨ h.newindexHandler p = .nil then .inl (.ok p)
      else .inr (h.newindexHandler p)
    | none => .inl (.error .function)
  | v => .inl (.error (h.typ v))

/-- `v[key] = value`. A handler takes a level if it continues. -/
def settable : Chain Val (Except LuaType ObjectPtr) where
  ask := h.askNewindex key
  callable := h.calls
  levels v := if (h.askNewindex key v).isRight then 1 else 0

/-- Every table is well formed. -/
def Ok : Prop := ∀ p t, h.asTable p = some t → t.Ok

end MetaHeap

/-! ## Caches -/

/-- The tokens in the caches serve their keys. A field cache serves one key; a table that is named by a weak
    entry is the one the entry was made for. -/
structure CachesOk (s : MetaState) (key : StringPtr) : Prop where
  field : ∀ e t, s.fieldCache.fieldEntry = some e → s.heap.asTable e.table = some t → t.Serves key e.slot
  method : ∀ i e t, s.fieldCache.methodEntries i = some e → s.heap.asTable e.methodTable = some t →
    t.Serves key e.methodSlot
  stringMethod : ∀ e t, s.fieldCache.stringMethodEntry = some e → s.heap.asTable e.stringLib = some t →
    t.Serves key e.slot
  shape : ∀ slot p t, s.stringMtIndexShape = some slot → s.heap.stringMetatable = some p →
    s.heap.asTable p = some t → t.Serves s.heap.index slot

/-- So many units were taken, and nothing else happened outside the caches. -/
structure Took (key : Val) (n : Nat) (s s' : MetaState) : Prop where
  heap : s'.heap = s.heap
  stack : s'.stack = s.stack
  depth : s'.metamethodDepth = s.metamethodDepth + n
  units : s'.units = s.units + n
  caches : ∀ k, key = .str k → CachesOk s k → CachesOk s' k

section Caches

variable {key : Val} {s s' s₁ : MetaState} {n m : Nat} {k : StringPtr} {p : ObjectPtr} {t : Table}

theorem Took.refl : Took key 0 s s := ⟨rfl, rfl, rfl, rfl, fun _ _ h => h⟩

theorem Took.trans (h : Took key n s s₁) (h' : Took key m s₁ s') : Took key (n + m) s s' :=
  ⟨h'.heap.trans h.heap, h'.stack.trans h.stack, by rw [h'.depth, h.depth, Nat.add_assoc],
    by rw [h'.units, h.units, Nat.add_assoc], fun k hk hc => h'.caches k hk (h.caches k hk hc)⟩

theorem Took.zero_trans (h : Took key 0 s s₁) (h' : Took key n s₁ s') : Took key n s s' := Nat.zero_add n ▸ h.trans h'

/-- A computation that only asks the caches, for a string key, and gives an answer `P` of the heap. -/
def Asks (k : StringPtr) (m : Walk (Option Val)) (P : MetaHeap → Val → Prop) (s : MetaState) : Prop :=
  wp m (fun o s' => Took (.str k) 0 s s' ∧ ∀ v, o = some v → P s.heap v) (fun _ _ => False) s

theorem took_setField (h : s.heap.asTable p = some t) {slot : SlotRef} (hs : t.Serves k slot) :
    Took (.str k) 0 s { s with fieldCache := { s.fieldCache with fieldEntry := some ⟨p, slot⟩ } } := by
  refine ⟨rfl, rfl, rfl, rfl, fun k' hk hc => ?_⟩
  obtain rfl := Val.str.inj hk
  refine ⟨fun e u he hu => ?_, hc.method, hc.stringMethod, hc.shape⟩
  obtain rfl := Option.some.inj he
  obtain rfl := Option.some.inj (h.symm.trans hu)
  exact hs

theorem took_setMethod {i : Fin METHOD_ENTRIES} {entry : MethodLookupCacheEntry} {victim : Fin METHOD_ENTRIES}
    (hs : ∀ t, s.heap.asTable entry.methodTable = some t → t.Serves k entry.methodSlot) :
    Took (.str k) 0 s { s with fieldCache :=
      { s.fieldCache with
        methodEntries := Function.update s.fieldCache.methodEntries i (some entry), methodVictim := victim } } := by
  refine ⟨rfl, rfl, rfl, rfl, fun k' hk hc => ?_⟩
  obtain rfl := Val.str.inj hk
  refine ⟨hc.field, fun j e u he hu => ?_, hc.stringMethod, hc.shape⟩
  have hentry : Function.update s.fieldCache.methodEntries i (some entry) j = some e := he
  by_cases hij : j = i
  · rw [hij, Function.update_self] at hentry
    obtain rfl := Option.some.inj hentry
    exact hs u hu
  · rw [Function.update_of_ne hij] at hentry
    exact hc.method j e u hentry hu

theorem took_setStringMethod (h : s.heap.asTable p = some t) {slot : SlotRef} (hs : t.Serves k slot) :
    Took (.str k) 0 s { s with fieldCache := { s.fieldCache with stringMethodEntry := some ⟨p, slot⟩ } } := by
  refine ⟨rfl, rfl, rfl, rfl, fun k' hk hc => ?_⟩
  obtain rfl := Val.str.inj hk
  refine ⟨hc.field, hc.method, fun e u he hu => ?_, hc.shape⟩
  obtain rfl := Option.some.inj he
  obtain rfl := Option.some.inj (h.symm.trans hu)
  exact hs

/-- A token in a cache gives the value of its key, and is renewed where it is stale. -/
theorem asks_slot {entry : SlotRef} {set : SlotRef → Walk Unit} {P : MetaHeap → Val → Prop} (ht : t.Ok)
    (hs : t.Serves k entry) (hP : t.get (.str k) ≠ .nil → P s.heap (t.get (.str k)))
    (hset : ∀ slot, t.Serves k slot → wp (set slot) (fun _ s' => Took (.str k) 0 s s') (fun _ _ => False) s) :
    Asks k (match t.slotValue? entry with
      | some value => return value
      | none => do
        match ← demand (t.renewSlot entry (.str k)) with
        | none => return none
        | some (slot, value) => do
          set slot
          return some value) P s := by
  cases ho : t.slotValue? entry with
  | some o =>
    refine ⟨Took.refl, fun v hv => ?_⟩
    subst hv
    have hval := hs.slotValue? ht ho
    split at hval
    · cases hval
    · rename_i hne
      rw [Option.some.inj hval]
      exact hP hne
  | none =>
    obtain ⟨r, hr, hval⟩ := t.renewSlot_str (s := k) ht entry
    simp only [Asks, wp_bind, wp_demand hr]
    rcases r with _ | ⟨slot, v⟩
    · exact ⟨Took.refl, nofun⟩
    · obtain ⟨hget, hne, hserves⟩ := hval slot v rfl
      simp only [wp_bind]
      refine wp_mono_ok (hset slot hserves) fun _ s' hs' => ⟨hs', fun w hw => ?_⟩
      rw [← Option.some.inj hw, ← hget]
      exact hP (hget ▸ hne)

section Asking

variable {s s' : MetaState} {k : StringPtr} {p : ObjectPtr} {P : MetaHeap → Val → Prop}

theorem asks_get_bind {f : MetaState → Walk (Option Val)} (h : Asks k (f s) P s) : Asks k (get >>= f) P s := h

theorem asks_none : Asks k (return none) P s := ⟨Took.refl, nofun⟩

theorem asks_getCachedField (hok : s.heap.Ok) (hc : CachesOk s k)
    (hP : ∀ t, s.heap.asTable p = some t → t.get (.str k) ≠ .nil → P s.heap (t.get (.str k))) :
    Asks k (getCachedField (.str k) p) P s := by
  rw [getCachedField]
  refine asks_get_bind ?_
  cases he : s.fieldCache.fieldEntry with
  | none => exact asks_none
  | some entry =>
    simp only
    by_cases hp : entry.table = p
    · rw [if_neg (not_not.2 hp)]
      cases ht : s.heap.asTable p with
      | none => exact asks_none
      | some t =>
        refine asks_slot (hok p t ht) (hc.field entry t he (hp ▸ ht)) (hP t ht) fun slot hslot => ?_
        exact took_setField ht hslot
    · rw [if_pos hp]
      exact asks_none

/-- A method entry answers what the handler table of the receiver holds. -/
theorem asks_cachedMethodAt (hok : s.heap.Ok) (hc : CachesOk s k) {i : Fin METHOD_ENTRIES}
    (hP : ∀ mt q t, s.heap.asTable p = some mt → mt.get (.str s.heap.index) = .obj q →
      s.heap.asTable q = some t → t.get (.str k) ≠ .nil → P s.heap (t.get (.str k))) :
    Asks k (cachedMethodAt (.str k) p i) P s := by
  rw [cachedMethodAt]
  refine asks_get_bind ?_
  cases he : s.fieldCache.methodEntries i with
  | none => exact asks_none
  | some entry =>
    simp only
    by_cases hp : p = entry.receiverMetatable
    · rw [if_neg (not_not.2 hp)]
      cases hmt : s.heap.asTable p with
      | none => exact asks_none
      | some mt =>
        obtain ⟨r, hr, hval⟩ := mt.valueIfKey_str (s := s.heap.index) (hok p mt hmt) entry.indexField
        simp only [Asks, wp_bind, wp_demand hr]
        by_cases hq : r = some (.obj entry.methodTable)
        · rw [if_neg (not_not.2 hq)]
          cases ht : s.heap.asTable entry.methodTable with
          | none => exact asks_none
          | some t =>
            refine asks_slot (hok _ t ht) (hc.method i entry t he ht)
              (hP mt _ t hmt (hval _ hq).1 ht) fun slot hslot => ?_
            refine took_setMethod fun u hu => ?_
            obtain rfl := Option.some.inj (ht.symm.trans hu)
            exact hslot
        · rw [if_pos hq]
          exact asks_none
    · rw [if_pos hp]
      exact asks_none

theorem asks_cachedMethodFrom (hok : s.heap.Ok) (hc : CachesOk s k) {positions : List (Fin METHOD_ENTRIES)}
    (hP : ∀ mt q t, s.heap.asTable p = some mt → mt.get (.str s.heap.index) = .obj q →
      s.heap.asTable q = some t → t.get (.str k) ≠ .nil → P s.heap (t.get (.str k))) :
    Asks k (cachedMethodFrom (.str k) p positions) P s := by
  induction positions generalizing s with
  | nil => exact asks_none
  | cons i rest ih =>
    rw [Asks, cachedMethodFrom, wp_bind]
    refine wp_mono_ok (asks_cachedMethodAt hok hc hP) fun o s₁ h₁ => ?_
    obtain ⟨htook, hval⟩ := h₁
    cases o with
    | some v =>
      rw [methodUsed, wp_bind, wp_modify, wp_pure]
      refine ⟨⟨htook.heap, htook.stack, htook.depth, htook.units, fun k' hk hc' => ?_⟩, hval⟩
      have := htook.caches k' hk hc'
      exact ⟨this.field, this.method, this.stringMethod, this.shape⟩
    | none =>
      have hrest := @ih s₁ (by rw [htook.heap]; exact hok) (htook.caches k rfl hc) (by rw [htook.heap]; exact hP)
      refine wp_mono_ok hrest fun o s₂ h₂ => ?_
      rw [htook.heap] at h₂
      exact ⟨htook.trans h₂.1, h₂.2⟩

/-- The string method entry answers what the handler table of strings holds. -/
theorem asks_getCachedStringMethod (hok : s.heap.Ok) (hc : CachesOk s k)
    (hP : ∀ q t, s.heap.stringHandler = .obj q → s.heap.asTable q = some t → t.get (.str k) ≠ .nil →
      P s.heap (t.get (.str k))) :
    Asks k (getCachedStringMethod (.str k)) P s := by
  rw [getCachedStringMethod]
  refine asks_get_bind ?_
  split
  · rename_i entry shape mt he hshape hmt
    obtain ⟨mtPtr, hptr, hmt⟩ := Option.bind_eq_some_iff.1 hmt
    by_cases hq : mt.readSlot shape = some (.obj entry.stringLib)
    · rw [if_neg (not_not.2 hq)]
      cases ht : s.heap.asTable entry.stringLib with
      | none => exact asks_none
      | some t =>
        refine asks_slot (hok _ t ht) (hc.stringMethod entry t he ht) (hP _ t ?_ ht) fun slot hslot => ?_
        · -- The slot of `__index` is current, so it has the handler.
          rw [Table.readSlot] at hq
          have hval' := (hc.shape shape mtPtr mt hshape hptr hmt).slotValue? (hok _ mt hmt) (Option.join_eq_some_iff.1 hq)
          rw [MetaHeap.stringHandler, hptr, Option.bind_some, hmt]
          split at hval'
          · cases hval'
          · exact (Option.some.inj hval').symm
        · exact took_setStringMethod ht hslot
    · rw [if_pos hq]
      exact asks_none
  · exact asks_none

/-- An answer of the caches, if there are any. -/
theorem wp_ifCached {key : Val} {cached : Bool} {m : Walk (Option Val)} {P : MetaHeap → Val → Prop}
    {Q : Option Val → MetaState → Prop} {E : MetaError → MetaState → Prop}
    (hc : cached = true → ∃ k, key = .str k ∧ Asks k m P s)
    (hnone : ∀ s', Took key 0 s s' → Q none s') (hsome : ∀ v s', Took key 0 s s' → P s.heap v → Q (some v) s') :
    wp (ifCached cached m) Q E s := by
  cases cached with
  | false => exact hnone s Took.refl
  | true =>
    obtain ⟨k, rfl, hasks⟩ := hc rfl
    refine wp_mono hasks (fun o s' h => ?_) fun _ _ h => h.elim
    cases o with
    | none => exact hnone s' h.1
    | some v => exact hsome v s' h.1 (h.2 v rfl)

end Asking

end Caches

/-! ## How a walk ends -/

/-- The units fit under the limit. -/
def Fits (s : MetaState) (n : Nat) : Prop := n = 0 ∨ s.metamethodDepth + n ≤ MAX_METAMETHOD_DEPTH

/-- So many units were taken and a call window was pushed. -/
structure Pushed (key : Val) (window : List Val) (n : Nat) (s s' : MetaState) : Prop where
  heap : s'.heap = s.heap
  stack : s'.stack = s.stack ++ window
  depth : s'.metamethodDepth = s.metamethodDepth + n
  units : s'.units = s.units + n
  caches : ∀ k, key = .str k → CachesOk s k → CachesOk s' k

/-- Why a walk that resolves a value refuses. -/
inductive Refusal {α : Type} (c : Chain Val (Except LuaType α)) (v : Val) (s : MetaState) : MetaError → Prop
  /-- The recursive definition does. -/
  | tableIndex {n : Nat} {typ : LuaType} (h : c.Resolves v n (.answer (.error typ))) (hn : Fits s n) :
    Refusal c v s (.tableIndex typ)
  /-- The units do not fit, or nothing is resolved. -/
  | depthExceeded {depth : Nat} (h : ∀ n e, c.Resolves v n e → ¬Fits s n) :
    Refusal c v s (.metamethodDepthExceeded depth MAX_METAMETHOD_DEPTH)
  /-- The cost of the frame cannot be settled before a call. -/
  | budgetExceeded {n : Nat} {w o : Val} (h : c.Resolves v n (.call w o)) (hn : Fits s n) :
    Refusal c v s .budgetExceeded
  /-- There is no room for the window of a call. -/
  | stackOverflow {n size : Nat} {w o : Val} (h : c.Resolves v n (.call w o)) (hn : Fits s n) :
    Refusal c v s (.stackOverflow size MAX_STACK_SIZE)

/-- A walk that refuses has taken units and done nothing else. -/
def Refuses {α : Type} (c : Chain Val (Except LuaType α)) (key v : Val) (s : MetaState) (e : MetaError)
    (s' : MetaState) : Prop := Refusal c v s e ∧ ∃ n, Took key n s s'

/-- A walk that ends at a function handler has pushed its window, on top of the operands. -/
def Calls {α : Type} (c : Chain Val (Except LuaType α)) (key v : Val) (operands : List Val) (s s' : MetaState) : Prop :=
  ∃ n w o, c.Resolves v n (.call w o) ∧ Fits s n ∧ Pushed key ([w, o] ++ operands) n s s'

section Ends

variable {α : Type} {c : Chain Val (Except LuaType α)} {key v w : Val} {operands : List Val} {s s₁ s' : MetaState}
  {n : Nat} {e : MetaError}

theorem fits_succ (h : Took key 1 s s₁) (hlt : s.metamethodDepth < MAX_METAMETHOD_DEPTH) :
    Fits s₁ n ↔ Fits s (n + 1) := by
  have hd := h.depth
  rw [Fits, Fits]
  omega

theorem Took.pushed (h : Took key n s s₁) {window : List Val} {m : Nat} (h' : Pushed key window m s₁ s') :
    Pushed key window (n + m) s s' :=
  ⟨h'.heap.trans h.heap, by rw [h'.stack, h.stack], by rw [h'.depth, h.depth, Nat.add_assoc],
    by rw [h'.units, h.units, Nat.add_assoc], fun k hk hc => h'.caches k hk (h.caches k hk hc)⟩

/-- What holds from a handler that takes a level on holds from the value that names it. -/
theorem Refuses.through (h : Took key 1 s s₁) (hlt : s.metamethodDepth < MAX_METAMETHOD_DEPTH)
    (ha : c.ask v = .inr w) (hw : c.callable w = false) (hl : c.levels w = 1) (hr : Refuses c key w s₁ e s') :
    Refuses c key v s e s' := by
  obtain ⟨hrefusal, n, htook⟩ := hr
  refine ⟨?_, _, h.trans htook⟩
  have hthrough : ∀ {n e}, c.Resolves w n e → c.Resolves v (n + 1) e := fun hr => hl ▸ .through ha hw hr
  cases hrefusal with
  | tableIndex hr hn => exact .tableIndex (hthrough hr) ((fits_succ h hlt).1 hn)
  | depthExceeded hr =>
    refine .depthExceeded fun n x hv hn => ?_
    obtain ⟨m, rfl, hm⟩ := hv.of_through ha hw
    rw [hl] at hn
    exact hr m x hm ((fits_succ h hlt).2 hn)
  | budgetExceeded hr hn => exact .budgetExceeded (hthrough hr) ((fits_succ h hlt).1 hn)
  | stackOverflow hr hn => exact .stackOverflow (hthrough hr) ((fits_succ h hlt).1 hn)

theorem Calls.through (h : Took key 1 s s₁) (hlt : s.metamethodDepth < MAX_METAMETHOD_DEPTH)
    (ha : c.ask v = .inr w) (hw : c.callable w = false) (hl : c.levels w = 1) (hr : Calls c key w operands s₁ s') :
    Calls c key v operands s s' := by
  obtain ⟨n, f, o, hr, hn, hpushed⟩ := hr
  refine ⟨n + 1, f, o, hl ▸ .through ha hw hr, (fits_succ h hlt).1 hn, ?_⟩
  rw [Nat.add_comm]
  exact h.pushed hpushed

/-- A unit is taken, or the limit refuses it. -/
theorem wp_takeMetamethodUnit (key : Val) {Q : Unit → MetaState → Prop} {E : MetaError → MetaState → Prop}
    (hQ : s.metamethodDepth < MAX_METAMETHOD_DEPTH → ∀ s', Took key 1 s s' → Q () s')
    (hE : MAX_METAMETHOD_DEPTH ≤ s.metamethodDepth →
      E (.metamethodDepthExceeded s.metamethodDepth MAX_METAMETHOD_DEPTH) s) : wp takeMetamethodUnit Q E s := by
  rw [takeMetamethodUnit, wp_bind, wp_get]
  refine wp_ite hE fun hlt => ?_
  exact hQ (Nat.lt_of_not_le hlt) _
    ⟨rfl, rfl, rfl, rfl, fun k _ hc => ⟨hc.field, hc.method, hc.stringMethod, hc.shape⟩⟩

theorem fits_zero (h : Took key 0 s s₁) : Fits s₁ n ↔ Fits s n := by
  rw [Fits, Fits, h.depth, Nat.add_zero]

/-- Nothing has been taken before. -/
theorem Refuses.zero (h : Took key 0 s s₁) (hr : Refuses c key v s₁ e s') : Refuses c key v s e s' := by
  obtain ⟨hrefusal, n, htook⟩ := hr
  refine ⟨?_, n, h.zero_trans htook⟩
  cases hrefusal with
  | tableIndex hr hn => exact .tableIndex hr ((fits_zero h).1 hn)
  | depthExceeded hr => exact .depthExceeded fun n x hv hn => hr n x hv ((fits_zero h).2 hn)
  | budgetExceeded hr hn => exact .budgetExceeded hr ((fits_zero h).1 hn)
  | stackOverflow hr hn => exact .stackOverflow hr ((fits_zero h).1 hn)

theorem Calls.zero (h : Took key 0 s s₁) (hr : Calls c key v operands s₁ s') : Calls c key v operands s s' := by
  obtain ⟨n, f, o, hr, hn, hpushed⟩ := hr
  refine ⟨n, f, o, hr, (fits_zero h).1 hn, ?_⟩
  rw [← Nat.zero_add n]
  exact h.pushed hpushed

/-- A value that can be neither indexed nor called. -/
theorem wp_indexHandlerError {β : Type} {Q : β → MetaState → Prop} (hr : c.Resolves v 0 (.answer (.error (s.heap.typ w)))) :
    wp (indexHandlerError w : Walk β) Q (Refuses c key v s) s :=
  ⟨.tableIndex hr (.inl rfl), 0, Took.refl⟩

/-- A step that continues is refused its unit where none fits. -/
theorem refuses_of_full (hfull : MAX_METAMETHOD_DEPTH ≤ s.metamethodDepth)
    (hone : ∀ n x, c.Resolves v n x → 1 ≤ n) {depth : Nat} :
    Refuses c key v s (.metamethodDepthExceeded depth MAX_METAMETHOD_DEPTH) s := by
  refine ⟨.depthExceeded fun n x hr hn => ?_, 0, Took.refl⟩
  have := hone n x hr
  rw [Fits] at hn
  omega

/-- A walk ends at a function handler. -/
theorem wp_call (ha : c.ask v = .inr w) (hw : c.callable w = true) {β : Type} {b : β} {Q : β → MetaState → Prop}
    (hQ : ∀ s', Calls c key v operands s s' → Q b s') :
    wp (takeMetamethodUnit >>= fun _ => pushWindow ([w, v] ++ operands) >>= fun _ => return b) Q
      (Refuses c key v s) s := by
  rw [wp_bind]
  have hcall : c.Resolves v 1 (.call w v) := .call ha hw
  refine wp_takeMetamethodUnit key (fun hlt s₁ h => ?_) fun hfull => ?_
  · have hfits : Fits s 1 := .inr hlt
    simp only [wp_bind, pushWindow, flushLocalCost, wp_get, wp_modify]
    have hsame : ∀ meter localCost, Took key 1 s { s₁ with meter := meter, localCost := localCost } := fun _ _ =>
      ⟨h.heap, h.stack, h.depth, h.units, fun k hk hc =>
        let hc := h.caches k hk hc
        ⟨hc.field, hc.method, hc.stringMethod, hc.shape⟩⟩
    refine wp_ite (fun _ => ?_) fun _ => ⟨.budgetExceeded hcall hfits, 1, hsame _ _⟩
    rw [wp_pure, checkStackSpace, wp_bind, wp_get]
    refine wp_ite (fun _ => ⟨.stackOverflow hcall hfits, 1, hsame _ _⟩) fun _ => ?_
    refine hQ _ ⟨1, w, v, hcall, hfits, h.heap, ?_, h.depth, h.units, fun k hk hc => ?_⟩
    · show s₁.stack ++ _ = _
      rw [h.stack]
    · have := h.caches k hk hc
      exact ⟨this.field, this.method, this.stringMethod, this.shape⟩
  · refine refuses_of_full hfull fun n x hr => ?_
    rw [(hr.of_call ha hw).1]

end Ends

/-! ## Reads -/

section Reads

variable {key v w : Val} {s s' : MetaState} {n fuel : Nat} {cached : Bool} {p : ObjectPtr} {t : Table}
  {fill : Option (ObjectPtr × KeyedIndex)}

/-- What is known of the caches of a walk that has one. -/
def CacheFits (cached : Bool) (key : Val) (s : MetaState) : Prop :=
  cached = true → ∃ k, key = .str k ∧ CachesOk s k

theorem askIndex_obj (ht : s.heap.asTable p = some t) : s.heap.askIndex key (.obj p) =
    if t.get key ≠ .nil then .inl (.ok (t.get key))
    else if s.heap.metatableField t s.heap.index = .nil then .inl (.ok .nil)
    else .inr (s.heap.metatableField t s.heap.index) := by
  rw [MetaHeap.askIndex]
  simp only [ht]

/-- A hit in the handler table of a value. -/
theorem resolves_hit (ha : s.heap.askIndex key v = .inr (.obj p)) (ht : s.heap.asTable p = some t)
    (hne : t.get key ≠ .nil) : (s.heap.gettable key).Resolves v 0 (.answer (.ok (t.get key))) := by
  have hask : s.heap.askIndex key (.obj p) = .inl (.ok (t.get key)) := by rw [askIndex_obj ht, if_pos hne]
  have hcalls : s.heap.calls (.obj p) = false := by
    rw [MetaHeap.asTable] at ht
    rw [MetaHeap.calls, MetaHeap.isLuaFunction]
    split at ht
    · rfl
    · cases ht
  have hl : (s.heap.gettable key).levels (.obj p) = 0 := by
    show (if (s.heap.askIndex key (.obj p)).isRight then 1 else 0) = 0
    rw [hask]
    rfl
  have hr := Chain.Resolves.through (c := s.heap.gettable key) ha hcalls (.answer hask)
  rwa [hl] at hr

/-- What a string yields. -/
theorem wp_stringIndexStep (hok : s.heap.Ok) (hc : CacheFits cached key s) {Q : StringStep → MetaState → Prop}
    {E : MetaError → MetaState → Prop}
    (hdone : ∀ q t s', cached = true → s.heap.stringHandler = .obj q → s.heap.asTable q = some t →
      t.get key ≠ .nil → Took key 0 s s' → Q (.done (t.get key)) s')
    (hnext : ∀ s', s.heap.stringHandler ≠ .nil → Took key 0 s s' → Q (.next s.heap.stringHandler) s')
    (hfail : ∀ s', s.heap.stringHandler = .nil → Took key 0 s s' → E (.tableIndex .string) s') :
    wp (stringIndexStep key cached) Q E s := by
  rw [stringIndexStep, wp_bind]
  refine @wp_ifCached s key cached _ (fun h v => ∃ q t, cached = true ∧ h.stringHandler = .obj q ∧
    h.asTable q = some t ∧ t.get key = v ∧ v ≠ .nil) _ _ (fun hcached => ?_) (fun s₁ h₁ => ?_) fun x s₁ h₁ hx => ?_
  · obtain ⟨k, rfl, hcaches⟩ := hc hcached
    exact ⟨k, rfl, asks_getCachedStringMethod hok hcaches fun q t hq ht hne => ⟨q, t, hcached, hq, ht, rfl, hne⟩⟩
  · -- The caches do not answer.
    simp only [wp_bind, wp_get]
    have hheap := h₁.heap
    cases hmt : s₁.heap.stringMetatable with
    | none =>
      refine hfail s₁ ?_ h₁
      rw [MetaHeap.stringHandler, ← hheap, hmt]
      rfl
    | some mtPtr =>
      simp only
      cases hfound : (s₁.heap.asTable mtPtr).bind fun mt => mt.findSlot (.str s₁.heap.index) with
      | none =>
        refine hfail s₁ ?_ h₁
        rw [MetaHeap.stringHandler, ← hheap, hmt, Option.bind_some]
        cases ht : s₁.heap.asTable mtPtr with
        | none => rfl
        | some mt =>
          rw [ht, Option.bind_some, Table.findSlot_eq_none (hok mtPtr mt (hheap ▸ ht))] at hfound
          exact hfound
      | some found =>
        obtain ⟨shape, handler⟩ := found
        obtain ⟨mt, ht, hfind⟩ := Option.bind_eq_some_iff.1 hfound
        obtain ⟨hget, hne⟩ := Table.get_of_findSlot (hok mtPtr mt (hheap ▸ ht)) hfind
        have hhandler : s.heap.stringHandler = handler := by
          rw [MetaHeap.stringHandler, ← hheap, hmt, Option.bind_some, ht]
          exact hget
        simp only
        split
        · -- The library table holds the key.
          rename_i libPtr slot method heq
          split at heq
          · rename_i q
            obtain ⟨lib, hlib, heq⟩ := Option.bind_eq_some_iff.1 heq
            obtain ⟨⟨slot', method'⟩, hslot, heq⟩ := Option.bind_eq_some_iff.1 heq
            cases heq
            rw [hheap] at hlib
            obtain ⟨rfl, hne'⟩ := Table.get_of_findSlot (hok _ lib hlib) hslot
            simp only [wp_bind, wp_modify, setStringMethod]
            refine hdone _ lib _ rfl hhandler hlib hne' (h₁.zero_trans ?_)
            obtain ⟨k, rfl, -⟩ := hc rfl
            have hshape : Took (.str k) 0 s₁ { s₁ with stringMtIndexShape := some shape } := by
              refine ⟨rfl, rfl, rfl, rfl, fun k' hk hc => ⟨hc.field, hc.method, hc.stringMethod, ?_⟩⟩
              intro slot q u hslot hq hu
              obtain rfl := Option.some.inj hslot
              obtain rfl := Option.some.inj (hmt.symm.trans hq)
              obtain rfl := Option.some.inj (ht.symm.trans hu)
              exact Table.serves_of_findSlot (hok _ mt (hheap ▸ ht)) hfind
            exact hshape.zero_trans (took_setStringMethod (by exact hheap ▸ hlib)
              (Table.serves_of_findSlot (hok _ lib hlib) hslot))
          · cases heq
        · rw [← hhandler]
          exact hnext s₁ (hhandler ▸ hne) h₁
  · obtain ⟨q, t, hcached, hq, ht, rfl, hne⟩ := hx
    exact hdone q t s₁ hcached hq ht hne h₁

/-- An own lookup that misses. -/
theorem askIndex_miss (ht : s.heap.asTable p = some t) (hmiss : t.get key = .nil) : s.heap.askIndex key (.obj p) =
    if s.heap.metatableField t s.heap.index = .nil then .inl (.ok .nil)
    else .inr (s.heap.metatableField t s.heap.index) := by
  rw [askIndex_obj ht, if_neg (not_not.2 hmiss)]

theorem calls_table (ht : s.heap.asTable p = some t) : s.heap.calls (.obj p) = false := by
  rw [MetaHeap.asTable] at ht
  rw [MetaHeap.calls, MetaHeap.isLuaFunction]
  split at ht
  · rfl
  · cases ht

/-- The walk of a read ends with the answer of the recursive definition, with its call, or it refuses. -/
def IndexEnds (key v : Val) (s : MetaState) : Option Val → MetaState → Prop
  | some x, s' => ∃ n, (s.heap.gettable key).Resolves v n (.answer (.ok x)) ∧ Fits s n ∧ Took key n s s'
  | none, s' => Calls (s.heap.gettable key) key v [key] s s'

/-- What holds from a handler that takes a level on holds from the value that names it. -/
theorem wp_through {m : Walk (Option Val)} (ha : s.heap.askIndex key v = .inr w)
    (hw : s.heap.calls w = false) (hl : (s.heap.gettable key).levels w = 1)
    (hm : ∀ s₁, Took key 1 s s₁ → s.metamethodDepth < MAX_METAMETHOD_DEPTH →
      wp m (IndexEnds key w s₁) (Refuses (s₁.heap.gettable key) key w s₁) s₁) :
    wp (takeMetamethodUnit >>= fun _ => m) (IndexEnds key v s) (Refuses (s.heap.gettable key) key v s) s := by
  rw [wp_bind]
  refine wp_takeMetamethodUnit key (fun hlt s₁ h₁ => ?_) fun hfull => ?_
  · refine wp_mono (hm s₁ h₁ hlt) (fun o s' h => ?_) fun e s' h => ?_
    · cases o with
      | some x =>
        obtain ⟨n, hr, hn, htook⟩ := h
        rw [h₁.heap] at hr
        refine ⟨n + 1, hl ▸ .through ha hw hr, (fits_succ h₁ hlt).1 hn, ?_⟩
        rw [Nat.add_comm]
        exact h₁.trans htook
      | none =>
        have hcalls : Calls (s₁.heap.gettable key) key w [key] s₁ s' := h
        rw [h₁.heap] at hcalls
        exact hcalls.through h₁ hlt ha hw hl
    · rw [h₁.heap] at h
      exact h.through h₁ hlt ha hw hl
  · refine refuses_of_full hfull fun n x hr => ?_
    obtain ⟨m, rfl, -⟩ := hr.of_through ha hw
    rw [hl]
    exact Nat.le_add_left ..

theorem IndexEnds.zero {s₁ : MetaState} {o : Option Val} (h : Took key 0 s s₁) (hr : IndexEnds key v s₁ o s') :
    IndexEnds key v s o s' := by
  cases o with
  | some x =>
    obtain ⟨n, hr, hn, htook⟩ := hr
    rw [h.heap] at hr
    exact ⟨n, hr, (fits_zero h).1 hn, h.zero_trans htook⟩
  | none =>
    have hcalls : Calls (s₁.heap.gettable key) key v [key] s₁ s' := hr
    rw [h.heap] at hcalls
    exact hcalls.zero h

/-- A walk that goes on after the caches were asked. -/
theorem wp_zero {s₁ : MetaState} {m : Walk (Option Val)} (h : Took key 0 s s₁)
    (hm : wp m (IndexEnds key v s₁) (Refuses (s₁.heap.gettable key) key v s₁) s₁) :
    wp m (IndexEnds key v s) (Refuses (s.heap.gettable key) key v s) s₁ := by
  refine wp_mono hm (fun o s' ho => ho.zero h) fun e s' he => ?_
  rw [h.heap] at he
  exact he.zero h

/-- A handler that is no table and no string. -/
theorem wp_callIndex (ha : s.heap.askIndex key v = .inr w) (hl : (s.heap.gettable key).levels w = 0)
    (hw : s.heap.askIndex key w = .inl (.error (s.heap.typ w))) :
    wp (callIndex key v w) (IndexEnds key v s) (Refuses (s.heap.gettable key) key v s) s := by
  rw [callIndex, wp_bind, wp_get]
  refine wp_ite (fun hcalls => ?_) fun hcalls => ?_
  · exact @wp_call _ (s.heap.gettable key) _ _ _ [key] _ ha hcalls _ _ _ fun s' h => h
  · refine wp_indexHandlerError ?_
    have hr := Chain.Resolves.through (c := s.heap.gettable key) ha (Bool.eq_false_iff.2 hcalls) (.answer hw)
    rwa [hl] at hr

/-- The loop ends as the recursive definition says, with the value that named the handler. -/
theorem wp_indexLoop (hok : s.heap.Ok) (ha : s.heap.askIndex key v = .inr w)
    (hfill : fill.isSome = true → ∃ k, key = .str k) :
    wp (indexLoop key fuel fill v w) (IndexEnds key v s) (Refuses (s.heap.gettable key) key v s) s := by
  induction fuel generalizing s v w fill with
  | zero => trivial
  | succ fuel ih =>
    rw [indexLoop, wp_bind, wp_get]
    simp only
    split
    · rename_i p
      cases ht : s.heap.asTable p with
      | none =>
        have hobj : s.heap.objects p = .luaFn := by
          rw [MetaHeap.asTable] at ht
          split at ht
          · cases ht
          · assumption
        have hask : s.heap.askIndex key (.obj p) = .inl (.error (s.heap.typ (.obj p))) := by
          rw [MetaHeap.askIndex, MetaHeap.typ, MetaHeap.isLuaFunction]
          simp only [ht, hobj, if_true]
        refine wp_callIndex ha ?_ hask
        show (if (s.heap.askIndex key (.obj p)).isRight then 1 else 0) = 0
        rw [hask]
        rfl
      | some t =>
        simp only
        split
        · -- A hit in the first handler table fills the cache.
          rename_i receiverMetatable indexField methodSlot method hfind
          obtain ⟨k, rfl⟩ := hfill rfl
          obtain ⟨rfl, hne⟩ := Table.get_of_findSlot (hok p t ht) hfind
          refine ⟨0, resolves_hit ha ht hne, .inl rfl, took_setMethod fun u hu => ?_⟩
          obtain rfl := Option.some.inj (ht.symm.trans hu)
          exact Table.serves_of_findSlot (hok p t ht) hfind
        · rename_i fill' _ _ hmiss
          have hvalue : (if fill'.isSome = true then Val.nil else t.get key) = t.get key := by
            split
            · rename_i hsome
              obtain ⟨⟨mt, field⟩, rfl⟩ := Option.isSome_iff_exists.1 hsome
              refine ((Table.findSlot_eq_none (hok p t ht)).1 ?_).symm
              cases hfind : t.findSlot key with
              | none => rfl
              | some e => exact (hmiss mt field e.1 e.2 rfl hfind).elim
            · rfl
          simp only [hvalue]
          refine wp_ite (fun hne => ⟨0, resolves_hit ha ht hne, .inl rfl, Took.refl⟩) fun hnil => ?_
          have hmiss := askIndex_miss ht (not_not.1 hnil)
          refine wp_ite (fun hnext => ?_) fun hnext => ?_
          · -- The handler table has no handler of its own.
            rw [if_pos hnext] at hmiss
            refine ⟨0, ?_, .inl rfl, Took.refl⟩
            have hr := Chain.Resolves.through (c := s.heap.gettable key) ha (calls_table ht) (.answer hmiss)
            have hl : (s.heap.gettable key).levels (.obj p) = 0 := by
              show (if (s.heap.askIndex key (.obj p)).isRight then 1 else 0) = 0
              rw [hmiss]
              rfl
            rwa [hl] at hr
          · rw [if_neg hnext] at hmiss
            refine wp_through ha (calls_table ht) ?_ fun s₁ h₁ _ => ?_
            · show (if (s.heap.askIndex key (.obj p)).isRight then 1 else 0) = 1
              rw [hmiss]
              rfl
            · exact ih (by rw [h₁.heap]; exact hok) (by rw [h₁.heap]; exact hmiss) nofun
    · exact wp_callIndex ha rfl rfl
    · -- A string takes a unit and is asked as a receiver would be.
      rename_i q
      refine wp_through ha rfl rfl fun s₁ h₁ hlt => ?_
      have hok₁ : s₁.heap.Ok := by rw [h₁.heap]; exact hok
      rw [wp_bind]
      refine @wp_stringIndexStep key s₁ false hok₁ (fun h => absurd h (by decide)) _ _
        (fun _ _ _ h => absurd h (by decide)) (fun s₂ hne h₂ => ?_) fun s₂ hnil h₂ => ?_
      · have hask : s₁.heap.askIndex key (.str q) = .inr s₁.heap.stringHandler := if_neg hne
        refine wp_zero h₂ (ih ?_ ?_ hfill)
        · rw [h₂.heap]
          exact hok₁
        · rw [h₂.heap]
          exact hask
      · have hask : s₁.heap.askIndex key (.str q) = .inl (.error .string) := if_pos hnil
        exact ⟨.tableIndex (.answer hask) (.inl rfl), 0, h₂⟩
    · rename_i hobj hfn hstr
      have hask : s.heap.askIndex key w = .inl (.error (s.heap.typ w)) := by
        cases w <;> simp_all [MetaHeap.askIndex]
      have hcalls : s.heap.calls w = false := by
        cases w <;> simp_all [MetaHeap.calls]
      have hl : (s.heap.gettable key).levels w = 0 := by
        cases w with
        | str q => exact absurd rfl (hstr q)
        | obj q => exact absurd rfl (hobj q)
        | _ => rfl
      refine wp_indexHandlerError ?_
      have hr := Chain.Resolves.through (c := s.heap.gettable key) ha hcalls (.answer hask)
      rwa [hl] at hr

/-- A read goes on with the handler of a value, which may be nil. -/
theorem wp_followHandlers (hok : s.heap.Ok)
    (ha : s.heap.askIndex key v = if w = .nil then .inl (.ok .nil) else .inr w)
    (hfill : fill.isSome = true → ∃ k, key = .str k) :
    wp (followHandlers key fill v w) (IndexEnds key v s) (Refuses (s.heap.gettable key) key v s) s := by
  rw [followHandlers]
  refine wp_ite (fun hnil => ?_) fun hne => ?_
  · rw [if_pos hnil] at ha
    exact ⟨0, .answer ha, .inl rfl, Took.refl⟩
  · rw [if_neg hne] at ha
    exact wp_indexLoop hok ha hfill

/-- The own lookup of a table. -/
theorem wp_getTableFieldDirect (hok : s.heap.Ok) (hc : CacheFits cached key s)
    {Q : Option Direct → MetaState → Prop} {E : MetaError → MetaState → Prop}
    (hnone : ∀ s', s.heap.asTable p = none → Took key 0 s s' → Q none s')
    (hhit : ∀ t m s', s.heap.asTable p = some t → t.get key ≠ .nil → Took key 0 s s' →
      Q (some (some (t.get key), m)) s')
    (hmiss : ∀ t s', s.heap.asTable p = some t → t.get key = .nil → Took key 0 s s' →
      Q (some (none, t.metatable)) s') :
    wp (getTableFieldDirect key cached p) Q E s := by
  rw [getTableFieldDirect, wp_bind]
  refine @wp_ifCached s key cached _ (fun h v => ∃ t, h.asTable p = some t ∧ t.get key = v ∧ v ≠ .nil) _ _
    (fun hcached => ?_) (fun s₁ h₁ => ?_) fun x s₁ h₁ hx => ?_
  · obtain ⟨k, rfl, hcaches⟩ := hc hcached
    exact ⟨k, rfl, asks_getCachedField hok hcaches fun t ht hne => ⟨t, ht, rfl, hne⟩⟩
  · simp only [wp_bind, wp_get]
    cases ht : s₁.heap.asTable p with
    | none => exact hnone s₁ (h₁.heap ▸ ht) h₁
    | some t =>
      have ht' : s.heap.asTable p = some t := h₁.heap ▸ ht
      simp only
      cases hf : t.findSlot key with
      | none => exact hmiss t s₁ ht' ((Table.findSlot_eq_none (hok p t ht')).1 hf) h₁
      | some found =>
        obtain ⟨slot, x⟩ := found
        obtain ⟨rfl, hne⟩ := Table.get_of_findSlot (hok p t ht') hf
        simp only [wp_bind, whenCached]
        refine wp_ite (fun hcached => ?_) fun _ => hhit t none s₁ ht' hne h₁
        obtain ⟨k, rfl, -⟩ := hc hcached
        exact hhit t none _ ht' hne
          (h₁.zero_trans (took_setField ht (Table.serves_of_findSlot (hok p t ht') hf)))
  · obtain ⟨t, ht, rfl, hne⟩ := hx
    exact hhit t none s₁ ht hne h₁

/-- Where a read starts: a raw lookup of its receiver has missed, if it says so. -/
def IndexStart.Fits (h : MetaHeap) (receiver key : Val) : IndexStart → Prop
  | .receiver => True
  | .afterRawMiss metatable => ∃ p t, receiver = .obj p ∧ h.asTable p = some t ∧ t.get key = .nil ∧
      t.metatable = some metatable

/-- The walk of a read ends as the recursive definition says. -/
theorem wp_walkIndex (hok : s.heap.Ok) (hc : CacheFits cached key s) {start : IndexStart}
    (hstart : start.Fits s.heap v key) :
    wp (walkIndex key cached v start) (IndexEnds key v s) (Refuses (s.heap.gettable key) key v s) s := by
  cases start with
  | afterRawMiss metatable =>
    obtain ⟨p, t, rfl, ht, hmiss, hmt⟩ := hstart
    rw [walkIndex, wp_bind, wp_get]
    refine wp_followHandlers hok ?_ nofun
    rw [askIndex_miss ht hmiss, MetaHeap.metatableField, hmt]
    rfl
  | receiver =>
    unfold walkIndex
    dsimp only
    split
    · rename_i p
      rw [wp_bind]
      refine wp_getTableFieldDirect hok hc (fun s₁ ht h₁ => ?_) (fun t m s₁ ht hne h₁ => ?_) fun t s₁ ht hmiss h₁ => ?_
      · -- Not a table.
        have hobj : s.heap.objects p = .luaFn := by
          rw [MetaHeap.asTable] at ht
          split at ht
          · cases ht
          · assumption
        have hask : s.heap.askIndex key (.obj p) = .inl (.error (s.heap.typ (.obj p))) := by
          rw [MetaHeap.askIndex, MetaHeap.typ, MetaHeap.isLuaFunction]
          simp only [ht, hobj, if_true]
        refine wp_zero h₁ (wp_indexHandlerError (.answer ?_))
        rw [h₁.heap]
        exact hask
      · refine ⟨0, .answer ?_, .inl rfl, h₁⟩
        show s.heap.askIndex key (.obj p) = _
        rw [askIndex_obj ht, if_pos hne]
      · have hask := askIndex_miss ht hmiss
        have hok₁ : s₁.heap.Ok := by rw [h₁.heap]; exact hok
        cases hmt : t.metatable with
        | none =>
          refine ⟨0, .answer ?_, .inl rfl, h₁⟩
          show s.heap.askIndex key (.obj p) = _
          rw [hask, MetaHeap.metatableField, hmt]
          rfl
        | some metatable =>
          rw [MetaHeap.metatableField, hmt, Option.bind_some] at hask
          simp only [wp_bind]
          refine @wp_ifCached s₁ key cached _ (fun h x => ∃ mt q u, h.asTable metatable = some mt ∧
            mt.get (.str h.index) = .obj q ∧ h.asTable q = some u ∧ u.get key = x ∧ x ≠ .nil) _ _
            (fun hcached => ?_) (fun s₂ h₂ => ?_) fun x s₂ h₂ hx => ?_
          · obtain ⟨k, rfl, hcaches⟩ := hc hcached
            exact ⟨k, rfl, asks_cachedMethodFrom hok₁ (h₁.caches k rfl hcaches) fun mt q u hmt hq hu hne =>
              ⟨mt, q, u, hmt, hq, hu, rfl, hne⟩⟩
          · have htook : Took key 0 s s₂ := h₁.zero_trans h₂
            have hok₂ : s₂.heap.Ok := by rw [htook.heap]; exact hok
            simp only [wp_bind, wp_get]
            cases hfound : (s₂.heap.asTable metatable).bind fun mt => mt.findKeyed (.str s₂.heap.index) with
            | none =>
              -- The metatable has no handler.
              refine ⟨0, .answer (hask.trans ?_), .inl rfl, htook⟩
              rw [htook.heap] at hfound
              cases hmt' : s.heap.asTable metatable with
              | none => rfl
              | some mt =>
                rw [hmt', Option.bind_some, Table.findKeyed_eq_none (hok _ mt hmt')] at hfound
                simp only [hfound, if_true]
            | some found =>
              obtain ⟨indexField, handler⟩ := found
              obtain ⟨mt, hmt', hfind⟩ := Option.bind_eq_some_iff.1 hfound
              rw [htook.heap] at hmt' hfind
              obtain ⟨hget, -⟩ := Table.get_of_findKeyed (hok _ mt hmt') hfind
              refine wp_zero htook (wp_followHandlers hok₂ ?_ fun hsome => ?_)
              · rw [htook.heap, hask, hmt', ← hget]
              · cases cached with
                | false => cases hsome
                | true =>
                  obtain ⟨k, hk, -⟩ := hc rfl
                  exact ⟨k, hk⟩
          · -- The method cache answers.
            obtain ⟨mt, q, u, hmt', hq, hu, rfl, hne⟩ := hx
            rw [h₁.heap] at hmt' hq hu
            refine ⟨0, resolves_hit (p := q) ?_ hu hne, .inl rfl, h₁.zero_trans h₂⟩
            rw [hask, hmt']
            simp only [hq, reduceCtorEq, if_false]
    · rename_i q
      rw [wp_bind]
      refine wp_stringIndexStep hok hc (fun q' t s₁ hcached hq ht hne h₁ => ?_) (fun s₁ hne h₁ => ?_) fun s₁ hnil h₁ => ?_
      · refine ⟨0, resolves_hit (p := q') ?_ ht hne, .inl rfl, h₁⟩
        rw [MetaHeap.askIndex, hq]
        simp only [reduceCtorEq, if_false]
      · have hask : s.heap.askIndex key (.str q) = .inr s.heap.stringHandler := if_neg hne
        refine wp_zero h₁ (wp_followHandlers (by rw [h₁.heap]; exact hok) ?_ nofun)
        rw [h₁.heap, hask, if_neg hne]
      · have hask : s.heap.askIndex key (.str q) = .inl (.error .string) := if_pos hnil
        exact ⟨.tableIndex (.answer hask) (.inl rfl), 0, h₁⟩
    · rename_i hobj hstr
      refine wp_indexHandlerError (.answer ?_)
      show s.heap.askIndex key v = _
      cases v with
      | obj q => exact absurd rfl (hobj q)
      | str q => exact absurd rfl (hstr q)
      | _ => rfl

/-! ### The units of a walk -/

/-- The heap, the stack and the metamethod depth are as before, and the caches answer as before. -/
structure Kept (key : Val) (s s' : MetaState) : Prop where
  heap : s'.heap = s.heap
  stack : s'.stack = s.stack
  depth : s'.metamethodDepth = s.metamethodDepth
  caches : ∀ k, key = .str k → CachesOk s k → CachesOk s' k

/-- A walk starts with no units taken. -/
def start (s : MetaState) : MetaState := { s with units := 0 }

theorem CachesOk.start {k : StringPtr} (h : CachesOk s k) : CachesOk (start s) k :=
  ⟨h.field, h.method, h.stringMethod, h.shape⟩

/-- The units that were taken are returned. -/
theorem wp_returnUnits {d n : Nat} {s₁ : MetaState} (hunits : s₁.units = 0 + n) (hdepth : s₁.metamethodDepth = d + n)
    {Q : Unit → MetaState → Prop} {E : MetaError → MetaState → Prop} (hQ : Q () { s₁ with metamethodDepth := d }) :
    wp returnUnits Q E s₁ := by
  have hle : s₁.units ≤ s₁.metamethodDepth := by omega
  have hsub : s₁.metamethodDepth - s₁.units = d := by omega
  rw [returnUnits, wp_bind, wp_get]
  simp only [wp_bind, wp_require hle, wp_modify, hsub]
  exact hQ

theorem Took.kept (h : Took key n (start s) s') : Kept key s { s' with metamethodDepth := s.metamethodDepth } :=
  ⟨h.heap, h.stack, rfl, fun k hk hc =>
    let hc := h.caches k hk hc.start
    ⟨hc.field, hc.method, hc.stringMethod, hc.shape⟩⟩

/-- A walk starts at the same depth. -/
theorem Refusal.start {α : Type} {c : Chain Val (Except LuaType α)} {e : MetaError} (h : Refusal c v (start s) e) :
    Refusal c v s e := by
  cases h with
  | tableIndex hr hn => exact .tableIndex hr hn
  | depthExceeded hr => exact .depthExceeded hr
  | budgetExceeded hr hn => exact .budgetExceeded hr hn
  | stackOverflow hr hn => exact .stackOverflow hr hn

/-- What a read resolves to: a value, with every unit returned, or a pending call, which holds its units. -/
def IndexResolved (key v : Val) (s : MetaState) : IndexOutcome → MetaState → Prop
  | .value x, s' => (∃ n, (s.heap.gettable key).Resolves v n (.answer (.ok x)) ∧ Fits s n) ∧ Kept key s s'
  | .call n, s' => ∃ w o, (s.heap.gettable key).Resolves v n (.call w o) ∧ Fits s n ∧
      s'.heap = s.heap ∧ s'.stack = s.stack ++ [w, o, key] ∧ s'.metamethodDepth = s.metamethodDepth + n ∧
      ∀ k, key = .str k → CachesOk s k → CachesOk s' k

/-- A read resolves as the recursive definition says, or refuses and leaves the state as it was. -/
theorem wp_resolveIndex (hok : s.heap.Ok) (hc : CacheFits cached key s) {start : IndexStart}
    (hstart : start.Fits s.heap v key) :
    wp (resolveIndex key cached v start) (IndexResolved key v s)
      (fun e s' => Refusal (s.heap.gettable key) v s e ∧ Kept key s s') s := by
  rw [resolveIndex, wp_bind, wp_modify]
  simp only [wp_bind, wp_attempt]
  have hcaches : CacheFits cached key (Metamethod.start s) := fun h =>
    let ⟨k, hk, hc⟩ := hc h
    ⟨k, hk, hc.start⟩
  refine wp_mono (@wp_walkIndex key v (Metamethod.start s) cached hok hcaches start hstart) (fun o s₁ h => ?_)
    fun e s₁ h => ?_
  · cases o with
    | some x =>
      obtain ⟨n, hr, hn, htook⟩ := h
      rw [wp_bind]
      exact wp_returnUnits htook.units htook.depth ⟨⟨n, hr, hn⟩, htook.kept⟩
    | none =>
      obtain ⟨n, w, o, hr, hn, hpushed⟩ := h
      have hunits : s₁.units = n := hpushed.units.trans (Nat.zero_add n)
      simp only [wp_bind, wp_get, wp_pure, hunits]
      exact ⟨w, o, hr, hn, hpushed.heap, hpushed.stack, hpushed.depth, fun k hk hc =>
        hpushed.caches k hk hc.start⟩
  · obtain ⟨hrefusal, n, htook⟩ := h
    exact wp_returnUnits htook.units htook.depth ⟨hrefusal.start, htook.kept⟩

end Reads

/-! ## Stores -/

/-- A table has been put in the place of another, and so many units were taken. -/
structure Put (p : ObjectPtr) (t : Table) (n : Nat) (s s' : MetaState) : Prop where
  heap : s'.heap = s.heap.setTable p t
  stack : s'.stack = s.stack
  depth : s'.metamethodDepth = s.metamethodDepth + n
  units : s'.units = s.units + n

/-- What a store does to the table that takes it: it is made, or it is refused and readers see no change. -/
def StoredAt (key value : Val) (s : MetaState) (p : ObjectPtr) (t' : Table) : Except TableError Unit → Prop
  | .ok () => ∃ t, s.heap.asTable p = some t ∧ t.Stored key value t'
  | .error _ => ∃ t, s.heap.asTable p = some t ∧ t'.Ok ∧ ∀ k, t'.get k = t.get k

/-- A walk that ends at a table has stored in it, or was refused by it. -/
def Stores (key value v : Val) (r : Except TableError Unit) (s s' : MetaState) : Prop :=
  ∃ n p t', (s.heap.settable key).Resolves v n (.answer (.ok p)) ∧ Fits s n ∧ StoredAt key value s p t' r ∧
    Put p t' n s s'

/-- The walk of a store ends in a table or at a call. -/
def StoreEnds (key value v : Val) (s : MetaState) : Bool → MetaState → Prop
  | true, s' => Stores key value v (.ok ()) s s'
  | false, s' => Calls (s.heap.settable key) key v [key, value] s s'

/-- The walk of a store fails in a table or refuses. -/
def StoreFails (key value v : Val) (s : MetaState) (e : MetaError) (s' : MetaState) : Prop :=
  (∃ error, e = .table error ∧ Stores key value v (.error error) s s') ∨ Refuses (s.heap.settable key) key v s e s'

section Stores

variable {A : Allocator} {key value v w : Val} {s s₁ s' : MetaState} {n fuel : Nat} {p : ObjectPtr} {t : Table}

theorem askNewindex_obj (ht : s.heap.asTable p = some t) : s.heap.askNewindex key (.obj p) =
    if t.get key ≠ .nil ∨ s.heap.newindexHandler p = .nil then .inl (.ok p)
    else .inr (s.heap.newindexHandler p) := by
  rw [MetaHeap.askNewindex]
  simp only [ht]

/-- A raw store, as a result and the table afterwards. -/
theorem wp_insertRaw (hok : s.heap.Ok) (ht : s.heap.asTable p = some t) {Q : Unit → MetaState → Prop}
    {E : MetaError → MetaState → Prop}
    (hQ : ∀ t', StoredAt key value s p t' (.ok ()) → Q () { s with heap := s.heap.setTable p t' })
    (hE : ∀ e t', StoredAt key value s p t' (.error e) → E (.table e) { s with heap := s.heap.setTable p t' }) :
    wp (insertRaw A key value p) Q E s := by
  obtain ⟨r, t', he, -⟩ := @Table.insert_refines t A key value (hok p t ht)
  simp only [insertRaw, wp_bind, wp_get, wp_demand ht, wp_demand he, wp_modify, wp_liftExcept]
  cases r with
  | ok u =>
    refine ⟨fun a ha => ?_, by rintro _ ⟨⟩⟩
    exact hQ t' ⟨t, ht, Table.stored_insert (hok p t ht) he⟩
  | error e =>
    refine ⟨by rintro _ ⟨⟩, fun e' he' => ?_⟩
    obtain rfl : MetaError.table e = e' := Except.error.inj he'
    obtain ⟨hok', hget⟩ := Table.get_insert_refused (hok p t ht) he
    exact hE e t' ⟨t, ht, hok', hget⟩

theorem Stores.through {r : Except TableError Unit} (h : Took key 1 s s₁)
    (hlt : s.metamethodDepth < MAX_METAMETHOD_DEPTH) (ha : s.heap.askNewindex key v = .inr w)
    (hw : s.heap.calls w = false) (hl : (s.heap.settable key).levels w = 1) (hr : Stores key value w r s₁ s') :
    Stores key value v r s s' := by
  obtain ⟨n, p, t', hr, hn, hstored, hput⟩ := hr
  rw [h.heap] at hr
  refine ⟨n + 1, p, t', hl ▸ .through ha hw hr, (fits_succ h hlt).1 hn, ?_, ?_⟩
  · cases r with
    | ok u =>
      obtain ⟨t, ht, hstored⟩ := hstored
      exact ⟨t, h.heap ▸ ht, hstored⟩
    | error e =>
      obtain ⟨t, ht, hsame⟩ := hstored
      exact ⟨t, h.heap ▸ ht, hsame⟩
  · refine ⟨by rw [hput.heap, h.heap], by rw [hput.stack, h.stack], ?_, ?_⟩
    · rw [hput.depth, h.depth]
      omega
    · rw [hput.units, h.units]
      omega

/-- The loop of a store ends as the recursive definition says, with the value that named the handler. -/
theorem wp_newindexLoop (hok : s.heap.Ok) (ha : s.heap.askNewindex key v = .inr w) :
    wp (newindexLoop A key value fuel v w) (StoreEnds key value v s) (StoreFails key value v s) s := by
  induction fuel generalizing s v w with
  | zero => trivial
  | succ fuel ih =>
    -- A handler that is no table.
    have hcall : s.heap.askNewindex key w = .inl (.error (s.heap.typ w)) →
        wp (callNewindex key value v w) (StoreEnds key value v s) (StoreFails key value v s) s := by
      intro hask
      rw [callNewindex, wp_bind, wp_get]
      refine wp_ite (fun hcalls => ?_) fun hcalls => ?_
      · exact wp_mono (@wp_call _ (s.heap.settable key) _ _ _ [key, value] _ ha hcalls _ _ _ fun s' h => h)
          (fun _ _ h => h) fun _ _ h => .inr h
      · refine .inr ⟨.tableIndex (n := 0) ?_ (.inl rfl), 0, Took.refl⟩
        have hl : (s.heap.settable key).levels w = 0 := by
          show (if (s.heap.askNewindex key w).isRight then 1 else 0) = 0
          rw [hask]
          rfl
        have hr := Chain.Resolves.through (c := s.heap.settable key) ha (Bool.eq_false_iff.2 hcalls) (.answer hask)
        rwa [hl] at hr
    rw [newindexLoop, wp_bind, wp_get]
    simp only
    split
    · rename_i p
      cases ht : s.heap.asTable p with
      | none =>
        have hobj : s.heap.objects p = .luaFn := by
          rw [MetaHeap.asTable] at ht
          split at ht
          · cases ht
          · assumption
        refine hcall ?_
        rw [MetaHeap.askNewindex, MetaHeap.typ, MetaHeap.isLuaFunction]
        simp only [ht, hobj, if_true]
      | some t =>
        simp only
        have hask : s.heap.askNewindex key (.obj p) = _ := askNewindex_obj ht
        refine wp_ite (fun hnext => ?_) fun hterminal => ?_
        · -- The handler table continues, and takes a unit.
          rw [if_neg fun hor => hor.elim (fun hne => hne hnext.1) hnext.2] at hask
          have hl : (s.heap.settable key).levels (.obj p) = 1 := by
            show (if (s.heap.askNewindex key (.obj p)).isRight then 1 else 0) = 1
            rw [hask]
            rfl
          rw [wp_bind]
          refine wp_takeMetamethodUnit key (fun hlt s₁ h₁ => ?_) fun hfull => .inr ?_
          · have hok₁ : s₁.heap.Ok := by rw [h₁.heap]; exact hok
            have hask₁ : s₁.heap.askNewindex key (.obj p) = .inr (s.heap.newindexHandler p) := by rw [h₁.heap, hask]
            refine wp_mono (ih hok₁ hask₁) (fun b s' h => ?_) fun e s' h => ?_
            · cases b with
              | true => exact Stores.through h₁ hlt ha (calls_table ht) hl h
              | false =>
                have hcalls : Calls (s₁.heap.settable key) key (.obj p) [key, value] s₁ s' := h
                rw [h₁.heap] at hcalls
                exact hcalls.through h₁ hlt ha (calls_table ht) hl
            · rcases h with ⟨error, rfl, hs⟩ | hr
              · exact .inl ⟨error, rfl, hs.through h₁ hlt ha (calls_table ht) hl⟩
              · rw [h₁.heap] at hr
                exact .inr (hr.through h₁ hlt ha (calls_table ht) hl)
          · refine refuses_of_full hfull fun n x hr => ?_
            obtain ⟨m, rfl, -⟩ := hr.of_through ha (calls_table ht)
            rw [hl]
            exact Nat.le_add_left ..
        · -- A terminal table takes the store.
          have hor : t.get key ≠ .nil ∨ s.heap.newindexHandler p = .nil := by
            by_contra hcon
            rw [not_or, not_not] at hcon
            exact hterminal hcon
          rw [if_pos hor] at hask
          have hl : (s.heap.settable key).levels (.obj p) = 0 := by
            show (if (s.heap.askNewindex key (.obj p)).isRight then 1 else 0) = 0
            rw [hask]
            rfl
          have hr := Chain.Resolves.through (c := s.heap.settable key) ha (calls_table ht) (.answer hask)
          rw [hl] at hr
          rw [wp_bind]
          refine wp_insertRaw hok ht (fun t' hs => ?_) fun e t' hs => ?_
          · exact ⟨0, p, t', hr, .inl rfl, hs, rfl, rfl, rfl, rfl⟩
          · exact .inl ⟨e, rfl, 0, p, t', hr, .inl rfl, hs, rfl, rfl, rfl, rfl⟩
    · exact hcall rfl
    · rename_i hobj hfn
      have hcalls : s.heap.calls w = false := by
        cases w <;> simp_all [MetaHeap.calls]
      have hask : s.heap.askNewindex key w = .inl (.error (s.heap.typ w)) := by
        cases w <;> simp_all [MetaHeap.askNewindex]
      have hl : (s.heap.settable key).levels w = 0 := by
        show (if (s.heap.askNewindex key w).isRight then 1 else 0) = 0
        rw [hask]
        rfl
      have hr := Chain.Resolves.through (c := s.heap.settable key) ha hcalls (.answer hask)
      rw [hl] at hr
      exact .inr ⟨.tableIndex hr (.inl rfl), 0, Took.refl⟩

/-- What a store resolves to: one table takes it, with every unit returned, or a pending call holds its units. -/
def StoreResolved (key value v : Val) (s : MetaState) : Option Nat → MetaState → Prop
  | none, s' => (∃ n p t', (s.heap.settable key).Resolves v n (.answer (.ok p)) ∧ Fits s n ∧
      StoredAt key value s p t' (.ok ()) ∧ s'.heap = s.heap.setTable p t') ∧
      s'.stack = s.stack ∧ s'.metamethodDepth = s.metamethodDepth
  | some n, s' => ∃ w o, (s.heap.settable key).Resolves v n (.call w o) ∧ Fits s n ∧ s'.heap = s.heap ∧
      s'.stack = s.stack ++ [w, o, key, value] ∧ s'.metamethodDepth = s.metamethodDepth + n

/-- Why a store fails: the table that takes it refuses, and readers see no change, or the walk does. -/
def StoreRefused (key value v : Val) (s : MetaState) (e : MetaError) (s' : MetaState) : Prop :=
  ((∃ error n p t', e = .table error ∧ (s.heap.settable key).Resolves v n (.answer (.ok p)) ∧ Fits s n ∧
      StoredAt key value s p t' (.error error) ∧ s'.heap = s.heap.setTable p t') ∨
    Refusal (s.heap.settable key) v s e ∧ s'.heap = s.heap) ∧
  s'.stack = s.stack ∧ s'.metamethodDepth = s.metamethodDepth

/-- A store into a value that names a handler resolves as the recursive definition says, or fails with the depth
    and the stack as before. -/
theorem wp_resolveNewindex (hok : s.heap.Ok) (ha : s.heap.askNewindex key v = .inr w) :
    wp (resolveNewindex A key value v w) (StoreResolved key value v s) (StoreRefused key value v s) s := by
  rw [resolveNewindex, wp_bind, wp_modify]
  simp only [wp_bind, wp_attempt]
  refine wp_mono (@wp_newindexLoop A key value v w (start s) _ hok ha) (fun b s₁ h => ?_) fun e s₁ h => ?_
  · cases b with
    | true =>
      obtain ⟨n, p, t', hr, hn, hstored, hput⟩ := h
      rw [wp_bind]
      exact wp_returnUnits hput.units hput.depth ⟨⟨n, p, t', hr, hn, hstored, hput.heap⟩, hput.stack, rfl⟩
    | false =>
      obtain ⟨n, w, o, hr, hn, hpushed⟩ := h
      have hunits : s₁.units = n := hpushed.units.trans (Nat.zero_add n)
      simp only [wp_bind, wp_get, wp_pure, hunits]
      exact ⟨w, o, hr, hn, hpushed.heap, hpushed.stack, hpushed.depth⟩
  · rcases h with ⟨error, rfl, n, p, t', hr, hn, hstored, hput⟩ | ⟨hrefusal, n, htook⟩
    · exact wp_returnUnits hput.units hput.depth
        ⟨.inl ⟨error, n, p, t', rfl, hr, hn, hstored, hput.heap⟩, hput.stack, rfl⟩
    · exact wp_returnUnits htook.units htook.depth ⟨.inr ⟨hrefusal.start, htook.heap⟩, htook.stack, rfl⟩

/-- A store of a key that a table does not hold. -/
theorem wp_storeNewKey (hok : s.heap.Ok) (ht : s.heap.asTable p = some t) (hmiss : t.get key = .nil) :
    wp (storeNewKey A key value p) (StoreResolved key value (.obj p) s) (StoreRefused key value (.obj p) s) s := by
  have hask : s.heap.askNewindex key (.obj p) = _ := askNewindex_obj ht
  rw [storeNewKey, wp_bind, wp_get]
  refine wp_ite (fun hnil => ?_) fun hne => ?_
  · rw [if_pos (.inr hnil)] at hask
    rw [wp_bind]
    refine wp_insertRaw hok ht (fun t' hs => ?_) fun e t' hs => ?_
    · exact ⟨⟨0, p, t', .answer hask, .inl rfl, hs, rfl⟩, rfl, rfl⟩
    · exact ⟨.inl ⟨e, 0, p, t', rfl, .answer hask, .inl rfl, hs, rfl⟩, rfl, rfl⟩
  · rw [if_neg fun hor => hor.elim (fun h => h hmiss) hne] at hask
    exact wp_resolveNewindex hok hask

/-- A store into a value resolves as the recursive definition says, or fails with the depth and the stack as
    before. -/
theorem wp_storeField (hok : s.heap.Ok) (cached : Bool) :
    wp (storeField A key value cached v) (StoreResolved key value v s) (StoreRefused key value v s) s := by
  have hother : s.heap.askNewindex key v = .inl (.error (s.heap.typ v)) →
      wp (indexHandlerError v : Walk (Option Nat)) (StoreResolved key value v s) (StoreRefused key value v s) s :=
    fun hask => ⟨.inr ⟨.tableIndex (.answer hask) (.inl rfl), rfl⟩, rfl, rfl⟩
  rw [storeField, wp_bind, wp_get]
  dsimp only
  split
  · rename_i p
    cases ht : s.heap.asTable p with
    | none =>
      have hobj : s.heap.objects p = .luaFn := by
        rw [MetaHeap.asTable] at ht
        split at ht
        · cases ht
        · assumption
      refine hother ?_
      rw [MetaHeap.askNewindex, MetaHeap.typ, MetaHeap.isLuaFunction]
      simp only [ht, hobj, if_true]
    | some t =>
      have hask : s.heap.askNewindex key (.obj p) = _ := askNewindex_obj ht
      simp only
      cases hf : t.findSlot key with
      | some found =>
        -- The key is there: its slot takes the value.
        obtain ⟨slot, x⟩ := found
        obtain ⟨hget, hne⟩ := Table.get_of_findSlot (hok p t ht) hf
        rw [if_pos (.inl (hget ▸ hne))] at hask
        simp only [wp_bind, storeFound]
        refine wp_ite (fun hnil => ?_) fun hvalue => ?_
        · obtain ⟨r, hr, hstored⟩ := Table.stored_removeSlot (hok p t ht) hf
          simp only [wp_bind, wp_demand hr, wp_modify]
          rw [← hnil] at hstored
          exact ⟨⟨0, p, r.2, .answer hask, .inl rfl, ⟨t, ht, hstored⟩, rfl⟩, rfl, rfl⟩
        · have hstored := Table.stored_storeSlot (hok p t ht) hf hvalue
          simp only [wp_bind, wp_modify, whenCached]
          have hresolved : (∃ n q t', (s.heap.settable key).Resolves (.obj p) n (.answer (.ok q)) ∧ Fits s n ∧
              StoredAt key value s q t' (.ok ()) ∧ s.heap.setTable p (t.storeSlot slot value).2 = s.heap.setTable q t') :=
            ⟨0, p, _, .answer hask, .inl rfl, ⟨t, ht, hstored⟩, rfl⟩
          exact wp_ite (fun _ => ⟨hresolved, rfl, rfl⟩) fun _ => ⟨hresolved, rfl, rfl⟩
      | none =>
        have hmiss := (Table.findSlot_eq_none (hok p t ht)).1 hf
        rw [wp_bind]
        refine wp_mono_ok (wp_storeNewKey hok ht hmiss) fun pending s₁ h => ?_
        rw [wp_bind, whenCached]
        refine wp_ite (fun hcached => ?_) fun _ => h
        have hpending : pending = none := by
          cases pending with
          | none => rfl
          | some n =>
            rw [Option.isNone_some, Bool.and_false] at hcached
            cases hcached
        subst hpending
        rw [cacheStored, wp_bind, wp_get]
        dsimp only
        split
        · exact h
        · exact h
  · rename_i hobj
    refine hother ?_
    cases v with
    | obj q => exact absurd rfl (hobj q)
    | _ => rfl

end Stores

/-! ## Termination -/

section Ends

variable {A : Allocator} {key value v w : Val} {s s₁ : MetaState} {fuel : Nat} {cached : Bool}
  {fill : Option (ObjectPtr × KeyedIndex)}

theorem ne_timeout_bind {α β : Type} {m : Walk α} {f : α → Walk β} (hm : m s ≠ .timeout)
    (hf : ∀ a s', m s = .ok a s' → f a s' ≠ .timeout) : (m >>= f) s ≠ .timeout := by
  cases h : m s with
  | ok a s' =>
    rw [run_bind_of_ok h]
    exact hf a s' h
  | fail e s' =>
    rw [run_bind_of_fail h]
    nofun
  | panic =>
    rw [run_bind_of_panic h]
    nofun
  | timeout => exact absurd h hm

theorem settles_takeMetamethodUnit : Settles takeMetamethodUnit :=
  settles_get.bind fun _ => Settles.ite settles_fail settles_modify

theorem settles_returnUnits : Settles returnUnits :=
  settles_get.bind fun _ => settles_require.bind fun _ => settles_modify

theorem settles_pushWindow {window : List Val} : Settles (pushWindow window) :=
  (settles_get.bind fun _ => settles_modify.bind fun _ => Settles.ite settles_pure settles_fail).bind fun _ =>
    (settles_get.bind fun _ => Settles.ite settles_fail settles_pure).bind fun _ => settles_modify

theorem settles_indexHandlerError {α : Type} : Settles (indexHandlerError w : Walk α) :=
  settles_get.bind fun _ => settles_fail

theorem settles_fillMethod {entry : MethodLookupCacheEntry} : Settles (fillMethod entry) :=
  settles_get.bind fun _ => settles_modify.bind fun _ => settles_modify

/-- A step that goes on has taken a unit. -/
theorem take_loop {α : Type} {m : Walk α} (hf : MAX_METAMETHOD_DEPTH < s.metamethodDepth + (fuel + 1))
    (hm : ∀ s₁ : MetaState, s₁.metamethodDepth ≤ MAX_METAMETHOD_DEPTH →
      MAX_METAMETHOD_DEPTH < s₁.metamethodDepth + fuel → m s₁ ≠ .timeout) :
    (takeMetamethodUnit >>= fun _ => m) s ≠ .timeout := by
  by_cases hlt : s.metamethodDepth < MAX_METAMETHOD_DEPTH
  · have hrun : takeMetamethodUnit s =
        .ok () { s with metamethodDepth := s.metamethodDepth + 1, units := s.units + 1 } := by
      rw [takeMetamethodUnit, run_get_bind, if_neg (Nat.not_le.2 hlt)]
      rfl
    rw [run_bind_of_ok hrun]
    exact hm _ hlt (by show _ < s.metamethodDepth + 1 + fuel; omega)
  · have hrun : takeMetamethodUnit s =
        .fail (.metamethodDepthExceeded s.metamethodDepth MAX_METAMETHOD_DEPTH) s := by
      rw [takeMetamethodUnit, run_get_bind, if_pos (Nat.not_lt.1 hlt)]
      rfl
    rw [run_bind_of_fail hrun]
    nofun

theorem settles_stringIndexStep_uncached : Settles (stringIndexStep key false) := by
  refine Settles.bind settles_pure fun hit => ?_
  cases hit with
  | some x => exact settles_pure
  | none =>
    refine settles_get.bind fun s => ?_
    split
    · exact settles_fail
    · dsimp only
      split
      · exact settles_fail
      · exact settles_pure

/-- Without a cache the step of a string only reads. -/
theorem stringIndexStep_uncached : wp (stringIndexStep key false) (fun _ s' => s' = s) (fun _ _ => True) s := by
  have hasks : wp (ifCached false (getCachedStringMethod key)) (fun hit s' => hit = none ∧ s' = s) (fun _ _ => True) s :=
    ⟨rfl, rfl⟩
  rw [stringIndexStep, wp_bind]
  refine wp_mono_ok hasks ?_
  rintro _ _ ⟨rfl, rfl⟩
  simp only [wp_bind, wp_get]
  split
  · trivial
  · split
    · trivial
    · rfl

theorem settles_callIndex : Settles (callIndex key v w) :=
  settles_get.bind fun _ => Settles.ite (settles_takeMetamethodUnit.bind fun _ =>
    settles_pushWindow.bind fun _ => settles_pure) settles_indexHandlerError

/-- Every step of the loop of a read that goes on takes a unit, so the loop ends. -/
theorem indexLoop_ends (hd : fuel = 0 → s.metamethodDepth ≤ MAX_METAMETHOD_DEPTH)
    (hf : MAX_METAMETHOD_DEPTH < s.metamethodDepth + fuel) : indexLoop key fuel fill v w s ≠ .timeout := by
  induction fuel generalizing s v w fill with
  | zero =>
    have := hd rfl
    omega
  | succ fuel ih =>
    rw [indexLoop, run_get_bind]
    split
    · rename_i p
      cases s.heap.asTable p with
      | none => exact settles_callIndex s
      | some t =>
        have hmiss : ∀ x : Val, (if x ≠ .nil then return some x
            else if s.heap.metatableField t s.heap.index = .nil then return some .nil
            else takeMetamethodUnit >>= fun _ =>
              indexLoop key fuel none (.obj p) (s.heap.metatableField t s.heap.index) : Walk (Option Val)) s ≠
                .timeout := by
          intro x
          split_ifs
          · exact settles_pure s
          · exact settles_pure s
          · exact take_loop hf fun s₁ hle hlt => ih (fun _ => hle) hlt
        dsimp only
        cases fill with
        | none => exact hmiss (t.get key)
        | some field =>
          cases t.findSlot key with
          | none => exact hmiss .nil
          | some found => exact (settles_fillMethod.bind fun _ => settles_pure) s
    · exact settles_callIndex s
    · refine take_loop hf fun s₁ hle hlt => ne_timeout_bind (settles_stringIndexStep_uncached s₁) fun a s₂ hstep => ?_
      have hsame := @stringIndexStep_uncached key s₁
      rw [wp, hstep] at hsame
      obtain rfl : s₂ = s₁ := hsame
      cases a with
      | done x => exact settles_pure s₂
      | next next => exact ih (fun _ => hle) hlt
    · exact settles_indexHandlerError s

theorem settles_callNewindex : Settles (callNewindex key value v w) :=
  settles_get.bind fun _ => Settles.ite (settles_takeMetamethodUnit.bind fun _ =>
    settles_pushWindow.bind fun _ => settles_pure) settles_indexHandlerError

theorem settles_insertRaw {p : ObjectPtr} : Settles (insertRaw A key value p) := by
  refine settles_get.bind fun _ => settles_demand.bind fun _ => settles_demand.bind fun r =>
    settles_modify.bind fun _ => ?_
  obtain ⟨r, t⟩ := r
  cases r with
  | ok u => exact settles_pure
  | error e => exact settles_fail

/-- Every step of the loop of a store that goes on takes a unit, so the loop ends. -/
theorem newindexLoop_ends (hd : fuel = 0 → s.metamethodDepth ≤ MAX_METAMETHOD_DEPTH)
    (hf : MAX_METAMETHOD_DEPTH < s.metamethodDepth + fuel) : newindexLoop A key value fuel v w s ≠ .timeout := by
  induction fuel generalizing s v w with
  | zero =>
    have := hd rfl
    omega
  | succ fuel ih =>
    rw [newindexLoop, run_get_bind]
    split
    · rename_i p
      cases s.heap.asTable p with
      | none => exact settles_callNewindex s
      | some t =>
        dsimp only
        split_ifs
        · exact take_loop hf fun s₁ hle hlt => ih (fun _ => hle) hlt
        · exact (settles_insertRaw.bind fun _ => settles_pure) s
    · exact settles_callNewindex s
    · exact settles_indexHandlerError s

theorem settles_attempt {α : Type} {m : Walk α} (h : Settles m) : Settles m.attempt := by
  intro s
  rw [Effect.attempt]
  cases hm : m s with
  | timeout => exact absurd hm (h s)
  | _ => rintro ⟨⟩

theorem settles_ifCached {α : Type} {m : Walk (Option α)} (h : Settles m) : Settles (ifCached cached m) :=
  Settles.ite h settles_pure

theorem settles_whenCached {m : Walk Unit} (h : Settles m) : Settles (whenCached cached m) := Settles.ite h settles_pure

theorem settles_followHandlers : Settles (followHandlers key fill v w) := by
  refine Settles.ite settles_pure fun s => indexLoop_ends (fun h => ?_) ?_
  · cases h
  · rw [MAX_INDEX_STEPS]
    omega

/-- What a cache does with a token ends. -/
theorem settles_slot {t : Table} {slot : SlotRef} {set : SlotRef → Walk Unit} (h : ∀ slot, Settles (set slot)) :
    Settles (match t.slotValue? slot with
      | some value => return value
      | none => do
        match ← demand (t.renewSlot slot key) with
        | none => return none
        | some (slot, value) => do
          set slot
          return some value) := by
  cases t.slotValue? slot with
  | some o => exact settles_pure
  | none =>
    refine settles_demand.bind fun r => ?_
    cases r with
    | none => exact settles_pure
    | some r => exact (h r.1).bind fun _ => settles_pure

theorem settles_getTableFieldDirect {p : ObjectPtr} : Settles (getTableFieldDirect key cached p) := by
  refine Settles.bind (settles_ifCached ?_) fun hit => ?_
  · refine settles_get.bind fun s => ?_
    split
    · exact settles_pure
    · refine Settles.ite settles_pure ?_
      split
      · exact settles_pure
      · exact settles_slot fun _ => settles_modify
  · cases hit with
    | some x => exact settles_pure
    | none =>
      refine settles_get.bind fun s => ?_
      split
      · exact settles_pure
      · split
        · exact (settles_whenCached settles_modify).bind fun _ => settles_pure
        · exact settles_pure

theorem settles_cachedMethodFrom {p : ObjectPtr} {positions : List (Fin METHOD_ENTRIES)} :
    Settles (cachedMethodFrom key p positions) := by
  induction positions with
  | nil => exact settles_pure
  | cons i rest ih =>
    refine Settles.bind (settles_get.bind fun s => ?_) fun hit => ?_
    · split
      · exact settles_pure
      · refine Settles.ite settles_pure ?_
        split
        · exact settles_pure
        · refine settles_demand.bind fun r => Settles.ite settles_pure ?_
          split
          · exact settles_pure
          · exact settles_slot fun _ => settles_modify
    · cases hit with
      | some x => exact settles_modify.bind fun _ => settles_pure
      | none => exact ih

theorem settles_stringIndexStep : Settles (stringIndexStep key cached) := by
  refine Settles.bind (settles_ifCached (settles_get.bind fun s => ?_)) fun hit => ?_
  · split
    · refine Settles.ite settles_pure ?_
      split
      · exact settles_pure
      · exact settles_slot fun _ => settles_modify
    · exact settles_pure
  · cases hit with
    | some x => exact settles_pure
    | none =>
      refine settles_get.bind fun s => ?_
      dsimp only
      split
      · exact settles_fail
      · split
        · exact settles_fail
        · split
          · exact settles_modify.bind fun _ => settles_modify.bind fun _ => settles_pure
          · exact settles_pure

theorem settles_walkIndex {start : IndexStart} : Settles (walkIndex key cached v start) := by
  cases start with
  | afterRawMiss metatable => exact settles_get.bind fun _ => settles_followHandlers
  | receiver =>
    unfold walkIndex
    dsimp only
    split
    · refine settles_getTableFieldDirect.bind fun direct => ?_
      split
      · exact settles_indexHandlerError
      · exact settles_pure
      · exact settles_pure
      · refine (settles_ifCached settles_cachedMethodFrom).bind fun hit => ?_
        cases hit with
        | some x => exact settles_pure
        | none =>
          refine settles_get.bind fun s => ?_
          split
          · exact settles_pure
          · exact settles_followHandlers
    · refine settles_stringIndexStep.bind fun step => ?_
      cases step with
      | done x => exact settles_pure
      | next w => exact settles_followHandlers
    · exact settles_indexHandlerError

/-- A read ends. -/
theorem settles_resolveIndex {start : IndexStart} : Settles (resolveIndex key cached v start) := by
  refine settles_modify.bind fun _ => (settles_attempt settles_walkIndex).bind fun r => ?_
  split
  · exact settles_returnUnits.bind fun _ => settles_pure
  · exact settles_get.bind fun _ => settles_pure
  · exact settles_returnUnits.bind fun _ => settles_fail

/-- A store ends. -/
theorem settles_resolveNewindex : Settles (resolveNewindex A key value v w) := by
  have hwalk : Settles (walkNewindex A key value v w) := by
    refine fun s => newindexLoop_ends (fun h => ?_) ?_
    · cases h
    · rw [MAX_INDEX_STEPS]
      omega
  refine settles_modify.bind fun _ => (settles_attempt hwalk).bind fun r => ?_
  split
  · exact settles_get.bind fun _ => settles_pure
  · exact settles_returnUnits.bind fun _ => settles_pure
  · exact settles_returnUnits.bind fun _ => settles_fail

end Ends

/-! ## The theorem -/

section Recursive

variable {A : Allocator} {key value v w u : Val} {s : MetaState}

/-- A resolution on a chain that leads into a cycle fails with the metamethod depth. -/
theorem Refusal.of_cycle {α : Type} {c : Chain Val (Except LuaType α)} {e : MetaError} (hr : Refusal c v s e)
    (hv : Relation.ReflTransGen c.Leads v u) (hu : Relation.TransGen c.Leads u u) :
    ∃ depth, e = .metamethodDepthExceeded depth MAX_METAMETHOD_DEPTH := by
  cases hr with
  | depthExceeded => exact ⟨_, rfl⟩
  | tableIndex h | budgetExceeded h | stackOverflow h => exact absurd h (Chain.unresolved_of_cycle hv hu)

theorem resolveIndex_cycle (hok : s.heap.Ok) {cached : Bool} (hc : CacheFits cached key s) {start : IndexStart}
    (hstart : start.Fits s.heap v key) (hv : Relation.ReflTransGen (s.heap.gettable key).Leads v u)
    (hu : Relation.TransGen (s.heap.gettable key).Leads u u) :
    ∃ depth s', resolveIndex key cached v start s = .fail (.metamethodDepthExceeded depth MAX_METAMETHOD_DEPTH) s' ∧
      Kept key s s' := by
  have hwp := wp_resolveIndex hok hc hstart
  have hends := @settles_resolveIndex key v cached start s
  rw [wp] at hwp
  cases hrun : resolveIndex key cached v start s with
  | ok a s' =>
    rw [hrun] at hwp
    cases a with
    | value x =>
      obtain ⟨⟨n, hr, -⟩, -⟩ := hwp
      exact absurd hr (Chain.unresolved_of_cycle hv hu)
    | call n =>
      obtain ⟨w, o, hr, -⟩ := hwp
      exact absurd hr (Chain.unresolved_of_cycle hv hu)
  | fail e s' =>
    rw [hrun] at hwp
    obtain ⟨depth, rfl⟩ := hwp.1.of_cycle hv hu
    exact ⟨depth, s', rfl, hwp.2⟩
  | panic => rw [hrun] at hwp; exact hwp.elim
  | timeout => exact absurd hrun hends

theorem resolveNewindex_cycle (hok : s.heap.Ok) (ha : s.heap.askNewindex key v = .inr w)
    (hv : Relation.ReflTransGen (s.heap.settable key).Leads v u)
    (hu : Relation.TransGen (s.heap.settable key).Leads u u) :
    ∃ depth s', resolveNewindex A key value v w s = .fail (.metamethodDepthExceeded depth MAX_METAMETHOD_DEPTH) s' ∧
      s'.heap = s.heap ∧ s'.stack = s.stack ∧ s'.metamethodDepth = s.metamethodDepth := by
  have hwp := @wp_resolveNewindex A key value v w s hok ha
  have hends := @settles_resolveNewindex A key value v w s
  rw [wp] at hwp
  cases hrun : resolveNewindex A key value v w s with
  | ok a s' =>
    rw [hrun] at hwp
    cases a with
    | none =>
      obtain ⟨⟨n, p, t', hr, -⟩, -⟩ := hwp
      exact absurd hr (Chain.unresolved_of_cycle hv hu)
    | some n =>
      obtain ⟨w, o, hr, -⟩ := hwp
      exact absurd hr (Chain.unresolved_of_cycle hv hu)
  | fail e s' =>
    rw [hrun] at hwp
    obtain ⟨⟨error, n, p, t', -, hr, -⟩ | ⟨hrefusal, hheap⟩, hstack, hdepth⟩ := hwp
    · exact absurd hr (Chain.unresolved_of_cycle hv hu)
    · obtain ⟨depth, rfl⟩ := hrefusal.of_cycle hv hu
      exact ⟨depth, s', rfl, hheap, hstack, hdepth⟩
  | panic => rw [hrun] at hwp; exact hwp.elim
  | timeout => exact absurd hrun hends

end Recursive

/-- The walks are the recursive definitions, on every heap of well-formed tables.

    * The recursive definitions answer at most once.
    * A read ends: with the value of the recursive definition, with its call, or refusing as it does or for lack
      of units, of budget or of room. Everything is as before then, but for a pending call its window and its
      units, and the caches still serve their keys.
    * So does a store, into the table that the recursive definition names.
    * Where the handlers lead into a cycle, both fail with the metamethod depth. -/
theorem resolution_recursive (A : Allocator) (s : MetaState) (key value : Val) (hok : s.heap.Ok) :
    ((∀ v n e n' e', (s.heap.gettable key).Resolves v n e → (s.heap.gettable key).Resolves v n' e' → n = n' ∧ e = e') ∧
      ∀ v n e n' e', (s.heap.settable key).Resolves v n e → (s.heap.settable key).Resolves v n' e' → n = n' ∧ e = e') ∧
    (∀ cached v start, CacheFits cached key s → IndexStart.Fits s.heap v key start →
      resolveIndex key cached v start s ≠ .timeout ∧
      wp (resolveIndex key cached v start) (IndexResolved key v s)
        (fun e s' => Refusal (s.heap.gettable key) v s e ∧ Kept key s s') s ∧
      ∀ u, Relation.ReflTransGen (s.heap.gettable key).Leads v u → Relation.TransGen (s.heap.gettable key).Leads u u →
        ∃ depth s', resolveIndex key cached v start s =
          .fail (.metamethodDepthExceeded depth MAX_METAMETHOD_DEPTH) s' ∧ Kept key s s') ∧
    (∀ v w, s.heap.askNewindex key v = .inr w →
      resolveNewindex A key value v w s ≠ .timeout ∧
      wp (resolveNewindex A key value v w) (StoreResolved key value v s) (StoreRefused key value v s) s ∧
      ∀ u, Relation.ReflTransGen (s.heap.settable key).Leads v u → Relation.TransGen (s.heap.settable key).Leads u u →
        ∃ depth s', resolveNewindex A key value v w s =
            .fail (.metamethodDepthExceeded depth MAX_METAMETHOD_DEPTH) s' ∧
          s'.heap = s.heap ∧ s'.stack = s.stack ∧ s'.metamethodDepth = s.metamethodDepth) ∧
    ∀ cached v, wp (storeField A key value cached v) (StoreResolved key value v s) (StoreRefused key value v s) s :=
  ⟨⟨fun _ _ _ _ _ h h' => h.unique h', fun _ _ _ _ _ h h' => h.unique h'⟩,
    fun _ _ _ hc hstart => ⟨settles_resolveIndex s, wp_resolveIndex hok hc hstart,
      fun _ hv hu => resolveIndex_cycle hok hc hstart hv hu⟩,
    fun _ _ ha => ⟨settles_resolveNewindex s, wp_resolveNewindex hok ha,
      fun _ hv hu => resolveNewindex_cycle hok ha hv hu⟩,
    fun cached _ => wp_storeField hok cached⟩

/-- A table that is its own metatable and handles itself. -/
def selfHandled : Table :=
  { Table.withCapacity 0 with
    storage := .inline [(.str ⟨0, 0⟩, .obj ⟨0, 0⟩), (.str ⟨1, 0⟩, .obj ⟨0, 0⟩)], metatable := some ⟨0, 0⟩ }

/-- A heap of it. -/
def selfHeap : MetaState where
  heap := ⟨fun _ => .table selfHandled, none, ⟨0, 0⟩, ⟨1, 0⟩⟩
  stringMtIndexShape := none
  fieldCache := ⟨none, fun _ => none, ⟨0, Nat.two_pos⟩, none⟩
  setFieldCache := none
  stack := []
  metamethodDepth := 0
  units := 0
  meter := ⟨.off, ⟨Vector.replicate _ 0⟩, none, 0⟩
  localCost := 0

theorem selfHeap_ok : selfHeap.heap.Ok := by
  rintro p t ht
  obtain rfl : selfHandled = t := Option.some.inj ht
  have hreach : Table.Reachable { Table.withCapacity 0 with
      storage := .inline [(.str ⟨0, 0⟩, .obj ⟨0, 0⟩), (.str ⟨1, 0⟩, .obj ⟨0, 0⟩)] } :=
    .apply .exact (.insert (.str ⟨1, 0⟩) (.obj ⟨0, 0⟩))
      (.apply .exact (.insert (.str ⟨0, 0⟩) (.obj ⟨0, 0⟩)) (.withCapacity 0) trivial rfl) trivial rfl
  exact ⟨hreach.ok.window, hreach.ok.flat⟩

/-- A table that handles itself: reads and stores of another key run into the limit. -/
theorem resolution_recursive_selfHandled :
    (∃ depth s', resolveIndex (.str ⟨2, 0⟩) true (.obj ⟨0, 0⟩) .receiver selfHeap =
      .fail (.metamethodDepthExceeded depth MAX_METAMETHOD_DEPTH) s' ∧ Kept (.str ⟨2, 0⟩) selfHeap s') ∧
    ∃ depth s', resolveNewindex .exact (.str ⟨2, 0⟩) (.bool true) (.obj ⟨0, 0⟩) (.obj ⟨0, 0⟩) selfHeap =
        .fail (.metamethodDepthExceeded depth MAX_METAMETHOD_DEPTH) s' ∧
      s'.heap = selfHeap.heap ∧ s'.stack = selfHeap.stack ∧ s'.metamethodDepth = selfHeap.metamethodDepth :=
  have h := resolution_recursive .exact selfHeap (.str ⟨2, 0⟩) (.bool true) selfHeap_ok
  have hcaches : CacheFits true (.str ⟨2, 0⟩) selfHeap := fun _ => ⟨⟨2, 0⟩, rfl, nofun, nofun, nofun, nofun⟩
  ⟨(h.2.1 true (.obj ⟨0, 0⟩) .receiver hcaches trivial).2.2 (.obj ⟨0, 0⟩) .refl (.single ⟨rfl, rfl⟩),
    (h.2.2.1 (.obj ⟨0, 0⟩) (.obj ⟨0, 0⟩) rfl).2.2 (.obj ⟨0, 0⟩) .refl (.single ⟨rfl, rfl⟩)⟩

end Dellingr.Metamethod
