import Dellingr.Lib.Checked
import Dellingr.Lib.Generations
import Dellingr.Vm.Val
import Mathlib.Logic.Function.Basic
import Mathlib.Logic.Relation

/-!
# Anchors

A host keeps values of a state alive by anchors, which are handles that own a slot of the
registry of the state. A handle that is dropped, on any thread, does not reach the
registry: it adds its key to a queue that the state and its handles share, and the state
removes the slots of queued keys when it collects and before it creates an anchor
(`Step.beginDrain`, `Step.beginInsert`). A handle that is released is disarmed, so that
its drop queues nothing, and its slot is removed at once (`World.release`); one released
through a state that did not issue it is dropped.

A drain takes all queued keys and then removes their slots one after the other, while
handles are dropped on other threads. Slots are used again, with another generation.

In every run of any number of states, whatever the order of their steps
(`World.Reachable`), each slot belongs to one live handle or waits in a queue or a drain
(`Held`). So each handle names its value, every removal finds its slot, and the slots
that are not queued are as many as the live handles.
-/

namespace Dellingr.Anchors

variable {ι : Type}

/-! ## Handles and registries -/

/-- A handle: the state that issued it, its key, and whether its drop queues the key. -/
structure Anchor (ι : Type) where
  stateId : ι
  key : GenKey
  queue : Bool

/-- The registry of a state, and the queue it shares with its handles. -/
structure Registry where
  slots : GenMap Val
  released : List GenKey

section Steps

variable [DecidableEq ι]

namespace Registry

def new : Registry := ⟨.empty, []⟩

/-- The value of a handle; a state that did not issue it has none. -/
def get (r : Registry) (stateId : ι) (a : Anchor ι) : Option Val :=
  if a.stateId ≠ stateId then none else r.slots.get a.key

/-- The number of live handles; `none` where the subtraction underflows. -/
def len (r : Registry) : Option Nat := checkedSub r.slots.len r.released.length

end Registry

/-- What a state is doing: nothing with its registry, or removing the slots of queued keys,
    possibly to insert a value afterwards. -/
inductive Activity
  | idle
  | draining (keys : List GenKey) (value : Option Val)

/-- The keys that a drain has taken and whose slots it has not removed. -/
def Activity.keys : Activity → List GenKey
  | idle => []
  | draining keys _ => keys

/-- What happens to keys: one is issued with a handle, its handle ends, and its slot is
    removed, if it is found. -/
inductive AnchorEvent (ι : Type)
  | issued (stateId : ι) (key : GenKey)
  | ended (stateId : ι) (key : GenKey)
  | removed (stateId : ι) (key : GenKey) (found : Bool)

/-- The states, the live handles each with the value it was created for, and what has
    happened. -/
structure World (ι : Type) where
  registry : ι → Registry
  activity : ι → Activity
  handles : List (Anchor ι × Val)
  log : List (AnchorEvent ι)

namespace World

/-- States without anchors. -/
def new : World ι := ⟨fun _ => .new, fun _ => .idle, [], []⟩

variable (w : World ι)

/-- The end of a handle: it queues its key unless it is disarmed. -/
def drop (a : Anchor ι) : World ι :=
  if a.queue then
    let r := w.registry a.stateId
    { w with registry := Function.update w.registry a.stateId { r with released := r.released ++ [a.key] } }
  else w

/-- Remove the slot of a key. -/
def removeSlot (i : ι) (key : GenKey) : World ι :=
  let r := w.registry i
  let (removed, slots) := r.slots.remove key
  { w with
    registry := Function.update w.registry i { r with slots }
    log := w.log ++ [.removed i key removed.isSome] }

/-- Take the queued keys of a state. -/
def take (i : ι) (value : Option Val) : World ι :=
  let r := w.registry i
  { w with
    registry := Function.update w.registry i { r with released := [] }
    activity := Function.update w.activity i (.draining r.released value) }

/-- Insert a value, and give out its handle. -/
def insert (i : ι) (value : Val) : World ι :=
  let r := w.registry i
  { w with
    registry := Function.update w.registry i { r with slots := r.slots.insert value }
    activity := Function.update w.activity i .idle
    handles := w.handles ++ [(⟨i, r.slots.nextKey, true⟩, value)]
    log := w.log ++ [.issued i r.slots.nextKey] }

/-- Release a handle: the state that issued it removes the slot, and disarms the handle
    before it is dropped. -/
def release (i : ι) (a : Anchor ι) : World ι :=
  if a.stateId ≠ i then w.drop a
  else (w.removeSlot i a.key).drop { a with queue := false }

/-- A handle that is owned no more. -/
def endHandle (a : Anchor ι) (rest : List (Anchor ι × Val)) : World ι :=
  { w with handles := rest, log := w.log ++ [.ended a.stateId a.key] }

end World

/-! ## Interleaved steps -/

/-- A step of one state or one handle. A state takes its steps one after the other, since
    they need it exclusively; a handle is dropped at any time. -/
inductive World.Step : World ι → World ι → Prop
  /-- Creating an anchor begins with removing the slots of dropped handles. -/
  | beginInsert {w : World ι} {i : ι} (value : Val) : w.activity i = .idle → Step w (w.take i (some value))
  /-- So does a collection. -/
  | beginDrain {w : World ι} {i : ι} : w.activity i = .idle → Step w (w.take i none)
  | removeNext {w : World ι} {i : ι} {key : GenKey} {keys : List GenKey} {value : Option Val} :
      w.activity i = .draining (key :: keys) value →
      Step w { w.removeSlot i key with activity := Function.update w.activity i (.draining keys value) }
  | finishInsert {w : World ι} {i : ι} {value : Val} :
      w.activity i = .draining [] (some value) → Step w (w.insert i value)
  | finishDrain {w : World ι} {i : ι} : w.activity i = .draining [] none →
      Step w { w with activity := Function.update w.activity i .idle }
  | drop {w : World ι} {a : Anchor ι} {value : Val} {before after : List (Anchor ι × Val)} :
      w.handles = before ++ (a, value) :: after → Step w ((w.endHandle a (before ++ after)).drop a)
  | release {w : World ι} {i : ι} {a : Anchor ι} {value : Val} {before after : List (Anchor ι × Val)} :
      w.handles = before ++ (a, value) :: after → w.activity i = .idle →
      Step w ((w.endHandle a (before ++ after)).release i a)

/-- What runs from states without anchors lead to. -/
def World.Reachable (w : World ι) : Prop := Relation.ReflTransGen Step World.new w

end Steps

/-! ## Slots and keys -/

/-- The slots of a registry are those of live handles, with their values, and those of
    waiting keys. -/
structure Held (slots : GenMap Val) (handles : List (GenKey × Val)) (waiting : List GenKey) : Prop where
  nodup : (handles.map Prod.fst ++ waiting).Nodup
  value : ∀ h ∈ handles, slots.get h.1 = some h.2
  waits : ∀ key ∈ waiting, ∃ value, slots.get key = some value
  len : slots.len = handles.length + waiting.length

namespace Held

variable {slots : GenMap Val} {handles before after : List (GenKey × Val)} {waiting : List GenKey}
  {key : GenKey} {value : Val}

theorem empty : Held .empty [] [] := ⟨List.nodup_nil, nofun, nofun, rfl⟩

theorem get_of_mem (h : Held slots handles waiting) (hk : key ∈ handles.map Prod.fst ++ waiting) :
    ∃ value, slots.get key = some value := by
  obtain hk | hk := List.mem_append.1 hk
  · obtain ⟨e, he, rfl⟩ := List.mem_map.1 hk
    exact ⟨e.2, h.value e he⟩
  · exact h.waits key hk

/-- A new value, with its handle. -/
theorem insert (h : Held slots handles waiting) :
    Held (slots.insert value) (handles ++ [(slots.nextKey, value)]) waiting := by
  have hnew : ∀ {k v}, slots.get k = some v → k ≠ slots.nextKey := by
    rintro k v hk rfl
    exact GenMap.not_issued_nextKey (GenMap.issued_of_get hk)
  have hkeep : ∀ {k v}, slots.get k = some v → (slots.insert value).get k = some v := by
    intro k v hk
    rw [GenMap.get_insert, if_neg (hnew hk), hk]
  refine ⟨?_, fun e he => ?_, fun k hk => ?_, ?_⟩
  · rw [List.map_append, List.append_assoc]
    refine (List.perm_middle.nodup_iff).2 (List.nodup_cons.2 ⟨fun hmem => ?_, h.nodup⟩)
    obtain ⟨v, hv⟩ := h.get_of_mem hmem
    exact hnew hv rfl
  · obtain he | he := List.mem_append.1 he
    · exact hkeep (h.value e he)
    · rw [List.mem_singleton.1 he, GenMap.get_insert, if_pos rfl]
  · obtain ⟨v, hv⟩ := h.waits k hk
    exact ⟨v, hkeep hv⟩
  · rw [GenMap.len_insert, h.len, List.length_append, List.length_singleton]
    omega

/-- The slot of a key is removed, and no other key is concerned. -/
theorem get_remove {rest : List GenKey} (h : Held slots handles waiting)
    (hperm : (handles.map Prod.fst ++ waiting).Perm (key :: rest)) :
    ∃ value, slots.get key = some value ∧ rest.Nodup ∧
      ∀ k ∈ rest, (slots.remove key).2.get k = slots.get k := by
  obtain ⟨hkey, hrest⟩ := List.nodup_cons.1 (hperm.nodup_iff.1 h.nodup)
  obtain ⟨value, hvalue⟩ := h.get_of_mem (hperm.mem_iff.2 List.mem_cons_self)
  refine ⟨value, hvalue, hrest, fun k hk => ?_⟩
  rw [GenMap.get_remove hvalue, if_neg]
  rintro rfl
  exact hkey hk

/-- The keys of the handles, when one of them is taken out. -/
theorem perm_middle (before after : List (GenKey × Val)) (key : GenKey) (value : Val) (waiting : List GenKey) :
    ((before ++ (key, value) :: after).map Prod.fst ++ waiting).Perm
      (key :: ((before ++ after).map Prod.fst ++ waiting)) := by
  have hhandles : (before ++ (key, value) :: after).Perm ((key, value) :: (before ++ after)) :=
    List.perm_middle
  exact (hhandles.map Prod.fst).append_right waiting

/-- The key of a handle that ends waits. -/
theorem wait (h : Held slots (before ++ (key, value) :: after) waiting) :
    Held slots (before ++ after) (waiting ++ [key]) := by
  refine ⟨?_, fun e he => h.value e ?_, fun k hk => ?_, ?_⟩
  · have hperm := (perm_middle before after key value waiting).nodup_iff.1 h.nodup
    rw [← List.append_assoc]
    exact List.nodup_append_comm.1 hperm
  · obtain he | he := List.mem_append.1 he
    · exact List.mem_append_left _ he
    · exact List.mem_append_right _ (List.mem_cons_of_mem _ he)
  · obtain hk | hk := List.mem_append.1 hk
    · exact h.waits k hk
    · rw [List.mem_singleton.1 hk]
      exact ⟨value, h.value (key, value) (List.mem_append_right _ List.mem_cons_self)⟩
  · rw [h.len]
    simp only [List.length_append, List.length_cons, List.length_nil]
    omega

/-- Removing the slot of a waiting key. -/
theorem removeWaiting (h : Held slots handles (key :: waiting)) :
    (∃ value, slots.get key = some value) ∧ Held (slots.remove key).2 handles waiting := by
  obtain ⟨value, hvalue, hnodup, hget⟩ := h.get_remove List.perm_middle
  refine ⟨⟨value, hvalue⟩, hnodup, fun e he => ?_, fun k hk => ?_, ?_⟩
  · rw [hget _ (List.mem_append_left _ (List.mem_map_of_mem he)), h.value e he]
  · rw [hget k (List.mem_append_right _ hk)]
    exact h.waits k (List.mem_cons_of_mem _ hk)
  · have hlen := GenMap.len_remove hvalue
    rw [h.len, List.length_cons] at hlen
    omega

/-- The order in which keys wait does not matter. -/
theorem perm {waiting' : List GenKey} (h : Held slots handles waiting) (hperm : waiting.Perm waiting') :
    Held slots handles waiting' where
  nodup := (hperm.append_left _).nodup_iff.1 h.nodup
  value := h.value
  waits key hk := h.waits key (hperm.mem_iff.2 hk)
  len := h.len.trans (by rw [hperm.length_eq])

end Held

/-! ## What has happened -/

/-- What may happen after what has happened: a key is issued once, its handle ends once,
    and then its slot is found and removed, once. -/
def Allowed (before : List (AnchorEvent ι)) : AnchorEvent ι → Prop
  | .issued i key => .issued i key ∉ before
  | .ended i key => .ended i key ∉ before
  | .removed i key found => found = true ∧ .ended i key ∈ before ∧ ∀ found, .removed i key found ∉ before

/-- Everything that has happened was allowed when it happened. -/
def Ordered (log : List (AnchorEvent ι)) : Prop :=
  ∀ before event after, log = before ++ event :: after → Allowed before event

theorem Ordered.append {log : List (AnchorEvent ι)} {event : AnchorEvent ι} (h : Ordered log)
    (hevent : Allowed log event) : Ordered (log ++ [event]) := by
  intro before e after heq
  obtain rfl | ⟨after, last, rfl⟩ := List.eq_nil_or_concat after
  · obtain ⟨rfl, hlast⟩ := List.append_inj' heq rfl
    cases hlast
    exact hevent
  · rw [List.concat_eq_append, ← List.cons_append, ← List.append_assoc] at heq
    obtain ⟨rfl, -⟩ := List.append_inj' heq rfl
    exact h before e after rfl

def AnchorEvent.stateId : AnchorEvent ι → ι
  | issued i _ | ended i _ | removed i _ _ => i

/-- What has happened to the keys of a state, given its slots, its handles and its waiting
    keys. -/
structure Logged (log : List (AnchorEvent ι)) (i : ι) (slots : GenMap Val) (handles : List (GenKey × Val))
    (waiting : List GenKey) : Prop where
  issued : ∀ key, .issued i key ∈ log → slots.Issued key
  ended : ∀ key, .ended i key ∈ log → slots.Issued key ∧ key ∉ handles.map Prod.fst
  waits : ∀ key ∈ waiting, .ended i key ∈ log
  removed : ∀ key found, .removed i key found ∈ log → .ended i key ∈ log ∧ key ∉ waiting
  /-- No key is lost. -/
  kept : ∀ key, .ended i key ∈ log → .removed i key true ∈ log ∨ key ∈ waiting

namespace Logged

variable {log : List (AnchorEvent ι)} {i : ι} {slots slots' : GenMap Val}
  {handles before after : List (GenKey × Val)} {waiting : List GenKey} {key : GenKey} {value : Val}

theorem empty : Logged (ι := ι) [] i .empty [] [] := ⟨nofun, nofun, nofun, nofun, nofun⟩

/-- What happens to the keys of another state. -/
theorem frame (h : Logged log i slots handles waiting) {event : AnchorEvent ι} (hevent : event.stateId ≠ i) :
    Logged (log ++ [event]) i slots handles waiting := by
  have hmem : ∀ {e : AnchorEvent ι}, e.stateId = i → (e ∈ log ++ [event] ↔ e ∈ log) := by
    intro e he
    have hne : e ≠ event := fun heq => hevent (heq ▸ he)
    rw [List.mem_append, List.mem_singleton, or_iff_left hne]
  refine ⟨fun key hk => ?_, fun key hk => ?_, fun key hk => ?_, fun key found hk => ?_, fun key hk => ?_⟩
  · exact h.issued key ((hmem rfl).1 hk)
  · exact h.ended key ((hmem rfl).1 hk)
  · exact (hmem rfl).2 (h.waits key hk)
  · obtain ⟨hended, hwait⟩ := h.removed key found ((hmem rfl).1 hk)
    exact ⟨(hmem rfl).2 hended, hwait⟩
  · exact (h.kept key ((hmem rfl).1 hk)).imp (hmem rfl).2 id

theorem mem_snoc {e event : AnchorEvent ι} : e ∈ log ++ [event] ↔ e ∈ log ∨ e = event := by
  rw [List.mem_append, List.mem_singleton]

/-- A handle is given out. -/
theorem insert (h : Logged log i slots handles waiting) :
    Logged (log ++ [.issued i slots.nextKey]) i (slots.insert value)
      (handles ++ [(slots.nextKey, value)]) waiting := by
  refine ⟨fun key hk => ?_, fun key hk => ?_, fun key hk => mem_snoc.2 (.inl (h.waits key hk)),
    fun key found hk => ?_, fun key hk => ?_⟩
  · obtain hk | hk := mem_snoc.1 hk
    · exact (h.issued key hk).insert
    · cases hk
      exact GenMap.issued_of_get (GenMap.get_insert.trans (if_pos rfl))
  · obtain hk | hk := mem_snoc.1 hk
    · obtain ⟨hissued, hnot⟩ := h.ended key hk
      refine ⟨hissued.insert, fun hmem => ?_⟩
      rw [List.map_append] at hmem
      obtain hmem | hmem := List.mem_append.1 hmem
      · exact hnot hmem
      · rw [List.mem_singleton.1 hmem] at hissued
        exact GenMap.not_issued_nextKey hissued
    · cases hk
  · obtain hk | hk := mem_snoc.1 hk
    · obtain ⟨hended, hwait⟩ := h.removed key found hk
      exact ⟨mem_snoc.2 (.inl hended), hwait⟩
    · cases hk
  · obtain hk | hk := mem_snoc.1 hk
    · exact (h.kept key hk).imp (fun hr => mem_snoc.2 (.inl hr)) id
    · cases hk

/-- A handle ends, and its key waits. -/
theorem wait (h : Logged log i slots (before ++ (key, value) :: after) waiting)
    (hheld : Held slots (before ++ (key, value) :: after) waiting) :
    Allowed log (.ended i key) ∧
      Logged (log ++ [.ended i key]) i slots (before ++ after) (waiting ++ [key]) := by
  have hmem : key ∈ (before ++ (key, value) :: after).map Prod.fst :=
    List.mem_map.2 ⟨_, List.mem_append_right _ List.mem_cons_self, rfl⟩
  have hnew : ∀ {k}, .ended i k ∈ log → k ≠ key := by
    rintro k hk rfl
    exact (h.ended k hk).2 hmem
  have hkeys := Held.perm_middle before after key value waiting
  refine ⟨fun hended => hnew hended rfl, fun k hk => ?_, fun k hk => ?_, fun k hk => ?_,
    fun k found hk => ?_, fun k hk => ?_⟩
  · obtain hk | hk := mem_snoc.1 hk
    · exact h.issued k hk
    · cases hk
  · obtain hk | hk := mem_snoc.1 hk
    · obtain ⟨hissued, hnot⟩ := h.ended k hk
      refine ⟨hissued, fun hk' => hnot ?_⟩
      rw [List.map_append] at hk' ⊢
      exact (List.mem_append.1 hk').elim (List.mem_append_left _)
        fun hk' => List.mem_append_right _ (List.mem_cons_of_mem _ hk')
    · cases hk
      refine ⟨GenMap.issued_of_get (hheld.value (key, value) (List.mem_append_right _ List.mem_cons_self)), ?_⟩
      intro hk
      exact (List.nodup_cons.1 (hkeys.nodup_iff.1 hheld.nodup)).1 (List.mem_append_left _ hk)
  · obtain hk | hk := List.mem_append.1 hk
    · exact mem_snoc.2 (.inl (h.waits k hk))
    · exact mem_snoc.2 (.inr (List.mem_singleton.1 hk ▸ rfl))
  · obtain hk | hk := mem_snoc.1 hk
    · obtain ⟨hended, hwait⟩ := h.removed k found hk
      refine ⟨mem_snoc.2 (.inl hended), fun hk' => ?_⟩
      obtain hk' | hk' := List.mem_append.1 hk'
      · exact hwait hk'
      · exact hnew hended (List.mem_singleton.1 hk')
    · cases hk
  · obtain hk | hk := mem_snoc.1 hk
    · exact (h.kept k hk).imp (fun hr => mem_snoc.2 (.inl hr)) (List.mem_append_left _)
    · cases hk
      exact .inr (List.mem_append_right _ List.mem_cons_self)

/-- The slot of a waiting key is removed. -/
theorem removeWaiting (h : Logged log i slots handles (key :: waiting))
    (hheld : Held slots handles (key :: waiting)) :
    Allowed log (.removed i key true) ∧
      Logged (log ++ [.removed i key true]) i (slots.remove key).2 handles waiting := by
  obtain ⟨⟨value, hvalue⟩, -⟩ := hheld.removeWaiting
  have hkey : key ∉ waiting := (List.nodup_cons.1 hheld.nodup.of_append_right).1
  have hended : .ended i key ∈ log := h.waits key List.mem_cons_self
  refine ⟨⟨rfl, hended, fun found hr => (h.removed key found hr).2 List.mem_cons_self⟩,
    fun k hk => ?_, fun k hk => ?_, fun k hk => mem_snoc.2 (.inl (h.waits k (List.mem_cons_of_mem _ hk))),
    fun k found hk => ?_, fun k hk => ?_⟩
  · obtain hk | hk := mem_snoc.1 hk
    · exact (h.issued k hk).remove hvalue
    · cases hk
  · obtain hk | hk := mem_snoc.1 hk
    · obtain ⟨hissued, hnot⟩ := h.ended k hk
      exact ⟨hissued.remove hvalue, hnot⟩
    · cases hk
  · obtain hk | hk := mem_snoc.1 hk
    · obtain ⟨hk, hwait⟩ := h.removed k found hk
      exact ⟨mem_snoc.2 (.inl hk), fun hmem => hwait (List.mem_cons_of_mem _ hmem)⟩
    · cases hk
      exact ⟨mem_snoc.2 (.inl hended), hkey⟩
  · obtain hk | hk := mem_snoc.1 hk
    · obtain hr | hw := h.kept k hk
      · exact .inl (mem_snoc.2 (.inl hr))
      · obtain rfl | hw := List.mem_cons.1 hw
        · exact .inl (mem_snoc.2 (.inr rfl))
        · exact .inr hw
    · cases hk

theorem perm {waiting' : List GenKey} (h : Logged log i slots handles waiting)
    (hperm : waiting.Perm waiting') : Logged log i slots handles waiting' where
  issued := h.issued
  ended := h.ended
  waits key hk := h.waits key (hperm.mem_iff.2 hk)
  removed key found hk := ⟨(h.removed key found hk).1, fun hw => (h.removed key found hk).2 (hperm.mem_iff.2 hw)⟩
  kept key hk := (h.kept key hk).imp id hperm.mem_iff.1

end Logged

/-! ## Every run -/

section Runs

variable [DecidableEq ι] {w w' : World ι} {i j : ι} {key : GenKey} {value : Val}
  {before after : List (Anchor ι × Val)} {a : Anchor ι}

/-- The keys and values of the handles of a state. -/
def handlesOf (i : ι) (handles : List (Anchor ι × Val)) : List (GenKey × Val) :=
  (handles.filter fun h => h.1.stateId = i).map fun h => (h.1.key, h.2)

theorem handlesOf_append : handlesOf i (before ++ after) = handlesOf i before ++ handlesOf i after := by
  rw [handlesOf, List.filter_append, List.map_append]
  rfl

theorem handlesOf_cons_self : handlesOf a.stateId ((a, value) :: after) =
    (a.key, value) :: handlesOf a.stateId after := by
  rw [handlesOf, List.filter_cons_of_pos (by simp)]
  rfl

theorem handlesOf_cons_of_ne (h : a.stateId ≠ i) : handlesOf i ((a, value) :: after) = handlesOf i after := by
  rw [handlesOf, List.filter_cons_of_neg (by simpa using h)]
  rfl

/-- The keys of a state that wait for their slots to be removed. -/
def World.waiting (w : World ι) (i : ι) : List GenKey := (w.activity i).keys ++ (w.registry i).released

/-- What holds of one state. -/
def World.SoundAt (w : World ι) (i : ι) : Prop :=
  Held (w.registry i).slots (handlesOf i w.handles) (w.waiting i) ∧
    Logged w.log i (w.registry i).slots (handlesOf i w.handles) (w.waiting i)

/-- What runs keep true. -/
structure World.Sound (w : World ι) : Prop where
  each : ∀ i, w.SoundAt i
  ordered : Ordered w.log
  armed : ∀ h ∈ w.handles, h.1.queue = true

theorem sound_new : (World.new : World ι).Sound where
  each _ := ⟨.empty, .empty⟩
  ordered before event after h := by simp [World.new] at h
  armed := nofun

/-- A state whose slots, handles and waiting keys stay, while at most other states log
    something. -/
theorem World.SoundAt.frame (h : w.SoundAt j) (hslots : (w'.registry j).slots = (w.registry j).slots)
    (hhandles : handlesOf j w'.handles = handlesOf j w.handles) (hwait : w'.waiting j = w.waiting j)
    (hlog : w'.log = w.log ∨ ∃ event : AnchorEvent ι, event.stateId ≠ j ∧ w'.log = w.log ++ [event]) :
    w'.SoundAt j := by
  rw [World.SoundAt, hslots, hhandles, hwait]
  refine ⟨h.1, ?_⟩
  obtain hlog | ⟨event, hevent, hlog⟩ := hlog
  · exact hlog ▸ h.2
  · exact hlog ▸ h.2.frame hevent

/-- Taking the queued keys changes only where they wait. -/
theorem World.Sound.take (h : w.Sound) (hidle : w.activity i = .idle) (value : Option Val) :
    (w.take i value).Sound := by
  refine ⟨fun j => (h.each j).frame ?_ rfl ?_ (.inl rfl), h.ordered, h.armed⟩
  all_goals
    by_cases hj : j = i
    · subst hj
      simp [World.waiting, World.take, hidle, Activity.keys]
    · simp [World.waiting, World.take, hj]

/-- A drain that has removed its slots ends. -/
theorem World.Sound.finishDrain (h : w.Sound) (hdone : w.activity i = .draining [] none) :
    World.Sound { w with activity := Function.update w.activity i .idle } := by
  refine ⟨fun j => (h.each j).frame rfl rfl ?_ (.inl rfl), h.ordered, h.armed⟩
  by_cases hj : j = i
  · subst hj
    simp [World.waiting, hdone, Activity.keys]
  · simp [World.waiting, hj]

/-- A drain removes the slot of its next key. -/
theorem World.Sound.removeNext {keys : List GenKey} {value : Option Val} (h : w.Sound)
    (hnext : w.activity i = .draining (key :: keys) value) :
    World.Sound { w.removeSlot i key with
      activity := Function.update w.activity i (.draining keys value) } := by
  obtain ⟨hheld, hlogged⟩ := h.each i
  have hwait : w.waiting i = key :: (keys ++ (w.registry i).released) := by
    rw [World.waiting, hnext]
    rfl
  rw [hwait] at hheld hlogged
  obtain ⟨⟨v, hv⟩, hheld'⟩ := hheld.removeWaiting
  obtain ⟨hallowed, hlogged'⟩ := hlogged.removeWaiting hheld
  have hfound : ((w.registry i).slots.remove key).1.isSome = true := by
    rw [(GenMap.remove_of_get hv).1]
    rfl
  have hlog : (w.removeSlot i key).log = w.log ++ [.removed i key true] := by
    rw [← hfound]
    rfl
  refine ⟨fun j => ?_, ?_, h.armed⟩
  · by_cases hj : j = i
    · subst hj
      rw [World.SoundAt]
      simp only [hlog]
      simp only [World.removeSlot, World.waiting, Function.update_self, Activity.keys]
      exact ⟨hheld', hlogged'⟩
    · refine (h.each j).frame ?_ rfl ?_ (.inr ⟨.removed i key true, Ne.symm hj, hlog⟩)
      · simp [World.removeSlot, hj]
      · simp [World.waiting, World.removeSlot, hj]
  · show Ordered (w.removeSlot i key).log
    rw [hlog]
    exact h.ordered.append hallowed

/-- A value is inserted, and its handle given out. -/
theorem World.Sound.insert (h : w.Sound) (hdone : w.activity i = .draining [] (some value)) :
    (w.insert i value).Sound := by
  obtain ⟨hheld, hlogged⟩ := h.each i
  have hwait : w.waiting i = (w.registry i).released := by
    rw [World.waiting, hdone]
    rfl
  have hhandles : handlesOf i (w.insert i value).handles =
      handlesOf i w.handles ++ [((w.registry i).slots.nextKey, value)] := by
    rw [World.insert, handlesOf_append]
    exact congrArg _ handlesOf_cons_self
  refine ⟨fun j => ?_, ?_, fun x hx => ?_⟩
  · by_cases hj : j = i
    · subst hj
      rw [World.SoundAt, hhandles]
      simp only [World.insert, World.waiting, Function.update_self, Activity.keys, List.nil_append]
      rw [← hwait]
      exact ⟨hheld.insert, hlogged.insert⟩
    · refine (h.each j).frame ?_ ?_ ?_ (.inr ⟨.issued i _, Ne.symm hj, rfl⟩)
      · simp [World.insert, hj]
      · rw [World.insert, handlesOf_append, handlesOf_cons_of_ne (Ne.symm hj)]
        exact List.append_nil _
      · simp [World.waiting, World.insert, hj]
  · refine h.ordered.append fun hissued => ?_
    exact GenMap.not_issued_nextKey (hlogged.issued _ hissued)
  · obtain hx | hx := List.mem_append.1 hx
    · exact h.armed x hx
    · rw [List.mem_singleton.1 hx]

/-- The handles of a state, when one handle of the host is taken out. -/
theorem handlesOf_middle :
    handlesOf a.stateId (before ++ (a, value) :: after) =
      handlesOf a.stateId before ++ (a.key, value) :: handlesOf a.stateId after := by
  rw [handlesOf_append, handlesOf_cons_self]

theorem handlesOf_middle_of_ne (h : a.stateId ≠ j) :
    handlesOf j (before ++ (a, value) :: after) = handlesOf j (before ++ after) := by
  rw [handlesOf_append, handlesOf_cons_of_ne h, handlesOf_append]

/-- A handle is dropped: its key is queued with the state that issued it. -/
theorem World.Sound.drop (h : w.Sound) (hhandles : w.handles = before ++ (a, value) :: after) :
    ((w.endHandle a (before ++ after)).drop a).Sound := by
  have harmed : a.queue = true :=
    h.armed (a, value) (hhandles ▸ List.mem_append_right _ List.mem_cons_self)
  obtain ⟨hheld, hlogged⟩ := h.each a.stateId
  rw [hhandles, handlesOf_middle] at hheld hlogged
  obtain ⟨hallowed, hlogged'⟩ := hlogged.wait hheld
  have hdrop : (w.endHandle a (before ++ after)).drop a =
      { w with
        registry := Function.update w.registry a.stateId
          ⟨(w.registry a.stateId).slots, (w.registry a.stateId).released ++ [a.key]⟩
        handles := before ++ after
        log := w.log ++ [.ended a.stateId a.key] } := by
    rw [World.drop, if_pos harmed]
    rfl
  rw [hdrop]
  refine ⟨fun j => ?_, h.ordered.append hallowed, fun x hx => ?_⟩
  · by_cases hj : a.stateId = j
    · subst hj
      rw [World.SoundAt, World.waiting, handlesOf_append]
      simp only [Function.update_self]
      rw [← List.append_assoc]
      exact ⟨hheld.wait, hlogged'⟩
    · refine (h.each j).frame ?_ ?_ ?_ (.inr ⟨.ended a.stateId a.key, hj, rfl⟩)
      · simp [Ne.symm hj]
      · rw [hhandles, handlesOf_middle_of_ne hj]
      · simp [World.waiting, Ne.symm hj]
  · refine h.armed x (hhandles ▸ ?_)
    obtain hx | hx := List.mem_append.1 hx
    · exact List.mem_append_left _ hx
    · exact List.mem_append_right _ (List.mem_cons_of_mem _ hx)

/-- A handle is released through the state that issued it. -/
theorem World.Sound.releaseOwn (h : w.Sound) (hhandles : w.handles = before ++ (a, value) :: after) :
    ((w.endHandle a (before ++ after)).removeSlot a.stateId a.key).Sound := by
  obtain ⟨hheld, hlogged⟩ := h.each a.stateId
  rw [hhandles, handlesOf_middle] at hheld hlogged
  -- Its key waits, and is at once the next to be removed.
  obtain ⟨hallowed, hlogged'⟩ := hlogged.wait hheld
  have hperm : (w.waiting a.stateId ++ [a.key]).Perm (a.key :: w.waiting a.stateId) :=
    List.perm_append_singleton _ _
  have hheld' := hheld.wait.perm hperm
  obtain ⟨⟨v, hv⟩, hheld''⟩ := hheld'.removeWaiting
  obtain ⟨hallowed', hlogged''⟩ := (hlogged'.perm hperm).removeWaiting hheld'
  have hfound : ((w.registry a.stateId).slots.remove a.key).1.isSome = true := by
    rw [(GenMap.remove_of_get hv).1]
    rfl
  have hlog : ((w.endHandle a (before ++ after)).removeSlot a.stateId a.key).log =
      (w.log ++ [.ended a.stateId a.key]) ++ [.removed a.stateId a.key true] := by
    rw [← hfound]
    rfl
  refine ⟨fun j => ?_, ?_, fun x hx => ?_⟩
  · by_cases hj : a.stateId = j
    · subst hj
      rw [World.SoundAt, World.waiting, hlog]
      simp only [World.removeSlot, World.endHandle, Function.update_self, handlesOf_append]
      exact ⟨hheld'', hlogged''⟩
    · have hmid : (w.endHandle a (before ++ after)).SoundAt j := by
        refine (h.each j).frame rfl ?_ rfl (.inr ⟨.ended a.stateId a.key, hj, rfl⟩)
        rw [hhandles, handlesOf_middle_of_ne hj]
        rfl
      refine hmid.frame ?_ rfl ?_ (.inr ⟨.removed a.stateId a.key true, hj, hlog⟩)
      · simp [World.removeSlot, Ne.symm hj]
      · simp [World.waiting, World.removeSlot, Ne.symm hj]
  · rw [hlog]
    exact (h.ordered.append hallowed).append hallowed'
  · refine h.armed x (hhandles ▸ ?_)
    obtain hx | hx := List.mem_append.1 hx
    · exact List.mem_append_left _ hx
    · exact List.mem_append_right _ (List.mem_cons_of_mem _ hx)

theorem World.Sound.step (h : w.Sound) (hstep : World.Step w w') : w'.Sound := by
  cases hstep with
  | beginInsert value hidle => exact h.take hidle _
  | beginDrain hidle => exact h.take hidle _
  | removeNext hnext => exact h.removeNext hnext
  | finishInsert hdone => exact h.insert hdone
  | finishDrain hdone => exact h.finishDrain hdone
  | drop hhandles => exact h.drop hhandles
  | release hhandles hidle =>
    rw [World.release]
    split
    · exact h.drop hhandles
    · next howner =>
      obtain rfl := not_not.1 howner
      exact h.releaseOwn hhandles

theorem World.Reachable.sound (h : w.Reachable) : w.Sound := by
  induction h with
  | refl => exact sound_new
  | tail _ hstep ih => exact ih.step hstep

end Runs

/-- A handle of one of two states. -/
def firstAnchor : Anchor Bool := ⟨true, ⟨0, 1⟩, true⟩

/-- The world in which that handle was created, and then released through the other
    state. -/
def strayRelease : World Bool :=
  let w := (World.new.take true (some (.bool true))).insert true (.bool true)
  (w.endHandle firstAnchor []).release false firstAnchor

theorem reachable_strayRelease : strayRelease.Reachable := by
  have htake : World.Step (World.new : World Bool) (World.new.take true (some (.bool true))) :=
    .beginInsert (.bool true) rfl
  have hinsert : World.Step (World.new.take true (some (.bool true)))
      ((World.new.take true (some (.bool true))).insert true (.bool true)) := .finishInsert rfl
  have hhandles : ((World.new.take true (some (.bool true))).insert true (.bool true)).handles =
      [] ++ (firstAnchor, .bool true) :: [] := rfl
  exact .tail (.tail (.tail .refl htake) hinsert) (.release hhandles rfl)

end Dellingr.Anchors
