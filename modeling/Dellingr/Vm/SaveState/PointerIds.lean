import Dellingr.Vm.Collector
import Dellingr.Vm.SaveState.RoundTrip
import Dellingr.Vm.SaveState.Verify

/-!
# Pointer ids

A value that prints as a pointer prints an id, handed out when it is first rendered and
kept as long as the value lives (`formatPointerId`). A save records the ids, so that a
loaded state goes on printing the same: the saved ids replace those that the setup of the
state has handed out (`restorePointerIds`), and what setup has rendered and the save does
not record is merged (`mergeSetupPointerIds`). Such a value keeps its id if no saved id is
the same, and otherwise gets a new one.

The ids of a state belong to distinct values, are distinct and are below the counter
(`PointerIds.Ok`). This holds in every run of renderings and collections, whatever
setup does, and the merge keeps it (`merge_ok`).
-/

namespace Dellingr

/-! ## Handing out ids -/

def PointerIdKey.fromVal : Val → Option PointerIdKey
  | .str s => some (.string s)
  | .obj o => some (.object o)
  | .rustFn f => some (.rustFn f)
  | .nil | .bool _ | .num _ => none

/-- The ids handed out and the next one. -/
structure PointerIds where
  ids : IndexMap PointerIdKey UInt64
  next : UInt64

/-- The sum with one; `none` where it overflows. -/
def checkedSucc (id : UInt64) : Option UInt64 :=
  if id.toNat + 1 < 2 ^ 64 then some (id + 1) else none

theorem toNat_checkedSucc {id next : UInt64} (h : checkedSucc id = some next) :
    next.toNat = id.toNat + 1 := by
  rw [checkedSucc] at h
  split at h
  · next hlt =>
    cases h
    rw [UInt64.toNat_add, UInt64.toNat_one, Nat.mod_eq_of_lt hlt]
  · cases h

theorem checkedSucc_of_lt {id bound : UInt64} (h : id < bound) : ∃ next, checkedSucc id = some next := by
  have hlt := bound.toNat_lt
  have hid := UInt64.lt_iff_toNat_lt.1 h
  exact ⟨id + 1, if_pos (by omega)⟩

theorem le_max (a b : UInt64) : a ≤ max a b ∧ b ≤ max a b := by
  show a ≤ (if a ≤ b then b else a) ∧ b ≤ (if a ≤ b then b else a)
  split
  · next h => exact ⟨h, UInt64.le_refl b⟩
  · next h => exact ⟨UInt64.le_refl a, UInt64.le_of_lt (UInt64.not_le.1 h)⟩

namespace PointerIds

/-- The ids of a new state. -/
def new : PointerIds := ⟨⟨[]⟩, 1⟩

variable (s : PointerIds)

/-- The id of a value. -/
def idOf (key : PointerIdKey) : Option UInt64 := s.ids.get (· == key)

/-- Render a value: with the id it has, or the next one; `none` when the ids are
    exhausted. -/
def formatPointerId (key : PointerIdKey) : Option (UInt64 × PointerIds) :=
  match s.idOf key with
  | some id => some (id, s)
  | none =>
    (checkedSucc s.next).map fun next => (s.next, ⟨s.ids.insert key s.next, next⟩)

/-- Drop the ids of the values that a collection freed. -/
def prune (live : PointerIdKey → Bool) : PointerIds := { s with ids := s.ids.retain fun key _ => live key }

/-- Rendering a value, or a collection. -/
inductive Step : PointerIds → PointerIds → Prop
  | render {s t : PointerIds} (key : PointerIdKey) {id : UInt64} :
      s.formatPointerId key = some (id, t) → Step s t
  | collect {s : PointerIds} (live : PointerIdKey → Bool) : Step s (s.prune live)

/-- A run of renderings and collections. -/
abbrev Run : PointerIds → PointerIds → Prop := Relation.ReflTransGen Step

end PointerIds

/-! ## Loading -/

/-- What the ids of a payload stand for in the state it is loaded into. -/
structure DecodeCtx where
  strings : List StringPtr
  objects : List ObjectPtr
  envForward : String → Option ObjectPtr
  fnForward : String → Option RustFnId

def decodeVal (ctx : DecodeCtx) : SavedVal → Except SnapshotError Val
  | .nil => .ok .nil
  | .bool b => .ok (.bool b)
  | .num bits => .ok (.num (savedNum bits))
  | .str id =>
    match ctx.strings[id.toNat]? with
    | some ptr => .ok (.str ptr)
    | none => corrupt (.idOutOfRange .string) id.toNat .strings
  | .obj id =>
    match ctx.objects[id.toNat]? with
    | some ptr => .ok (.obj ptr)
    | none => corrupt (.idOutOfRange .object) id.toNat .objects
  | .fn id =>
    match ctx.fnForward id with
    | some f => .ok (.rustFn f)
    | none => .error (.unknownFunction id)
  | .envObj token =>
    match ctx.envForward token with
    | some ptr => .ok (.obj ptr)
    | none => .error (.unknownEnvObject token)

/-- A table key with strings by content. -/
abbrev RuntimeTableKey := NormalizedTableKey (List UInt8) ObjectPtr RustFnId

/-- Validate and normalize a value as a table key, over the contents of strings. -/
def runtimeTableKey (getString : StringPtr → List UInt8) (value : Val) (index : Nat)
    (location : SaveLocation) : Except SnapshotError RuntimeTableKey :=
  let input : TableKeyInput (List UInt8) ObjectPtr RustFnId := match value with
    | .nil => .nil
    | .bool b => .bool b
    | .num n => .number n
    | .str s => .string (getString s)
    | .rustFn f => .rustFn f
    | .obj o => .object o
  match normalizeTableKey input with
  | .ok key => .ok key
  | .error .nil => corrupt .nilKey index location
  | .error .nan => corrupt .nanKey index location

/-- A saved function that setup does not register any more. -/
def retired (ctx : DecodeCtx) : SavedVal → Bool
  | .fn name => (ctx.fnForward name).isNone
  | _ => false

/-- The ids restored so far, the values they are of, and all saved ids seen. -/
structure Restoring where
  ids : IndexMap PointerIdKey UInt64
  values : List RuntimeTableKey
  seen : List UInt64

/-- Restore the recorded ids from an index on. The id of a function that is not registered
    any more is seen, but belongs to no value. -/
def restoreIds (ctx : DecodeCtx) (getString : StringPtr → List UInt8) :
    Nat → List (SavedVal × UInt64) → Restoring → Except SnapshotError Restoring
  | _, [], r => .ok r
  | index, (saved, id) :: records, r =>
    if retired ctx saved then do
      let seen ← insertUnique r.seen id (.duplicate .formatPointerId .saved) index .pointerIds
      restoreIds ctx getString (index + 1) records { r with seen }
    else do
      let value ← decodeVal ctx saved
      let runtimeKey ← runtimeTableKey getString value index .pointerIds
      let values ← insertUnique r.values runtimeKey (.duplicate .formatPointerValue .materialized) index
        .pointerIds
      let seen ← insertUnique r.seen id (.duplicate .formatPointerId .saved) index .pointerIds
      match PointerIdKey.fromVal value with
      | none => corrupt .invalidFormatPointerValue index .pointerIds
      | some key =>
        restoreIds ctx getString (index + 1) records ⟨r.ids.insert key id, values, seen⟩

/-- The values that setup has rendered, the save does not record and the load keeps: those
    whose id no saved value has keep it, and the others are returned. -/
def mergeKept (live : PointerIdKey → Bool) (savedIds : List UInt64) :
    List (PointerIdKey × UInt64) → PointerIds → List PointerIdKey → PointerIds × List PointerIdKey
  | [], s, rekey => (s, rekey)
  | (key, id) :: setup, s, rekey =>
    if (s.idOf key).isSome ∨ ¬live key then mergeKept live savedIds setup s rekey
    else if id ∈ savedIds then mergeKept live savedIds setup s (rekey ++ [key])
    else
      let next := match checkedSucc id with
        | some next => max s.next next
        | none => s.next
      mergeKept live savedIds setup ⟨s.ids.insert key id, next⟩ rekey

/-- New ids, as long as there are any. -/
def mergeRekeyed : List PointerIdKey → PointerIds → PointerIds
  | [], s => s
  | key :: rekey, s =>
    match checkedSucc s.next with
    | none => s
    | some next => mergeRekeyed rekey ⟨s.ids.insert key s.next, next⟩

/-- Merge the ids that setup has handed out. -/
def mergeSetupPointerIds (live : PointerIdKey → Bool) (setup : IndexMap PointerIdKey UInt64)
    (savedIds : List UInt64) (s : PointerIds) : PointerIds :=
  let (s, rekey) := mergeKept live savedIds setup.slots s []
  mergeRekeyed rekey s

/-- The ids of a state after a payload was loaded into it. The collection at the end of the
    load keeps the values `live`. -/
def loadPointerIds (ctx : DecodeCtx) (getString : StringPtr → List UInt8)
    (live : PointerIdKey → Bool) (p : SavePayload) (setup : PointerIds) :
    Except SnapshotError PointerIds := do
  let restored ← restoreIds ctx getString 0 p.formatPointerIds ⟨⟨[]⟩, [], []⟩
  let s : PointerIds := ⟨restored.ids, p.nextFormatPointerId⟩
  .ok (mergeSetupPointerIds live setup.ids restored.seen (s.prune live))

/-! ## Ids in order -/

theorem get_eq_none {m : IndexMap PointerIdKey UInt64} {key : PointerIdKey} :
    m.get (· == key) = none ↔ key ∉ m.slots.map Prod.fst := by
  rw [IndexMap.get, Option.map_eq_none_iff, List.find?_eq_none, List.mem_map]
  constructor
  · rintro h ⟨e, he, rfl⟩
    exact h e he (beq_self_eq_true e.1)
  · intro h e he heq
    exact h ⟨e, he, eq_of_beq heq⟩

/-- A value with no id gets the last slot. -/
theorem slots_insert {m : IndexMap PointerIdKey UInt64} {key : PointerIdKey} {id : UInt64}
    (h : key ∉ m.slots.map Prod.fst) : (m.insert key id).slots = m.slots ++ [(key, id)] := by
  have hnone : m.getIndexOf (· == key) = none := by
    rw [IndexMap.getIndexOf, List.findIdx?_eq_none_iff]
    intro e he
    rw [beq_eq_false_iff_ne]
    rintro rfl
    exact h (List.mem_map_of_mem he)
  rw [IndexMap.insert, hnone]

namespace PointerIds

/-- Distinct values have distinct ids, all handed out before. -/
structure Ok (s : PointerIds) : Prop where
  keys : (s.ids.slots.map Prod.fst).Nodup
  ids : (s.ids.slots.map Prod.snd).Nodup
  below : ∀ e ∈ s.ids.slots, e.2 < s.next

variable {s t : PointerIds} {key : PointerIdKey} {id : UInt64}

theorem idOf_eq_none : s.idOf key = none ↔ key ∉ s.ids.slots.map Prod.fst := get_eq_none

theorem idOf_eq_some (h : s.Ok) : s.idOf key = some id ↔ (key, id) ∈ s.ids.slots := by
  rw [idOf, IndexMap.get, Option.map_eq_some_iff]
  constructor
  · rintro ⟨⟨k, v⟩, hfind, rfl⟩
    have hbeq := List.find?_some hfind
    have hk : k = key := eq_of_beq hbeq
    exact hk ▸ List.mem_of_find?_eq_some hfind
  · intro hmem
    obtain ⟨e, he⟩ : ∃ e, s.ids.slots.find? (fun slot => slot.1 == key) = some e := by
      rw [← Option.isSome_iff_exists, List.find?_isSome]
      exact ⟨_, hmem, beq_self_eq_true key⟩
    have hbeq := List.find?_some he
    have hk : e.1 = key := eq_of_beq hbeq
    have heq := List.inj_on_of_nodup_map h.keys (List.mem_of_find?_eq_some he) hmem hk
    exact ⟨e, he, congrArg Prod.snd heq⟩

theorem ok_new : new.Ok := ⟨List.nodup_nil, List.nodup_nil, nofun⟩

/-- A value without an id gets one that no other has. -/
theorem Ok.insert {next : UInt64} (h : s.Ok) (hkey : key ∉ s.ids.slots.map Prod.fst)
    (hid : id ∉ s.ids.slots.map Prod.snd) (hlt : id < next) (hle : s.next ≤ next) :
    Ok ⟨s.ids.insert key id, next⟩ := by
  refine ⟨?_, ?_, ?_⟩
  · rw [slots_insert hkey, List.map_append]
    exact List.nodup_append_comm.1 (List.nodup_cons.2 ⟨hkey, h.keys⟩)
  · rw [slots_insert hkey, List.map_append]
    exact List.nodup_append_comm.1 (List.nodup_cons.2 ⟨hid, h.ids⟩)
  · intro e he
    rw [slots_insert hkey] at he
    obtain he | he := List.mem_append.1 he
    · exact UInt64.lt_of_lt_of_le (h.below e he) hle
    · rw [List.mem_singleton.1 he]
      exact hlt

theorem lt_checkedSucc {next : UInt64} (h : checkedSucc id = some next) : id < next := by
  rw [UInt64.lt_iff_toNat_lt, toNat_checkedSucc h]
  exact Nat.lt_succ_self _

/-- The next id is handed out. -/
theorem Ok.fresh {next : UInt64} (h : s.Ok) (hkey : key ∉ s.ids.slots.map Prod.fst)
    (hnext : checkedSucc s.next = some next) : Ok ⟨s.ids.insert key s.next, next⟩ := by
  refine h.insert hkey (fun hmem => ?_) (lt_checkedSucc hnext) (UInt64.le_of_lt (lt_checkedSucc hnext))
  obtain ⟨e, he, heq⟩ := List.mem_map.1 hmem
  exact UInt64.lt_irrefl _ (heq ▸ h.below e he)

theorem Ok.prune (h : s.Ok) (live : PointerIdKey → Bool) : (s.prune live).Ok := by
  have hsub : (s.prune live).ids.slots.Sublist s.ids.slots := List.filter_sublist
  exact ⟨h.keys.sublist (hsub.map _), h.ids.sublist (hsub.map _), fun e he => h.below e (hsub.mem he)⟩

/-- What rendering a value can do: find its id, or hand out the next one. -/
theorem formatPointerId_cases (h : s.formatPointerId key = some (id, t)) :
    (s.idOf key = some id ∧ t = s) ∨
    (key ∉ s.ids.slots.map Prod.fst ∧ id = s.next ∧
      ∃ next, checkedSucc s.next = some next ∧ t = ⟨s.ids.insert key s.next, next⟩) := by
  cases hid : s.idOf key with
  | some id' =>
    simp only [formatPointerId, hid] at h
    cases h
    exact .inl ⟨rfl, rfl⟩
  | none =>
    simp only [formatPointerId, hid] at h
    obtain ⟨next, hnext, heq⟩ := Option.map_eq_some_iff.1 h
    cases heq
    exact .inr ⟨idOf_eq_none.1 hid, rfl, next, hnext, rfl⟩

/-- What a step keeps: the ids are in order, the counter does not go back, and an id that
    is new is one not handed out before. -/
theorem Ok.step (h : s.Ok) (hstep : Step s t) :
    t.Ok ∧ s.next ≤ t.next ∧ ∀ e ∈ t.ids.slots, e ∈ s.ids.slots ∨ s.next ≤ e.2 := by
  cases hstep with
  | render key hr =>
    obtain ⟨-, rfl⟩ | ⟨hkey, -, next, hnext, rfl⟩ := formatPointerId_cases hr
    · exact ⟨h, UInt64.le_refl _, fun e he => .inl he⟩
    · refine ⟨h.fresh hkey hnext, UInt64.le_of_lt (lt_checkedSucc hnext), fun e he => ?_⟩
      rw [slots_insert hkey] at he
      obtain he | he := List.mem_append.1 he
      · exact .inl he
      · rw [List.mem_singleton.1 he]
        exact .inr (UInt64.le_refl _)
  | collect live => exact ⟨h.prune live, UInt64.le_refl _, fun e he => .inl (List.mem_filter.1 he).1⟩

/-- What a run keeps. -/
theorem Ok.run (h : s.Ok) (hrun : Run s t) :
    t.Ok ∧ s.next ≤ t.next ∧ ∀ e ∈ t.ids.slots, e ∈ s.ids.slots ∨ s.next ≤ e.2 := by
  induction hrun with
  | refl => exact ⟨h, UInt64.le_refl _, fun e he => .inl he⟩
  | tail _ hstep ih =>
    obtain ⟨hok, hle, hnew⟩ := ih
    obtain ⟨hok', hle', hnew'⟩ := hok.step hstep
    refine ⟨hok', UInt64.le_trans hle hle', fun e he => ?_⟩
    obtain he | he := hnew' e he
    · exact hnew e he
    · exact .inr (UInt64.le_trans hle he)

/-- An id handed out later is none of those there were. -/
theorem Ok.reissue (h : s.Ok) (hrun : Run s t) {t' : PointerIds} (hnone : t.idOf key = none)
    (hr : t.formatPointerId key = some (id, t')) : s.next ≤ id := by
  obtain ⟨hid, -⟩ | ⟨-, rfl, -⟩ := formatPointerId_cases hr
  · rw [hnone] at hid
    cases hid
  · exact (h.run hrun).2.1

end PointerIds

/-! ## The merge -/

variable {savedIds : List UInt64} {s : PointerIds}

/-- What holds while the values of setup are merged: `setup` are those still to be merged,
    and `rekey` those to be given a new id. -/
structure Merging (savedIds : List UInt64) (setup : List (PointerIdKey × UInt64)) (rekey : List PointerIdKey)
    (s : PointerIds) : Prop where
  ok : s.Ok
  setup_keys : (setup.map Prod.fst).Nodup
  setup_ids : (setup.map Prod.snd).Nodup
  setup_succ : ∀ e ∈ setup, ∃ next, checkedSucc e.2 = some next
  /-- An id of setup that has been taken is a saved one. -/
  taken : ∀ e ∈ setup, e.2 ∈ s.ids.slots.map Prod.snd → e.2 ∈ savedIds
  rekey_nodup : rekey.Nodup
  rekey_new : ∀ key ∈ rekey, key ∉ s.ids.slots.map Prod.fst ∧ key ∉ setup.map Prod.fst

theorem Merging.skip {e : PointerIdKey × UInt64} {setup : List (PointerIdKey × UInt64)}
    {rekey : List PointerIdKey} (h : Merging savedIds (e :: setup) rekey s) :
    Merging savedIds setup rekey s where
  ok := h.ok
  setup_keys := h.setup_keys.of_cons
  setup_ids := h.setup_ids.of_cons
  setup_succ e he := h.setup_succ e (List.mem_cons_of_mem _ he)
  taken e he := h.taken e (List.mem_cons_of_mem _ he)
  rekey_nodup := h.rekey_nodup
  rekey_new key hk := ⟨(h.rekey_new key hk).1, fun hmem => (h.rekey_new key hk).2 (List.mem_cons_of_mem _ hmem)⟩

/-- A value that keeps the id setup gave it. -/
theorem Merging.keep {key : PointerIdKey} {id next : UInt64} {setup : List (PointerIdKey × UInt64)}
    {rekey : List PointerIdKey} (h : Merging savedIds ((key, id) :: setup) rekey s)
    (hkey : key ∉ s.ids.slots.map Prod.fst) (hid : id ∉ savedIds) (hnext : checkedSucc id = some next) :
    Merging savedIds setup rekey ⟨s.ids.insert key id, max s.next next⟩ := by
  have hids := List.nodup_cons.1 h.setup_ids
  have hkeys := List.nodup_cons.1 h.setup_keys
  refine
    { ok := h.ok.insert hkey (fun hmem => hid (h.taken _ List.mem_cons_self hmem)) ?_ ?_
      setup_keys := hkeys.2
      setup_ids := hids.2
      setup_succ := fun e he => h.setup_succ e (List.mem_cons_of_mem _ he)
      taken := fun e he hmem => ?_
      rekey_nodup := h.rekey_nodup
      rekey_new := fun k hk => ⟨fun hmem => ?_, fun hmem => ?_⟩ }
  · exact UInt64.lt_of_lt_of_le (PointerIds.lt_checkedSucc hnext) (le_max _ _).2
  · exact (le_max _ _).1
  · rw [slots_insert hkey, List.map_append] at hmem
    obtain hmem | hmem := List.mem_append.1 hmem
    · exact h.taken e (List.mem_cons_of_mem _ he) hmem
    · exact absurd (List.mem_singleton.1 hmem ▸ List.mem_map_of_mem he) hids.1
  · rw [slots_insert hkey, List.map_append] at hmem
    obtain hmem | hmem := List.mem_append.1 hmem
    · exact (h.rekey_new k hk).1 hmem
    · exact (h.rekey_new k hk).2 (List.mem_singleton.1 hmem ▸ List.mem_cons_self)
  · exact (h.rekey_new k hk).2 (List.mem_cons_of_mem _ hmem)

/-- A value that is to be given a new id. -/
theorem Merging.defer {key : PointerIdKey} {id : UInt64} {setup : List (PointerIdKey × UInt64)}
    {rekey : List PointerIdKey} (h : Merging savedIds ((key, id) :: setup) rekey s)
    (hkey : key ∉ s.ids.slots.map Prod.fst) : Merging savedIds setup (rekey ++ [key]) s := by
  have hkeys := List.nodup_cons.1 h.setup_keys
  refine { h.skip with rekey_nodup := ?_, rekey_new := fun k hk => ?_ }
  · refine List.nodup_append_comm.1 (List.nodup_cons.2 ⟨fun hmem => ?_, h.rekey_nodup⟩)
    exact (h.rekey_new key hmem).2 List.mem_cons_self
  · obtain hk | hk := List.mem_append.1 hk
    · exact h.skip.rekey_new k hk
    · rw [List.mem_singleton.1 hk]
      exact ⟨hkey, hkeys.1⟩

/-- The values of setup that keep their ids leave the ids in order. -/
theorem Merging.kept (live : PointerIdKey → Bool) {setup : List (PointerIdKey × UInt64)}
    {rekey : List PointerIdKey} (h : Merging savedIds setup rekey s) :
    Merging savedIds [] (mergeKept live savedIds setup s rekey).2 (mergeKept live savedIds setup s rekey).1 ∧
      s.next ≤ (mergeKept live savedIds setup s rekey).1.next ∧
      ∀ e ∈ s.ids.slots, e ∈ (mergeKept live savedIds setup s rekey).1.ids.slots := by
  induction setup generalizing s rekey with
  | nil => exact ⟨h, UInt64.le_refl _, fun e he => he⟩
  | cons e setup ih =>
    obtain ⟨key, id⟩ := e
    rw [mergeKept]
    split
    · exact ih h.skip
    · next hcond =>
      obtain ⟨hnone, -⟩ := not_or.1 hcond
      have hkey : key ∉ s.ids.slots.map Prod.fst :=
        PointerIds.idOf_eq_none.1 (Option.not_isSome_iff_eq_none.1 hnone)
      split
      · exact ih (h.defer hkey)
      · next hid =>
        obtain ⟨next, hnext⟩ := h.setup_succ _ List.mem_cons_self
        simp only [hnext]
        obtain ⟨hok, hle, hsub⟩ := ih (h.keep hkey hid hnext)
        refine ⟨hok, UInt64.le_trans (le_max _ _).1 hle, fun e he => hsub e ?_⟩
        rw [slots_insert hkey]
        exact List.mem_append_left _ he

/-- New ids leave the ids in order. -/
theorem mergeRekeyed_ok {rekey : List PointerIdKey} (h : s.Ok) (hnodup : rekey.Nodup)
    (hnew : ∀ key ∈ rekey, key ∉ s.ids.slots.map Prod.fst) :
    (mergeRekeyed rekey s).Ok ∧ s.next ≤ (mergeRekeyed rekey s).next ∧
      ∀ e ∈ s.ids.slots, e ∈ (mergeRekeyed rekey s).ids.slots := by
  induction rekey generalizing s with
  | nil => exact ⟨h, UInt64.le_refl _, fun e he => he⟩
  | cons key rekey ih =>
    obtain ⟨hkey, hrekey⟩ := List.forall_mem_cons.1 hnew
    obtain ⟨hnot, hnodup⟩ := List.nodup_cons.1 hnodup
    rw [mergeRekeyed]
    cases hnext : checkedSucc s.next with
    | none => exact ⟨h, UInt64.le_refl _, fun e he => he⟩
    | some next =>
      obtain ⟨hok, hle, hsub⟩ := ih (h.fresh hkey hnext) hnodup fun k hk hmem => by
        rw [slots_insert hkey, List.map_append] at hmem
        obtain hmem | hmem := List.mem_append.1 hmem
        · exact hrekey k hk hmem
        · obtain rfl : k = key := List.mem_singleton.1 hmem
          exact hnot hk
      refine ⟨hok, UInt64.le_trans (UInt64.le_of_lt (PointerIds.lt_checkedSucc hnext)) hle, fun e he => hsub e ?_⟩
      rw [slots_insert hkey]
      exact List.mem_append_left _ he

/-- The merge keeps the ids there are and leaves all ids in order, if those there are were
    saved and setup's were handed out. -/
theorem merge_ok (live : PointerIdKey → Bool) {setup : PointerIds} (h : s.Ok) (hsaved : ∀ e ∈ s.ids.slots, e.2 ∈ savedIds)
    (hsetup : setup.Ok) :
    let merged := mergeSetupPointerIds live setup.ids savedIds s
    merged.Ok ∧ s.next ≤ merged.next ∧ ∀ e ∈ s.ids.slots, e ∈ merged.ids.slots := by
  have hmerging : Merging savedIds setup.ids.slots [] s :=
    { ok := h
      setup_keys := hsetup.keys
      setup_ids := hsetup.ids
      setup_succ := fun e he => checkedSucc_of_lt (hsetup.below e he)
      taken := fun e _ hmem => by
        obtain ⟨e', he', heq⟩ := List.mem_map.1 hmem
        exact heq ▸ hsaved e' he'
      rekey_nodup := List.nodup_nil
      rekey_new := nofun }
  obtain ⟨hkept, hle, hsub⟩ := hmerging.kept live
  obtain ⟨hok, hle', hsub'⟩ := mergeRekeyed_ok hkept.ok hkept.rekey_nodup fun k hk => (hkept.rekey_new k hk).1
  exact ⟨hok, UInt64.le_trans hle hle', fun e he => hsub' e (hsub e he)⟩

/-! ## Restoring the saved ids -/

variable {ctx : DecodeCtx} {getString : StringPtr → List UInt8} {index : Nat}
  {records : List (SavedVal × UInt64)} {r r' : Restoring}

theorem insertUnique_eq_ok {κ : Type} [DecidableEq κ] {set set' : List κ} {k : κ} {reason : CorruptionReason}
    {location : SaveLocation} (h : insertUnique set k reason index location = .ok set') :
    k ∉ set ∧ set' = k :: set := by
  rw [insertUnique] at h
  split at h
  · cases h
  · next hk =>
    cases h
    exact ⟨hk, rfl⟩

theorem except_bind_eq_ok {ε α β : Type} {x : Except ε α} {f : α → Except ε β} {b : β} :
    x >>= f = .ok b ↔ ∃ a, x = .ok a ∧ f a = .ok b := by
  cases x with
  | error e => exact ⟨nofun, nofun⟩
  | ok a => exact ⟨fun h => ⟨a, rfl, h⟩, fun ⟨_, ha, h⟩ => by cases ha; exact h⟩

/-- The value that a record names, if its function is registered. -/
def recordKey (ctx : DecodeCtx) (saved : SavedVal) : Option PointerIdKey :=
  match decodeVal ctx saved with
  | .ok v => PointerIdKey.fromVal v
  | .error _ => none

/-- A pointer as a table key with strings by content. -/
def PointerIdKey.runtimeKey (getString : StringPtr → List UInt8) : PointerIdKey → RuntimeTableKey
  | .string s => .string (getString s)
  | .object o => .object o
  | .rustFn f => .rustFn f

theorem runtimeTableKey_of_fromVal {v : Val} {key : PointerIdKey} (h : PointerIdKey.fromVal v = some key)
    {location : SaveLocation} :
    runtimeTableKey getString v index location = .ok (key.runtimeKey getString) := by
  cases v <;> cases h <;> rfl

/-- What restoring one record can do: retire an id, or give it to the value recorded. -/
theorem restoreIds_cons {saved : SavedVal} {id : UInt64}
    (h : restoreIds ctx getString index ((saved, id) :: records) r = .ok r') :
    (retired ctx saved = true ∧ id ∉ r.seen ∧
      restoreIds ctx getString (index + 1) records { r with seen := id :: r.seen } = .ok r') ∨
    (∃ key, recordKey ctx saved = some key ∧ key.runtimeKey getString ∉ r.values ∧ id ∉ r.seen ∧
      restoreIds ctx getString (index + 1) records
        ⟨r.ids.insert key id, key.runtimeKey getString :: r.values, id :: r.seen⟩ = .ok r') := by
  rw [restoreIds] at h
  split at h
  · next hret =>
    obtain ⟨seen, hseen, h⟩ := except_bind_eq_ok.1 h
    obtain ⟨hid, rfl⟩ := insertUnique_eq_ok hseen
    exact .inl ⟨hret, hid, h⟩
  · obtain ⟨value, hvalue, h⟩ := except_bind_eq_ok.1 h
    obtain ⟨runtimeKey, hkey, h⟩ := except_bind_eq_ok.1 h
    obtain ⟨values, hvalues, h⟩ := except_bind_eq_ok.1 h
    obtain ⟨seen, hseen, h⟩ := except_bind_eq_ok.1 h
    obtain ⟨hid, rfl⟩ := insertUnique_eq_ok hseen
    obtain ⟨hnew, rfl⟩ := insertUnique_eq_ok hvalues
    cases hfrom : PointerIdKey.fromVal value with
    | none =>
      rw [hfrom] at h
      cases h
    | some key =>
      rw [runtimeTableKey_of_fromVal hfrom] at hkey
      cases hkey
      rw [hfrom] at h
      refine .inr ⟨key, ?_, hnew, hid, h⟩
      rw [recordKey, hvalue]
      exact hfrom

/-- What holds while ids are restored. -/
structure Restoring.Ok (getString : StringPtr → List UInt8) (r : Restoring) : Prop where
  keys : (r.ids.slots.map Prod.fst).Nodup
  ids : (r.ids.slots.map Prod.snd).Nodup
  seen : ∀ e ∈ r.ids.slots, e.2 ∈ r.seen
  values : ∀ e ∈ r.ids.slots, e.1.runtimeKey getString ∈ r.values

theorem Restoring.Ok.insert {key : PointerIdKey} {id : UInt64} (h : r.Ok getString)
    (hkey : key.runtimeKey getString ∉ r.values) (hid : id ∉ r.seen) :
    key ∉ r.ids.slots.map Prod.fst ∧
      Restoring.Ok getString ⟨r.ids.insert key id, key.runtimeKey getString :: r.values, id :: r.seen⟩ := by
  have hnew : key ∉ r.ids.slots.map Prod.fst := by
    intro hmem
    obtain ⟨e, he, rfl⟩ := List.mem_map.1 hmem
    exact hkey (h.values e he)
  have hidNew : id ∉ r.ids.slots.map Prod.snd := by
    intro hmem
    obtain ⟨e, he, rfl⟩ := List.mem_map.1 hmem
    exact hid (h.seen e he)
  refine ⟨hnew, ?_, ?_, fun e he => ?_, fun e he => ?_⟩
  · rw [slots_insert hnew, List.map_append]
    exact List.nodup_append_comm.1 (List.nodup_cons.2 ⟨hnew, h.keys⟩)
  · rw [slots_insert hnew, List.map_append]
    exact List.nodup_append_comm.1 (List.nodup_cons.2 ⟨hidNew, h.ids⟩)
  all_goals
    rw [slots_insert hnew] at he
    obtain he | he := List.mem_append.1 he
  · exact List.mem_cons_of_mem _ (h.seen e he)
  · exact List.mem_singleton.1 he ▸ List.mem_cons_self
  · exact List.mem_cons_of_mem _ (h.values e he)
  · exact List.mem_singleton.1 he ▸ List.mem_cons_self

theorem recordKey_of_retired {saved : SavedVal} (h : retired ctx saved = true) :
    recordKey ctx saved = none := by
  cases saved with
  | fn name =>
    have hnone : ctx.fnForward name = none := Option.isNone_iff_eq_none.1 h
    simp only [recordKey, decodeVal, hnone]
  | nil | bool _ | num _ | str _ | obj _ | envObj _ => cases h

/-- Restoring gives every recorded id to the value recorded, and sees all of them. -/
theorem Restoring.Ok.restore (h : r.Ok getString)
    (hr : restoreIds ctx getString index records r = .ok r') :
    r'.Ok getString ∧ (∀ e ∈ r.ids.slots, e ∈ r'.ids.slots) ∧ (∀ id ∈ r.seen, id ∈ r'.seen) ∧
      (∀ id ∈ r'.seen, id ∈ r.seen ∨ id ∈ records.map Prod.snd) ∧
      ∀ e ∈ records, ∀ key, recordKey ctx e.1 = some key → (key, e.2) ∈ r'.ids.slots := by
  induction records generalizing index r with
  | nil =>
    cases hr
    exact ⟨h, fun e he => he, fun id hid => hid, fun id hid => .inl hid, nofun⟩
  | cons e records ih =>
    obtain ⟨saved, id⟩ := e
    have hrecords : ∀ {i}, i ∈ id :: r.seen ∨ i ∈ records.map Prod.snd →
        i ∈ r.seen ∨ i ∈ ((saved, id) :: records).map Prod.snd := by
      rintro i (hi | hi)
      · obtain rfl | hi := List.mem_cons.1 hi
        · exact .inr List.mem_cons_self
        · exact .inl hi
      · exact .inr (List.mem_cons_of_mem _ hi)
    obtain ⟨hret, hid, hr⟩ | ⟨key, hkey, hvalue, hid, hr⟩ := restoreIds_cons hr
    · obtain ⟨hok, hids, hseen, hback, hkept⟩ :=
        ih (r := { r with seen := id :: r.seen })
          ⟨h.keys, h.ids, fun e he => List.mem_cons_of_mem _ (h.seen e he), h.values⟩ hr
      refine ⟨hok, hids, fun i hi => hseen i (List.mem_cons_of_mem _ hi),
        fun i hi => hrecords (hback i hi), List.forall_mem_cons.2 ⟨fun key hkey => ?_, hkept⟩⟩
      -- A function that is not registered is no value of the state.
      rw [recordKey_of_retired hret] at hkey
      cases hkey
    · obtain ⟨hnew, hinsert⟩ := h.insert hvalue hid
      obtain ⟨hok, hids, hseen, hback, hkept⟩ := ih hinsert hr
      have hmem : ∀ e ∈ r.ids.slots ++ [(key, id)], e ∈ r'.ids.slots :=
        fun e he => hids e ((slots_insert hnew).symm ▸ he)
      refine ⟨hok, fun e he => hmem e (List.mem_append_left _ he),
        fun i hi => hseen i (List.mem_cons_of_mem _ hi), fun i hi => hrecords (hback i hi),
        List.forall_mem_cons.2 ⟨fun key' hkey' => ?_, hkept⟩⟩
      rw [hkey] at hkey'
      cases hkey'
      exact hmem _ (List.mem_append_right _ List.mem_cons_self)

/-- The ids of a verified payload are below its counter. -/
theorem lt_of_validateIds {p : SavePayload} {values : List ResolvedKey} {ids : List UInt64}
    (h : validateIds p index records values ids = .ok ()) :
    ∀ e ∈ records, e.2 < p.nextFormatPointerId := by
  induction records generalizing index values ids with
  | nil => exact nofun
  | cons e records ih =>
    obtain ⟨saved, id⟩ := e
    rw [validateIds] at h
    split at h
    · cases h
    · obtain ⟨_, -, h⟩ := except_bind_eq_ok.1 h
      obtain ⟨values', -, h⟩ := except_bind_eq_ok.1 h
      obtain ⟨ids', -, h⟩ := except_bind_eq_ok.1 h
      dsimp only at h
      split at h
      · cases h
      · next hle =>
        obtain ⟨_, -, h⟩ := except_bind_eq_ok.1 h
        exact List.forall_mem_cons.2 ⟨UInt64.not_le.1 hle, ih h⟩

theorem lt_of_verifyPayload {p : SavePayload} (h : verifyPayload p = .ok ()) :
    ∀ e ∈ p.formatPointerIds, e.2 < p.nextFormatPointerId := by
  rw [verifyPayload] at h
  obtain ⟨_, -, h⟩ := except_bind_eq_ok.1 h
  obtain ⟨_, -, h⟩ := except_bind_eq_ok.1 h
  obtain ⟨_, -, h⟩ := except_bind_eq_ok.1 h
  obtain ⟨_, -, h⟩ := except_bind_eq_ok.1 h
  obtain ⟨_, -, h⟩ := except_bind_eq_ok.1 h
  exact lt_of_validateIds h

/-! ## Loading a verified payload -/

/-- After a verified payload was loaded into a state, whatever its setup has rendered, the
    ids of its values are distinct and below the counter, every saved id is held by the value
    it was saved for, if that is still there, and no id handed out later is one that was
    saved or that a value holds. -/
theorem loaded_pointer_ids (ctx : DecodeCtx) (getString : StringPtr → List UInt8)
    (live : PointerIdKey → Bool) (p : SavePayload) {setup loaded : PointerIds}
    (hp : verifyPayload p = .ok ()) (hsetup : PointerIds.Run .new setup)
    (h : loadPointerIds ctx getString live p setup = .ok loaded) :
    (∀ key₁ key₂ id, loaded.idOf key₁ = some id → loaded.idOf key₂ = some id → key₁ = key₂) ∧
    (∀ e ∈ p.formatPointerIds, ∀ key, recordKey ctx e.1 = some key → live key →
      loaded.idOf key = some e.2) ∧
    (∀ key id, loaded.idOf key = some id → id < loaded.next) ∧
    ∀ later key id after, PointerIds.Run loaded later → later.idOf key = none →
      later.formatPointerId key = some (id, after) →
      (∀ e ∈ p.formatPointerIds, e.2 ≠ id) ∧ ∀ key', loaded.idOf key' ≠ some id := by
  rw [loadPointerIds] at h
  obtain ⟨restored, hrestored, h⟩ := except_bind_eq_ok.1 h
  cases h
  have hempty : Restoring.Ok getString ⟨⟨[]⟩, [], []⟩ := ⟨List.nodup_nil, List.nodup_nil, nofun, nofun⟩
  obtain ⟨hok, -, -, hback, hkept⟩ := hempty.restore hrestored
  have hbelow := lt_of_verifyPayload hp
  -- The restored ids are saved ones, so they are below the saved counter.
  have hs : PointerIds.Ok ⟨restored.ids, p.nextFormatPointerId⟩ := by
    refine ⟨hok.keys, hok.ids, fun e he => ?_⟩
    obtain hnil | hmem := hback _ (hok.seen e he)
    · cases hnil
    · obtain ⟨e', he', heq⟩ := List.mem_map.1 hmem
      exact heq ▸ hbelow e' he'
  obtain ⟨hmerged, hnext, hsub⟩ := merge_ok live (hs.prune live)
    (fun e he => hok.seen e (List.mem_filter.1 he).1) (PointerIds.ok_new.run hsetup).1
  refine ⟨fun key₁ key₂ id h₁ h₂ => ?_, fun e he key hkey hlive => ?_, fun key id hid => ?_,
    fun later key id after hrun hnone hr => ?_⟩
  · have h₁ := (PointerIds.idOf_eq_some hmerged).1 h₁
    have h₂ := (PointerIds.idOf_eq_some hmerged).1 h₂
    exact congrArg Prod.fst (List.inj_on_of_nodup_map hmerged.ids h₁ h₂ rfl)
  · refine (PointerIds.idOf_eq_some hmerged).2 (hsub _ (List.mem_filter.2 ⟨hkept e he key hkey, hlive⟩))
  · exact hmerged.below _ ((PointerIds.idOf_eq_some hmerged).1 hid)
  · have hle := hmerged.reissue hrun hnone hr
    refine ⟨fun e he heq => ?_, fun key' hkey' => ?_⟩
    · have hlt : e.2 < p.nextFormatPointerId := hbelow e he
      rw [heq] at hlt
      exact UInt64.lt_irrefl _ (UInt64.lt_of_lt_of_le hlt (UInt64.le_trans hnext hle))
    · have hlt := hmerged.below _ ((PointerIds.idOf_eq_some hmerged).1 hkey')
      exact UInt64.lt_irrefl _ (UInt64.lt_of_lt_of_le hlt hle)

/-- A payload that records the id of one table of the environment. -/
def renderedPayload : SavePayload :=
  { emptyPayload with nextFormatPointerId := 2, formatPointerIds := [(.envObj "math", 1)] }

/-- The handle of an object. -/
def objectKey (slot : Nat) : PointerIdKey := .object ⟨slot, 0⟩

/-- A state whose table `math` is the object 0. -/
def mathCtx : DecodeCtx where
  strings := []
  objects := []
  envForward token := if token = "math" then some ⟨0, 0⟩ else none
  fnForward _ := none

/-- A setup that renders an object and then the table. -/
def renderedSetup : PointerIds := ⟨⟨[(objectKey 5, 1), (objectKey 0, 2)]⟩, 3⟩

theorem run_renderedSetup : PointerIds.Run .new renderedSetup :=
  .tail (.tail .refl (.render (objectKey 5) rfl)) (.render (objectKey 0) rfl)

/-- Both objects survive the load: the table has its saved id, and the other object a new
    one. -/
theorem loaded_pointer_ids_rendered :
    loadPointerIds mathCtx (fun _ => []) (fun _ => true) renderedPayload renderedSetup =
        .ok ⟨⟨[(objectKey 0, 1), (objectKey 5, 2)]⟩, 3⟩ ∧
      PointerIds.idOf ⟨⟨[(objectKey 0, 1), (objectKey 5, 2)]⟩, 3⟩ (objectKey 0) = some 1 :=
  ⟨rfl, (loaded_pointer_ids mathCtx (fun _ => []) (fun _ => true) renderedPayload rfl run_renderedSetup
    rfl).2.1 _ List.mem_cons_self _ rfl rfl⟩

/-- Setup prints the table as the id 2, and after the load another object is printed so:
    the table has its saved id, and the id setup gave it was given up. -/
theorem setup_id_reissued :
    verifyPayload renderedPayload = .ok () ∧ PointerIds.Run .new renderedSetup ∧
      renderedSetup.idOf (objectKey 0) = some 2 ∧
      ∃ loaded after, loadPointerIds mathCtx (fun _ => []) (· = objectKey 0) renderedPayload renderedSetup =
          .ok loaded ∧
        loaded.formatPointerId (objectKey 7) = some (2, after) :=
  ⟨rfl, run_renderedSetup, rfl, _, _, rfl, rfl⟩

end Dellingr
