import Dellingr.Vm.GlobalEnv
import Dellingr.Vm.Table.Field
import Dellingr.Vm.Table.TokenSound

/-!
# Global caches are unobservable

Reads and writes of globals through the caches and through the mirror of the builtins
are reads and writes of the table. An entry of a cache, and a value of the mirror, is a
memo: a fact about the table, remembered with the version of the table or with its
epoch (`Stamp.Memo`).

* `Sound`: every memo of the environment is right;
* `Steady`: an operation along which neither counter wraps;
* `step_sound`: such an operation keeps the memos right;
* `step_agrees`: an operation returns what it returns without the caches, and leaves
  the same contents behind.
-/

namespace Dellingr

open AssocList Val

namespace Table

variable {t t' : Table} {A : Allocator} {s : StringPtr} {v : Val}

/-! ## Assigning a string key -/

theorem get_str_eq (h : t.Ok) (s : StringPtr) :
    t.get (.str s) = (lookup Val.eq (liveEntries t.storage.slots) (.str s)).getD .nil := by
  rw [get_contents h, Contents.get, show t.flat.contents.slot (.str s) = none from
    slotBelow_field (isField_str s) _]
  rfl

theorem hashInsert_str (h : t.Ok) (hv : v ≠ .nil) (s : StringPtr) :
    ∃ t', t.hashInsert (.str s) v = some t' ∧ ∀ k, lookup Val.eq (liveEntries t'.storage.slots) k =
      lookup Val.eq (assign Val.eq (liveEntries t.storage.slots) (.str s) v) k := by
  have hkey : (Val.str s).isValidTableKey = true := rfl
  obtain ⟨st, dead, version, he, hins⟩ := hashInsert_spec h.flat.hash hkey (isLive_iff.2 hv)
    (by simp [toNat?])
  exact ⟨_, he, hins.values⟩

/-- Assigning a string key succeeds. -/
theorem insert_str_total (h : t.Ok) (A : Allocator) (s : StringPtr) (v : Val) :
    ∃ t', t.insert A (.str s) v = some (.ok (), t') := by
  by_cases hv : v = .nil
  · exact ⟨_, by rw [insert_str, if_pos hv]⟩
  · obtain ⟨_, he, -⟩ := hashInsert_str h hv s
    exact ⟨_, by rw [insert_str, if_neg hv, he]; rfl⟩

/-- Assigning a string key gives it the value, and leaves the other ones. -/
theorem get_insert_str (h : t.Ok) (hok : t'.Ok) (hi : t.insert A (.str s) v = some (.ok (), t'))
    (s' : StringPtr) : t'.get (.str s') = if s' = s then v else t.get (.str s') := by
  have hne : s' ≠ s → ∀ x, Val.eq x (.str s) = true → Val.eq x (.str s') = false := by
    intro hs x hx
    obtain rfl := eq_str hx
    simpa [Val.eq] using fun he => hs he.symm
  rw [insert_str] at hi
  rw [get_str_eq hok, get_str_eq h]
  split at hi
  · rename_i hv
    obtain ⟨st, dead, he, -, -, hlive⟩ := hashRemove_spec h.flat.hash (.str s)
    cases hi
    rw [show (t.hashRemove (.str s)).2.storage = st from congrArg (fun r => r.2.storage) he, hlive]
    split
    · rename_i hs
      rw [hs, lookup_of_absent, hv]
      · rfl
      · intro e he
        simpa using (List.mem_filter.1 he).2
    · rename_i hs
      rw [lookup_erase_of_ne (hne hs)]
  · rename_i hv
    obtain ⟨u, he, hvalues⟩ := hashInsert_str h hv s
    rw [he] at hi
    cases hi
    rw [hvalues]
    split
    · rename_i hs
      rw [hs, lookup_assign_of_eq (eq_self rfl) fun _ => rfl]
      rfl
    · rename_i hs
      rw [lookup_assign_of_ne (hne hs (.str s) (eq_self rfl)) (hne hs)]

/-- What assigning a string key keeps. -/
theorem insert_str_ok (h : t.Ok) (hi : t.insert A (.str s) v = some (.ok (), t')) :
    t'.Ok ∧ Edits 2 t t' := by
  have hadm : t.Admits (.insert (.str s) v) := trivial
  obtain ⟨_, _, he, hok⟩ := apply_ok (A := A) h hadm
  rw [apply, hi] at he
  cases he
  exact ⟨hok, insert_edits h.flat.hash.slots_ok hi⟩

/-! ## Accesses -/

/-- A run of operations on the entries of a table. -/
theorem applyAll_spec {ops : List (Allocator × TableOp)} (h : t.Ok) (ha : t.AdmitsAll ops) :
    ∃ t', t.applyAll ops = some t' ∧ t'.Ok ∧ t'.storage.policy = t.storage.policy ∧
      (t.SteadyAll ops → t.version ≤ t'.version ∧
        (t.version = t'.version → t.shape <+: t'.shape)) := by
  induction ops generalizing t with
  | nil => exact ⟨t, rfl, h, rfl, fun _ => ⟨UInt64.le_refl _, fun _ => List.prefix_rfl⟩⟩
  | cons e ops ih =>
    obtain ⟨A, op⟩ := e
    obtain ⟨hraw, hfits, hadm, hrest⟩ := ha
    obtain ⟨r, t₁, he, hok⟩ := apply_ok (A := A) h hadm
    have hed := apply_edits h hraw he
    obtain ⟨t₂, he₂, hok₂, hpol, hsteady⟩ := ih hok (hrest r t₁ he)
    refine ⟨t₂, by rw [applyAll, he]; exact he₂, hok₂, hpol.trans hed.policy, fun hst => ?_⟩
    obtain ⟨hle, hst⟩ := hst r t₁ he
    obtain ⟨hle₂, hgrow⟩ := hsteady hst
    refine ⟨UInt64.le_trans hle hle₂, fun heq => ?_⟩
    -- Neither part moved the version.
    have h₁ : t.version = t₁.version := UInt64.le_antisymm hle (heq ▸ hle₂)
    exact (hed.moves.prefix_of_eq hfits.movesBound_lt h₁.symm).trans (hgrow (h₁ ▸ heq))

end Table

open Stamp

namespace GlobalEnv

variable {g g' u : GlobalEnv} {A : Allocator} {key : StringPtr} {v : Val} {b : Builtin}

/-! ## Memos -/

/-- Every cache and every mirrored value remembers something true of the table. -/
structure Sound (g : GlobalEnv) : Prop where
  ok : g.table.Ok
  revive : g.table.storage.policy.reviveInPlace = true
  /-- A cache whose version is current names what it found for its key. -/
  caches : ∀ c entry, g.caches c = some entry →
    entry.builtin = g.isBuiltinKey (g.keyOf c) ∧
      Memo entry.probe.version g.table.version (g.table.Names (g.keyOf c) entry.probe)
  /-- A mirrored value whose epoch is current is that of the builtin. -/
  mirror : ∀ b, Memo (g.builtinMirror b).1 g.watchedEpoch
    ((g.builtinMirror b).2 = g.table.get (.str (g.builtinNames b)))
  suspended : ∀ env ∈ g.suspendedEnvs, env.contents.Ok ∧
    env.contents.storage.policy.reviveInPlace = true ∧ env.contents.version ≤ g.table.version
  names : ∀ b, g.strings.get (g.builtinNames b) = some b.name

namespace Sound

/-- A change of the table that no memo notices wrongly. -/
theorem retable (h : g.Sound) {t : Table} {e : UInt64} (hok : t.Ok)
    (hrev : t.storage.policy.reviveInPlace = true) (hv : g.table.version ≤ t.version)
    (hgrow : g.table.version = t.version → g.table.shape <+: t.shape) (he : g.watchedEpoch ≤ e)
    (hmirror : g.watchedEpoch = e → ∀ b,
      t.get (.str (g.builtinNames b)) = g.table.get (.str (g.builtinNames b))) :
    Sound { g with table := t, watchedEpoch := e } where
  ok := hok
  revive := hrev
  caches c entry hc := by
    obtain ⟨hb, hm⟩ := h.caches c entry hc
    exact ⟨hb, hm.step hv fun heq hn => hn.mono (hgrow heq)⟩
  mirror b := (h.mirror b).step he fun heq hget => hget.trans (hmirror heq b).symm
  suspended env hm := by
    obtain ⟨hok, hr, hle⟩ := h.suspended env hm
    exact ⟨hok, hr, UInt64.le_trans hle hv⟩
  names := h.names

/-- Filling a cache with what the table finds for its key. -/
theorem fill (h : g.Sound) (cache : GlobalCache) {probe : HashProbe}
    (hn : g.table.Names (g.keyOf cache) probe) (hv : probe.version = g.table.version) :
    (g.fill (some cache) (g.keyOf cache) probe).Sound where
  ok := h.ok
  revive := h.revive
  caches c entry hc := by
    by_cases heq : c = cache
    · subst heq
      simp only [GlobalEnv.fill, Function.update_self, Option.some.injEq] at hc
      subst hc
      exact ⟨rfl, hv ▸ UInt64.le_refl _, fun _ => hn⟩
    · simp only [GlobalEnv.fill, Function.update_of_ne heq] at hc
      exact h.caches c entry hc
  mirror := h.mirror
  suspended := h.suspended
  names := h.names

theorem read (h : g.Sound) (key : StringPtr) (cache : Option GlobalCache)
    (hc : ∀ c ∈ cache, g.keyOf c = key) :
    (g.read key cache).1 = g.table.get (.str key) ∧ (g.read key cache).2.Sound := by
  obtain ⟨hn, hval⟩ := Table.probeHash_spec h.ok key
  refine ⟨hval, ?_⟩
  cases cache with
  | none => exact h
  | some c =>
    obtain rfl := hc c rfl
    exact h.fill c hn Table.probeHash_version

/-- A cache that answers has the value of its key. -/
theorem readCached (h : g.Sound) {c : GlobalCache} (hr : g.readCached c = some v) :
    v = g.table.get (.str (g.keyOf c)) := by
  obtain ⟨entry, hc, hr⟩ := Option.bind_eq_some_iff.1 hr
  have hm := (h.caches c entry hc).2
  by_cases hv : entry.probe.version = g.table.version
  · exact (hm.fact hv).read h.ok hr
  · rw [Table.readProbe, if_pos hv] at hr
    cases hr

/-- Recording the value of a builtin in the mirror. -/
theorem mirrored (h : g.Sound) (hv : v = g.table.get (.str (g.builtinNames b))) :
    Sound { g with builtinMirror := Function.update g.builtinMirror b (g.watchedEpoch, v) } where
  ok := h.ok
  revive := h.revive
  caches := h.caches
  mirror b' := by
    by_cases heq : b' = b
    · subst heq
      simpa only [Function.update_self] using ⟨UInt64.le_refl _, fun _ => hv⟩
    · simpa only [Function.update_of_ne heq] using h.mirror b'
  suspended := h.suspended
  names := h.names

/-- Assigning a global: the epoch moves unless the key is no builtin's. -/
theorem assign (h : g.Sound) {t : Table} {e : UInt64}
    (hi : g.table.insert A (.str key) v = some (.ok (), t)) (hv : g.table.version ≤ t.version)
    (he : g.watchedEpoch ≤ e) (hb : g.watchedEpoch = e → g.isBuiltinKey key = false) :
    Sound { g with table := t, watchedEpoch := e } := by
  obtain ⟨hok, hed⟩ := Table.insert_str_ok h.ok hi
  refine h.retable hok (hed.policy ▸ h.revive) hv
    (fun heq => hed.moves.prefix_of_eq (by decide) heq.symm) he fun heq b => ?_
  rw [Table.get_insert_str h.ok hok hi, if_neg]
  intro hkey
  have hnot := hb heq
  simp only [isBuiltinKey, decide_eq_false_iff_not, not_exists] at hnot
  exact hnot b hkey

end Sound

/-! ## Reads -/

/-- The environments differ in what they remember only. -/
structure Same (g u : GlobalEnv) : Prop where
  table : u.table = g.table
  strings : u.strings = g.strings
  builtinNames : u.builtinNames = g.builtinNames
  phase : u.phase = g.phase
  suspendedEnvs : u.suspendedEnvs = g.suspendedEnvs

theorem Same.refl (g : GlobalEnv) : Same g g := ⟨rfl, rfl, rfl, rfl, rfl⟩

/-- Two environments that differ from one in what they remember. -/
theorem Same.both (h : Same g g') (hu : Same g u) : Same g' u :=
  ⟨hu.table.trans h.table.symm, hu.strings.trans h.strings.symm,
    hu.builtinNames.trans h.builtinNames.symm, hu.phase.trans h.phase.symm,
    hu.suspendedEnvs.trans h.suspendedEnvs.symm⟩

theorem Same.read (g : GlobalEnv) (key : StringPtr) (cache : Option GlobalCache) :
    Same g (g.read key cache).2 := by
  cases cache <;> exact ⟨rfl, rfl, rfl, rfl, rfl⟩

/-- A read of a global has the value of the table. -/
theorem readGlobal_spec (h : g.Sound) (key : StringPtr) (cacheSlot : Option Nat) :
    (g.readGlobal key cacheSlot).1 = g.table.get (.str key) ∧
      (g.readGlobal key cacheSlot).2.Sound ∧ Same g (g.readGlobal key cacheSlot).2 := by
  cases cacheSlot with
  | none =>
    obtain ⟨hval, hs⟩ := h.read key none (by simp)
    exact ⟨hval, hs, Same.read g key none⟩
  | some id =>
    simp only [readGlobal]
    cases hr : g.readCached (.site key id) with
    | some v => exact ⟨h.readCached hr, h, Same.refl g⟩
    | none =>
      obtain ⟨hval, hs⟩ := h.read key (some (.site key id)) (by simp [keyOf])
      exact ⟨hval, hs, Same.read g key _⟩

/-- A read of a builtin has the value of the table. -/
theorem readBuiltin_spec (h : g.Sound) (b : Builtin) :
    (g.readBuiltin b).1 = g.table.get (.str (g.builtinNames b)) ∧ (g.readBuiltin b).2.Sound ∧
      Same g (g.readBuiltin b).2 := by
  rw [readBuiltin]
  split
  · rename_i heq
    exact ⟨(h.mirror b).fact heq, h, Same.refl g⟩
  · rw [refreshBuiltin]
    cases hr : g.readCached (.builtin b) with
    | some v =>
      have hv := h.readCached hr
      exact ⟨hv, h.mirrored hv, ⟨rfl, rfl, rfl, rfl, rfl⟩⟩
    | none =>
      obtain ⟨hval, hs⟩ := h.read (g.builtinNames b) (some (.builtin b)) (by simp [keyOf])
      exact ⟨hval, hs.mirrored hval, ⟨rfl, rfl, rfl, rfl, rfl⟩⟩

/-! ## Writes -/

/-- A write by the key assigns it. A cache it fills names the slot of the key. -/
theorem write_spec (hok : g.table.Ok) (hrev : g.table.storage.policy.reviveInPlace = true)
    (A : Allocator) (key : StringPtr) (v : Val) (cache : Option GlobalCache) :
    ∃ t, g.table.insert A (.str key) v = some (.ok (), t) ∧
      (g.write A key v cache = some (g.touch t) ∨
        ∃ probe, t.Names key probe ∧ probe.version = t.version ∧
          g.write A key v cache = some ((g.touch t).fill cache key probe)) := by
  obtain ⟨hn, hval⟩ := Table.probeHash_spec hok key
  obtain ⟨t, hi⟩ := Table.insert_str_total hok A key v
  refine ⟨t, hi, ?_⟩
  by_cases hp : (g.table.probeHash (.str key)).1.present = true
  · -- The key has a slot.
    obtain ⟨t', hst, hi'⟩ := hn.store_present hok hp Table.probeHash_version hrev A v
    rw [hi] at hi'
    cases hi'
    have hed := Table.storeProbe_edits hst
    obtain ⟨n, hn0, hm⟩ := hed.moves
    have hver : t.version = g.table.version := by
      rw [hm.stamp_eq, Nat.le_zero.1 hn0]
      simp
    refine .inr ⟨_, hn.mono (hm.grows (Nat.le_zero.1 hn0)), ?_, ?_⟩
    · rw [Table.probeHash_version, hver]
    · simp only [write, touch, hp, if_true, hst]
  · refine .inl ?_
    by_cases hv : v = .nil
    · -- Nil for a key without a slot: there is nothing to remove.
      subst hv
      have hpos : g.table.storage.position (.str key) = none := by
        by_contra hne
        obtain ⟨i, hpos⟩ := Option.ne_none_iff_exists'.1 hne
        obtain ⟨k, w, hs, -⟩ := (Table.position_eq_some_iff hok).1 hpos
        rw [Table.probeHash, Table.hashSlotOf] at hp
        simp only [isValidTableKey, Bool.not_true, Bool.false_eq_true, if_false, hpos,
          TableStorage.slotAt_eq, hs, Option.map_some, not_true_eq_false] at hp
      rw [Table.insert_str, if_pos rfl, Table.hashRemove, hpos] at hi
      cases hi
      simp only [write, touch, if_neg hp, if_true]
    · simp only [write, touch, if_neg hp, if_neg hv, hi]

/-- A store through a cache assigns the key of the cache, or it is declined. It leaves
    the epoch only where no builtin changes. -/
theorem writeCached_spec (h : g.Sound) (cache : GlobalCache) (A : Allocator) (v : Val) :
    ∃ stored t e, g.writeCached cache v = some (stored, { g with table := t, watchedEpoch := e }) ∧
      (e = g.watchedEpoch ∨ e = g.watchedEpoch + 1) ∧
      (stored = true → g.table.insert A (.str (g.keyOf cache)) v = some (.ok (), t) ∧
        (g.watchedEpoch = e → g.isBuiltinKey (g.keyOf cache) = false)) ∧
      (stored = false → t = g.table) := by
  cases hc : g.caches cache with
  | none => exact ⟨false, g.table, g.watchedEpoch, by rw [writeCached, hc], .inl rfl, by simp, fun _ => rfl⟩
  | some entry =>
    obtain ⟨hb, hm⟩ := h.caches cache entry hc
    obtain ⟨stored, t, hst, hyes, hno⟩ : ∃ stored t, g.table.storeProbe entry.probe v = some (stored, t) ∧
        (stored = true → g.table.insert A (.str (g.keyOf cache)) v = some (.ok (), t)) ∧
        (stored = false → t = g.table) := by
      by_cases hv : entry.probe.version = g.table.version
      · exact (hm.fact hv).store h.ok h.revive A v
      · exact ⟨false, g.table, by rw [Table.storeProbe, if_pos (.inl hv)], by simp, fun _ => rfl⟩
    cases hbu : entry.builtin with
    | false =>
      refine ⟨stored, t, g.watchedEpoch, ?_, .inl rfl, fun hs => ⟨hyes hs, fun _ => ?_⟩, hno⟩
      · simp only [writeCached, hc, hbu, Bool.false_eq_true, if_false, hst, Option.map_some]
      · exact hb.symm.trans hbu
    | true =>
      refine ⟨stored, t, g.watchedEpoch + 1, ?_, .inr rfl, fun hs => ⟨hyes hs, fun he => ?_⟩, hno⟩
      · simp only [writeCached, hc, hbu, if_true, hst, Option.map_some]
      · exact absurd he (Stamp.ne_add_one _)

/-- A write through a cache assigns the key of the cache. -/
theorem writeThrough_spec (h : g.Sound) {cache : GlobalCache} (hc : g.keyOf cache = key)
    (A : Allocator) (v : Val) :
    ∃ t g', g.table.insert A (.str key) v = some (.ok (), t) ∧
      g.writeThrough A key cache v = some g' ∧ Same { g with table := t } g' ∧
      (g.table.version ≤ g'.table.version → g.watchedEpoch ≤ g'.watchedEpoch → g'.Sound) := by
  subst hc
  obtain ⟨stored, t, e, hw, he, hyes, hno⟩ := writeCached_spec h cache A v
  cases stored with
  | true =>
    obtain ⟨hi, hb⟩ := hyes rfl
    refine ⟨t, { g with table := t, watchedEpoch := e }, hi, ?_, ⟨rfl, rfl, rfl, rfl, rfl⟩,
      fun hv he' => h.assign hi hv he' hb⟩
    rw [writeThrough, hw]
    rfl
  | false =>
    -- The key is written, from an epoch that may have moved already.
    obtain rfl := hno rfl
    obtain ⟨t, hi, hkeyed⟩ := write_spec (g := { g with watchedEpoch := e }) h.ok h.revive A
      (g.keyOf cache) v (some cache)
    have hne : g.watchedEpoch ≠ e + 1 := by
      rcases he with he | he <;> rw [he]
      · exact Stamp.ne_add_one _
      · exact Stamp.ne_add_two _
    have hsound : g.table.version ≤ t.version → g.watchedEpoch ≤ e + 1 →
        Sound { g with table := t, watchedEpoch := e + 1 } := fun hv he =>
      h.assign hi hv he fun heq => absurd heq hne
    have hthrough : g.writeThrough A (g.keyOf cache) cache v =
        write A { g with watchedEpoch := e } (g.keyOf cache) v (some cache) := by
      rw [writeThrough, hw]
      rfl
    rw [hthrough]
    rcases hkeyed with hw | ⟨probe, hn, hv, hw⟩
    · exact ⟨t, _, hi, hw, ⟨rfl, rfl, rfl, rfl, rfl⟩, hsound⟩
    · exact ⟨t, _, hi, hw, ⟨rfl, rfl, rfl, rfl, rfl⟩, fun hv' he' =>
        (hsound hv' he').fill cache hn hv⟩

/-! ## Restricting -/

/-- A table that only ever had string keys assigned: there is no tombstone, and the
    version did not move. -/
structure Fresh (t : Table) : Prop where
  ok : t.Ok
  dead : t.deadCount = 0
  version : t.version = 0
  revive : t.storage.policy.reviveInPlace = true

theorem Fresh.insert {t t' : Table} (h : Fresh t) (hv : v ≠ .nil)
    (hi : t.insert A (.str key) v = some (.ok (), t')) : Fresh t' := by
  obtain ⟨hok, hed⟩ := Table.insert_str_ok h.ok hi
  have hkey : (Val.str key).isValidTableKey = true := rfl
  obtain ⟨s, hins, -⟩ := Table.insertWithoutTombstones_spec h.ok.flat.hash hkey (isLive_iff.2 hv)
    (by simp [toNat?]) h.dead
  rw [Table.insert_str, if_neg hv, Table.hashInsert, if_pos h.dead,
    show t.insertWithoutTombstones (.str key) v = _ from hins] at hi
  cases hi
  exact ⟨hok, h.dead, h.version, hed.policy ▸ h.revive⟩

/-- The restricted contents are what the names bring along, one after the other. -/
structure Brings (g : GlobalEnv) (names : List (List UInt8)) (t : Table) : Prop where
  fresh : Fresh t
  get_eq : ∀ key, t.get (.str key) =
    if ∃ name ∈ names, g.strings.find name = some key then g.table.get (.str key) else .nil

theorem Brings.bindName {names : List (List UInt8)} {t : Table} (h : g.Brings names t) (A : Allocator)
    (name : List UInt8) : ∃ t', g.bindName A t name = some t' ∧ g.Brings (names ++ [name]) t' := by
  have hsplit : ∀ key, (∃ n ∈ names ++ [name], g.strings.find n = some key) ↔
      (∃ n ∈ names, g.strings.find n = some key) ∨ g.strings.find name = some key := by
    simp [or_and_right, exists_or]
  rw [GlobalEnv.bindName]
  cases hf : g.strings.find name with
  | none =>
    refine ⟨t, rfl, h.fresh, fun key => ?_⟩
    simp only [hsplit, hf, reduceCtorEq, or_false]
    exact h.get_eq key
  | some k =>
    simp only
    by_cases hv : g.table.get (.str k) = .nil
    · refine ⟨t, if_pos hv, h.fresh, fun key => ?_⟩
      rw [h.get_eq key]
      simp only [hsplit, hf, Option.some.injEq]
      by_cases hk : k = key
      · subst hk
        simp [hv]
      · simp [hk]
    · obtain ⟨t', hi⟩ := Table.insert_str_total h.fresh.ok A k (g.table.get (.str k))
      have hfr := h.fresh.insert hv hi
      refine ⟨t', by rw [if_neg hv, hi], hfr, fun key => ?_⟩
      rw [Table.get_insert_str h.fresh.ok hfr.ok hi, h.get_eq key]
      simp only [hsplit, hf, Option.some.injEq]
      by_cases hk : key = k
      · subst hk
        simp
      · simp [hk, Ne.symm hk]

/-- Restricting succeeds: of the names that are interned, the whitelisted ones keep their
    value. -/
theorem restricted_spec (g : GlobalEnv) (A : Allocator) (whitelist : List (List UInt8)) :
    ∃ t, g.restricted A whitelist = some t ∧ g.Brings whitelist t ∧ t.metatable = g.table.metatable := by
  have hloop : ∀ (rest names : List (List UInt8)) (t : Table), g.Brings names t →
      ∃ t', rest.foldlM (g.bindName A) t = some t' ∧ g.Brings (names ++ rest) t' := by
    intro rest
    induction rest with
    | nil => exact fun names t h => ⟨t, rfl, by rwa [List.append_nil]⟩
    | cons name rest ih =>
      intro names t h
      obtain ⟨t₁, he, h₁⟩ := h.bindName A name
      obtain ⟨t₂, he₂, h₂⟩ := ih _ t₁ h₁
      refine ⟨t₂, ?_, by rwa [List.append_assoc] at h₂⟩
      rw [List.foldlM_cons, he]
      exact he₂
  have hstart : g.Brings [] ((Table.withCapacity (max INITIAL_GLOBAL_SLOTS whitelist.length)).setSlotPolicy
      (slotPolicy .sealed)) := by
    have hmap : Table.withCapacity (max INITIAL_GLOBAL_SLOTS whitelist.length) =
        { Table.empty with storage := .map ⟨[]⟩ {} } := by
      rw [Table.withCapacity, if_neg]
      simp [INITIAL_GLOBAL_SLOTS]
    refine ⟨⟨Table.setSlotPolicy_ok (Table.withCapacity_ok _) _, ?_, ?_, ?_⟩, fun key => ?_⟩
    · rw [hmap]; rfl
    · rw [hmap]; rfl
    · rw [Table.policy_setSlotPolicy]; rfl
    · rw [hmap, Table.get_of_absent]
      · simp
      · rintro e he
        cases he
  obtain ⟨t, he, hb⟩ := hloop whitelist [] _ hstart
  refine ⟨{ t with metatable := g.table.metatable }, ?_, ?_, rfl⟩
  · rw [restricted, he]
    rfl
  · exact ⟨⟨⟨hb.fresh.ok.window, hb.fresh.ok.flat⟩, hb.fresh.dead, hb.fresh.version, hb.fresh.revive⟩,
      hb.get_eq⟩

/-! ## Swaps -/

/-- Contents whose version is not ahead move the version by one. -/
theorem swapContents_version {t incoming : Table} (h : incoming.version ≤ t.version) :
    (t.swapContents incoming).1.version = t.version + 1 := by
  have hmax : max incoming.version t.version = t.version := by
    change (if incoming.version ≤ t.version then t.version else incoming.version) = t.version
    rw [if_pos h]
  exact congrArg (· + 1) hmax

/-- Contents swapped in, from a version that is not ahead: no memo is current. -/
theorem Sound.swap (h : g.Sound) {incoming : Table} (hok : incoming.Ok)
    (hrev : incoming.storage.policy.reviveInPlace = true) (hle : incoming.version ≤ g.table.version)
    (hv : g.table.version ≤ (g.table.swapContents incoming).1.version)
    (he : g.watchedEpoch ≤ g.watchedEpoch + 1) :
    (g.touch (g.table.swapContents incoming).1).Sound := by
  refine h.retable (t := (g.table.swapContents incoming).1) ⟨hok.window, hok.flat⟩ hrev hv
    (fun heq => ?_) he fun heq => absurd heq (ne_add_one _)
  rw [swapContents_version hle] at heq
  exact absurd heq (ne_add_one _)

/-! ## Every operation -/

theorem Same.touch (h : Same g u) (t : Table) : Same (g.touch t) (u.touch t) :=
  ⟨rfl, h.strings, h.builtinNames, h.phase, h.suspendedEnvs⟩

/-- The environment an operation leaves, where neither counter wrapped. -/
abbrev SoundAfter (g g' : GlobalEnv) : Prop :=
  g.table.version ≤ g'.table.version → g.watchedEpoch ≤ g'.watchedEpoch → g'.Sound

/-- A write by the key, without a cache. -/
theorem write_uncached (hok : g.table.Ok) (hrev : g.table.storage.policy.reviveInPlace = true)
    {t : Table} (hi : g.table.insert A (.str key) v = some (.ok (), t)) :
    g.write A key v none = some (g.touch t) := by
  obtain ⟨t', hi', hw⟩ := write_spec hok hrev A key v none
  rw [hi] at hi'
  cases hi'
  rcases hw with hw | ⟨probe, -, -, hw⟩
  · exact hw
  · exact hw

/-- Reading without a cache. -/
theorem read_uncached (hok : g.table.Ok) (key : StringPtr) :
    g.read key none = (g.table.get (.str key), g) :=
  Prod.ext (Table.probeHash_spec hok key).2 rfl

/-- A write through a cache and one by the key leave the same contents. -/
theorem writeThrough_agrees (h : g.Sound) (hsame : Same g u) (cache : GlobalCache)
    (hc : g.keyOf cache = key) (A : Allocator) (v : Val) :
    ∃ g' u', g.writeThrough A key cache v = some g' ∧ u.write A key v none = some u' ∧ Same g' u' ∧
      g'.builtinNames = g.builtinNames ∧ g'.suspendedEnvs = g.suspendedEnvs ∧ SoundAfter g g' := by
  obtain ⟨t, g', hi, hw, hs, hsound⟩ := writeThrough_spec h hc A v
  have hu := write_uncached (g := u) (hsame.table ▸ h.ok) (hsame.table ▸ h.revive) (hsame.table ▸ hi)
  have hut : Same { g with table := t } (u.touch t) :=
    ⟨rfl, hsame.strings, hsame.builtinNames, hsame.phase, hsame.suspendedEnvs⟩
  exact ⟨g', _, hw, hu, hs.both hut, hs.builtinNames, hs.suspendedEnvs, hsound⟩

/-- Restricting two environments that differ in what they remember. -/
theorem restrict_agrees (h : g.Sound) (hsame : Same g u) (A : Allocator)
    (whitelist : List (List UInt8)) :
    ∃ t g' u', g.restricted A whitelist = some t ∧ g.Brings whitelist t ∧
      g.restrict A whitelist = some g' ∧ u.restrict A whitelist = some u' ∧ Same g' u' ∧
      g' = { g.touch (g.table.swapContents t).1 with
        phase := .sealed, suspendedEnvs := ⟨g.table, g.phase⟩ :: g.suspendedEnvs } ∧
      SoundAfter g g' := by
  obtain ⟨t, he, hb, -⟩ := restricted_spec g A whitelist
  have hadmit : u.bindName A = g.bindName A := by
    funext t name
    rw [bindName, bindName, hsame.strings, hsame.table]
  have heu : u.restricted A whitelist = some t := by
    rw [← he, restricted, restricted, hadmit, hsame.table]
  refine ⟨t, _, _, he, hb, by rw [restrict, he]; rfl, by rw [restrict, heu]; rfl, ?_, rfl, ?_⟩
  · refine ⟨?_, hsame.strings, hsame.builtinNames, rfl, ?_⟩
    · rw [hsame.table]
      rfl
    · simp only [hsame.table, hsame.phase, hsame.suspendedEnvs]
  · intro hv he
    have hle : t.version ≤ g.table.version := by
      rw [hb.fresh.version, UInt64.le_iff_toNat_le]
      exact Nat.zero_le _
    have hs := h.swap hb.fresh.ok hb.fresh.revive hle hv he
    refine ⟨hs.ok, hs.revive, hs.caches, hs.mirror, fun env hm => ?_, hs.names⟩
    rcases List.mem_cons.1 hm with rfl | hm
    · exact ⟨h.ok, h.revive, hv⟩
    · exact hs.suspended env hm

/-- An operation that is admitted does the same with the caches and without them; and the
    memos are right after it, unless a counter wrapped. -/
theorem step_spec (h : g.Sound) {op : GlobalOp} (ha : g.Admits op) (hsame : Same g u)
    (A : Allocator) :
    ∃ v g' u', g.step A op = some (v, g') ∧ u.step A (op.uncached g.builtinNames) = some (v, u') ∧
      Same g' u' ∧ g'.builtinNames = g.builtinNames ∧
      (¬op.IsSwap → g'.suspendedEnvs = g.suspendedEnvs) ∧ (g.Steady A op → g'.Sound) := by
  have hoku : u.table.Ok := hsame.table ▸ h.ok
  -- What a step whose counters did not wrap keeps.
  have hafter : ∀ {v g'}, g.step A op = some (v, g') → SoundAfter g g' → g.Steady A op → g'.Sound :=
    fun hst hs hsteady => hs (hsteady.1 _ _ hst).1 (hsteady.1 _ _ hst).2
  cases op with
  | readGlobal key cacheSlot =>
    obtain ⟨hval, hs, hsm⟩ := readGlobal_spec h key cacheSlot
    refine ⟨g.table.get (.str key), _, u, congrArg some (Prod.ext hval rfl), ?_, hsm.both hsame,
      hsm.builtinNames, fun _ => hsm.suspendedEnvs, fun _ => hs⟩
    exact congrArg some ((read_uncached hoku _).trans (by rw [hsame.table]))
  | readBuiltin b =>
    obtain ⟨hval, hs, hsm⟩ := readBuiltin_spec h b
    refine ⟨g.table.get (.str (g.builtinNames b)), _, u, congrArg some (Prod.ext hval rfl), ?_, hsm.both hsame,
      hsm.builtinNames, fun _ => hsm.suspendedEnvs, fun _ => hs⟩
    exact congrArg some ((read_uncached hoku _).trans (by rw [hsame.table]))
  | writeGlobal key cacheSlot v =>
    cases cacheSlot with
    | none =>
      obtain ⟨t, hi⟩ := Table.insert_str_total h.ok A key v
      have hw := write_uncached h.ok h.revive hi
      have hu := write_uncached (g := u) hoku (hsame.table ▸ h.revive) (hsame.table ▸ hi)
      have hst : g.step A (.writeGlobal key none v) = some (.nil, g.touch t) := by
        rw [step, writeGlobal, hw, Option.map_some]
      refine ⟨_, _, u.touch t, hst, ?_, hsame.touch t, rfl, fun _ => rfl, hafter hst fun hv he => ?_⟩
      · exact congrArg (Option.map (Val.nil, ·)) hu
      · exact h.assign hi hv he fun heq => absurd heq (ne_add_one _)
    | some id =>
      obtain ⟨g', u', hw, hu, hs, hnames, henvs, hsound⟩ :=
        writeThrough_agrees h hsame (.site key id) (rfl : _ = key) A v
      have hst : g.step A (.writeGlobal key (some id) v) = some (.nil, g') := by
        rw [step, writeGlobal, hw, Option.map_some]
      refine ⟨_, _, u', hst, ?_, hs, hnames, fun _ => henvs, hafter hst hsound⟩
      exact congrArg (Option.map (Val.nil, ·)) hu
  | writeBuiltin b v =>
    obtain ⟨g', u', hw, hu, hs, hnames, henvs, hsound⟩ :=
      writeThrough_agrees h hsame (.builtin b) rfl A v
    have hst : g.step A (.writeBuiltin b v) = some (.nil, g') := by
      rw [step, writeBuiltin]
      exact congrArg _ hw
    refine ⟨_, _, u', hst, ?_, hs, hnames, fun _ => henvs, hafter hst hsound⟩
    exact congrArg (Option.map (Val.nil, ·)) hu
  | access ops =>
    obtain ⟨t, he, hok, hpol, hgrow⟩ := Table.applyAll_spec h.ok ha
    have hst : g.step A (.access ops) = some (.nil, g.touch t) := by rw [step, he, Option.map_some]
    refine ⟨_, _, u.touch t, hst, ?_, hsame.touch t, rfl, fun _ => rfl, fun hsteady => ?_⟩
    · show (u.table.applyAll ops).map _ = _
      rw [hsame.table, he, Option.map_some]
    · obtain ⟨hv, he⟩ := hsteady.1 _ _ hst
      obtain ⟨-, hgrow⟩ := hgrow (hsteady.2 ops rfl)
      exact h.retable hok (hpol ▸ h.revive) hv hgrow he fun heq => absurd heq (ne_add_one _)
  | setMetatable metatable =>
    refine ⟨_, _, _, rfl, rfl, ?_, rfl, fun _ => rfl, hafter rfl fun hv he => ?_⟩
    · rw [hsame.table]
      exact hsame.touch _
    · exact h.retable (t := { g.table with metatable := metatable }) ⟨h.ok.window, h.ok.flat⟩ h.revive hv
        (fun _ => List.prefix_rfl) he fun heq => absurd heq (ne_add_one _)
  | intern bytes =>
    refine ⟨_, _, _, rfl, rfl, ⟨hsame.table, ?_, hsame.builtinNames, hsame.phase, hsame.suspendedEnvs⟩,
      rfl, fun _ => rfl, fun _ => ⟨h.ok, h.revive, h.caches, h.mirror, h.suspended, fun b => ?_⟩⟩
    · simp only [hsame.strings]
    · exact (StringPool.alloc_spec rfl).2.1 _ _ (h.names b)
  | collect keep =>
    refine ⟨_, _, _, rfl, rfl, ⟨hsame.table, ?_, hsame.builtinNames, hsame.phase, hsame.suspendedEnvs⟩,
      rfl, fun _ => rfl, fun _ => ⟨h.ok, h.revive, h.caches, h.mirror, h.suspended, fun b => ?_⟩⟩
    · simp only [hsame.strings]
    · rw [StringPool.get_eq_some]
      exact List.mem_filter.2 ⟨StringPool.get_eq_some.1 (h.names b), ha b⟩
  | sealGlobals =>
    refine ⟨_, _, _, rfl, rfl, ?_, ?_, fun _ => ?_, hafter rfl ?_⟩
    · rw [sealGlobals, sealGlobals, hsame.phase, hsame.table]
      split
      · exact hsame
      · exact ⟨rfl, hsame.strings, hsame.builtinNames, rfl, hsame.suspendedEnvs⟩
    · rw [sealGlobals]
      split <;> rfl
    · rw [sealGlobals]
      split <;> rfl
    · rw [sealGlobals]
      split
      · exact fun _ _ => h
      · intro hv he
        have hmoves := Table.setSlotPolicy_moves (b := 0) h.ok (slotPolicy .sealed)
        have hs := h.retable (t := g.table.setSlotPolicy (slotPolicy .sealed))
          (Table.setSlotPolicy_ok h.ok _) (by rw [Table.policy_setSlotPolicy]; rfl) hv
          (fun heq => hmoves.prefix_of_eq (by decide) heq.symm) he fun heq => absurd heq (ne_add_one _)
        exact ⟨hs.ok, hs.revive, hs.caches, hs.mirror, hs.suspended, hs.names⟩
  | beginLoadSetup =>
    exact ⟨_, _, _, rfl, rfl, ⟨hsame.table, hsame.strings, hsame.builtinNames, rfl, hsame.suspendedEnvs⟩,
      rfl, fun _ => rfl, fun _ => ⟨h.ok, h.revive, h.caches, h.mirror, h.suspended, h.names⟩⟩
  | restore vlen arraySlots entries metatable isSealed =>
    obtain ⟨hdiff, hdone⟩ := ha
    obtain ⟨hrok, -⟩ := Table.rebuildFromSnapshot_ok h.ok vlen arraySlots entries hdiff
    have hmoves := Table.rebuildFromSnapshot_moves (t := g.table) vlen arraySlots entries
    obtain ⟨t, hr⟩ : ∃ t, g.table.rebuildFromSnapshot vlen arraySlots entries = (.ok (), t) :=
      ⟨_, Prod.ext hdone rfl⟩
    rw [hr] at hrok hmoves
    have hrestore : ∀ w : GlobalEnv, w.table = g.table →
        w.restore vlen arraySlots entries metatable isSealed =
          some { w.touch (Table.setSlotPolicy { t with metatable := metatable }
            (slotPolicy (if isSealed then .sealed else .initializing))) with
              phase := if isSealed then .sealed else .initializing } := by
      intro w hw
      rw [restore, hw, hr]
    have hst := congrArg (Option.map (Val.nil, ·)) (hrestore g rfl)
    refine ⟨_, _, _, hst, congrArg (Option.map (Val.nil, ·)) (hrestore u hsame.table), ?_, rfl,
      fun _ => rfl, hafter hst fun hv he => ?_⟩
    · exact ⟨rfl, hsame.strings, hsame.builtinNames, rfl, hsame.suspendedEnvs⟩
    · have hmeta : Table.Ok { t with metatable := metatable } := ⟨hrok.window, hrok.flat⟩
      have hmoved : Table.MovesLe 1 g.table { t with metatable := metatable } := by
        obtain ⟨n, hn, hm⟩ := hmoves
        exact ⟨n, hn, hm.stamp_eq, hm.grows⟩
      have hboth := hmoved.trans (c := 0) (Table.setSlotPolicy_moves hmeta
        (slotPolicy (if isSealed then .sealed else .initializing)))
      have hs := h.retable (Table.setSlotPolicy_ok hmeta _) (by rw [Table.policy_setSlotPolicy]; rfl) hv
        (fun heq => hboth.prefix_of_eq (by decide) heq.symm) he fun heq => absurd heq (ne_add_one _)
      exact ⟨hs.ok, hs.revive, hs.caches, hs.mirror, hs.suspended, hs.names⟩
  | restrict whitelist =>
    obtain ⟨t, g', u', -, -, hg, hu, hs, hg', hsound⟩ := restrict_agrees h hsame A whitelist
    have hst : g.step A (.restrict whitelist) = some (.nil, g') := by rw [step, hg, Option.map_some]
    refine ⟨_, _, u', hst, ?_, hs, ?_, fun hno => absurd trivial hno, hafter hst hsound⟩
    · exact congrArg (Option.map (Val.nil, ·)) hu
    · rw [hg']
      rfl
  | resume =>
    cases hs : g.suspendedEnvs with
    | nil => exact absurd hs ha
    | cons env rest =>
      obtain ⟨hok, hrev, hle⟩ := h.suspended env (by simp [hs])
      have hst : g.step A .resume = some (.nil, { g.touch (g.table.swapContents env.contents).1 with
          phase := env.phase, suspendedEnvs := rest }) := by rw [step, resume, hs]; rfl
      refine ⟨_, _, { u.touch (g.table.swapContents env.contents).1 with
          phase := env.phase, suspendedEnvs := rest }, hst, ?_, ?_, rfl,
        fun hno => absurd trivial hno, hafter hst fun hv he => ?_⟩
      · show u.resume.map _ = _
        rw [resume, hsame.suspendedEnvs, hs, hsame.table]
        rfl
      · exact ⟨rfl, hsame.strings, hsame.builtinNames, rfl, rfl⟩
      · have hsw := h.swap hok hrev hle hv he
        exact ⟨hsw.ok, hsw.revive, hsw.caches, hsw.mirror,
          fun env' hm => hsw.suspended env' (show env' ∈ g.suspendedEnvs by rw [hs]; exact .tail _ hm), hsw.names⟩

/-! ## Runs -/

/-- Interning names gives each a handle of its bytes. -/
theorem internAll_spec (names : List (List UInt8)) (pool : StringPool) :
    (∀ q bytes, pool.get q = some bytes → (internAll names pool).2.get q = some bytes) ∧
    (internAll names pool).1.length = names.length ∧
    ∀ (i : Nat) bytes, names[i]? = some bytes →
      ∃ p, (internAll names pool).1[i]? = some p ∧ (internAll names pool).2.get p = some bytes := by
  induction names generalizing pool with
  | nil => exact ⟨fun _ _ h => h, rfl, by simp⟩
  | cons name names ih =>
    have halloc : pool.alloc name = ((pool.alloc name).1, (pool.alloc name).2) := rfl
    obtain ⟨hget, hkeep, -⟩ := StringPool.alloc_spec halloc
    obtain ⟨hkeep', hlen, hall⟩ := ih (pool.alloc name).2
    refine ⟨fun q bytes h => hkeep' q bytes (hkeep q bytes h), by simp [internAll, hlen], ?_⟩
    rintro (_ | i) bytes hi
    · obtain rfl : name = bytes := by simpa using hi
      exact ⟨(pool.alloc name).1, rfl, hkeep' _ _ hget⟩
    · exact hall i bytes (by simpa using hi)

theorem new_sound : new.Sound where
  ok := by
    show ((Table.withCapacity INITIAL_GLOBAL_SLOTS).setSlotPolicy (slotPolicy .initializing)).Ok
    exact Table.setSlotPolicy_ok (Table.withCapacity_ok _) _
  revive := rfl
  caches := by simp [new]
  mirror b := by
    have hne : (0 : UInt64) ≠ 1 := by decide
    exact ⟨(by decide : (0 : UInt64) ≤ 1), fun h => absurd h hne⟩
  suspended := by simp [new]
  names b := by
    obtain ⟨p, hp, hget⟩ := (internAll_spec (List.ofFn Builtin.name) .empty).2.2 b b.name (by simp)
    have hname : new.builtinNames b = p := by
      show ((internAll (List.ofFn Builtin.name) .empty).1).getD b ⟨0, 0⟩ = p
      rw [List.getD_eq_getElem?_getD, hp]
      rfl
    rw [hname]
    exact hget

/-- A read moves neither counter. -/
theorem steady_readGlobal (A : Allocator) (g : GlobalEnv) (key : StringPtr) (cacheSlot : Option Nat) :
    g.Steady A (.readGlobal key cacheSlot) := by
  have hsame : (g.readGlobal key cacheSlot).2.table = g.table ∧
      (g.readGlobal key cacheSlot).2.watchedEpoch = g.watchedEpoch := by
    cases cacheSlot with
    | none => exact ⟨rfl, rfl⟩
    | some id =>
      simp only [readGlobal]
      cases g.readCached (.site key id) <;> exact ⟨rfl, rfl⟩
  refine ⟨fun v g' h => ?_, by simp⟩
  obtain rfl : (g.readGlobal key cacheSlot).2 = g' := congrArg Prod.snd (Option.some.inj h)
  rw [hsame.1, hsame.2]
  exact ⟨UInt64.le_refl _, UInt64.le_refl _⟩

/-- A run does the same with the caches and without them. -/
theorem run_agrees {ops : List GlobalOp} (h : g.Sound) (hsame : Same g u)
    (hops : Admissible A (Steady A) g ops) :
    ∃ vs g' u', run A g ops = some (vs, g') ∧
      run A u (ops.map (GlobalOp.uncached g.builtinNames)) = some (vs, u') ∧ Same g' u' ∧ g'.Sound ∧
      g'.builtinNames = g.builtinNames := by
  induction ops generalizing g u with
  | nil => exact ⟨[], g, u, rfl, rfl, hsame, h, rfl⟩
  | cons op ops ih =>
    obtain ⟨hadm, hsteady, hrest⟩ := hops
    obtain ⟨v, g₁, u₁, hg, hu, hs, hnames, -, hsound⟩ := step_spec h hadm hsame A
    obtain ⟨vs, g₂, u₂, hg₂, hu₂, hs₂, hsound₂, hnames₂⟩ := ih (hsound hsteady) hs (hrest v g₁ hg)
    refine ⟨v :: vs, g₂, u₂, ?_, ?_, hs₂, hsound₂, hnames₂.trans hnames⟩
    · rw [run, hg]
      show ((run A g₁ ops).bind fun r => some (v :: r.1, r.2)) = _
      rw [hg₂]
      rfl
    · rw [List.map_cons, run, hu]
      show ((run A u₁ _).bind fun r => some (v :: r.1, r.2)) = _
      rw [← hnames, hu₂]
      rfl

end GlobalEnv

/-- Caching globals is unobservable, along every run in which neither the version of the
    global table nor its epoch wraps: the run and the same run without caches return the
    same values and leave the same table behind, its order included; and a builtin has the
    value the table has for its name. -/
theorem global_caching_unobservable (A : Allocator) (ops : List GlobalOp)
    (h : GlobalEnv.Admissible A (GlobalEnv.Steady A) .new ops) :
    ∃ vs g u, GlobalEnv.run A .new ops = some (vs, g) ∧
      GlobalEnv.run A .new (ops.map (GlobalOp.uncached GlobalEnv.new.builtinNames)) = some (vs, u) ∧
      g.table = u.table ∧ g.phase = u.phase ∧ g.suspendedEnvs = u.suspendedEnvs ∧
      (∀ key cacheSlot, (g.readGlobal key cacheSlot).1 = g.table.get (.str key)) ∧
      ∀ b, (g.readBuiltin b).1 = g.table.get (.str (g.builtinNames b)) := by
  obtain ⟨vs, g, u, hg, hu, hs, hsound, -⟩ := GlobalEnv.run_agrees GlobalEnv.new_sound (.refl _) h
  exact ⟨vs, g, u, hg, hu, hs.table.symm, hs.phase.symm, hs.suspendedEnvs.symm,
    fun key slot => (GlobalEnv.readGlobal_spec hsound key slot).1,
    fun b => (GlobalEnv.readBuiltin_spec hsound b).1⟩

/-- A global that is written and read through one cache slot. -/
theorem global_caching_unobservable_site : ∃ vs g u,
    GlobalEnv.run .exact .new [.writeGlobal ⟨99, 0⟩ (some 0) (.bool true), .readGlobal ⟨99, 0⟩ (some 0)] =
      some (vs, g) ∧
    GlobalEnv.run .exact .new [.writeGlobal ⟨99, 0⟩ none (.bool true), .readGlobal ⟨99, 0⟩ none] =
      some (vs, u) ∧ g.table = u.table := by
  have hwrite : GlobalEnv.step .exact .new (.writeGlobal ⟨99, 0⟩ (some 0) (.bool true)) =
      some (.nil, GlobalEnv.new.touch { GlobalEnv.new.table with
        storage := .map ⟨[(.live (.str ⟨99, 0⟩), .bool true)]⟩ (slotPolicy .initializing) }) := rfl
  have hops : GlobalEnv.Admissible .exact (GlobalEnv.Steady .exact) .new
      [.writeGlobal ⟨99, 0⟩ (some 0) (.bool true), .readGlobal ⟨99, 0⟩ (some 0)] := by
    refine ⟨trivial, ⟨fun v g h => ?_, by simp⟩, fun v g h => ⟨trivial, GlobalEnv.steady_readGlobal .., fun _ _ _ => trivial⟩⟩
    rw [hwrite] at h
    cases h
    exact ⟨UInt64.le_refl _, by decide⟩
  obtain ⟨vs, g, u, hg, hu, ht, -⟩ := global_caching_unobservable .exact _ hops
  exact ⟨vs, g, u, hg, hu, ht⟩

namespace GlobalEnv

variable {g : GlobalEnv} {A : Allocator} {b : Builtin}

/-! ## A whole round of the epoch -/

/-- What is read is mirrored, with the epoch at the time. -/
theorem readBuiltin_mirror (g : GlobalEnv) (b : Builtin) :
    (g.readBuiltin b).2.builtinMirror b = (g.watchedEpoch, (g.readBuiltin b).1) ∧
      (g.readBuiltin b).2.watchedEpoch = g.watchedEpoch := by
  rw [readBuiltin]
  split
  · rename_i heq
    exact ⟨Prod.ext heq rfl, rfl⟩
  · rw [refreshBuiltin]
    cases g.readCached (.builtin b) with
    | some v => exact ⟨Function.update_self .., rfl⟩
    | none => exact ⟨Function.update_self .., rfl⟩

/-- At the epoch of a read the mirror answers, whatever happened meanwhile. -/
theorem readBuiltin_of_epoch {g' : GlobalEnv}
    (hm : g'.builtinMirror = (g.readBuiltin b).2.builtinMirror)
    (he : g'.watchedEpoch = g.watchedEpoch) : (g'.readBuiltin b).1 = (g.readBuiltin b).1 := by
  have hmirror := (readBuiltin_mirror g b).1
  rw [← hm] at hmirror
  rw [readBuiltin, if_pos (by rw [hmirror, he]), hmirror]

/-- Accesses that change nothing move the epoch all the same. -/
theorem run_idle (A : Allocator) (g : GlobalEnv) (k : Nat) (ops : List GlobalOp) :
    run A g (List.replicate k (.access []) ++ ops) =
      (run A { g with watchedEpoch := g.watchedEpoch + .ofNat k } ops).map fun r =>
        (List.replicate k Val.nil ++ r.1, r.2) := by
  induction k generalizing g with
  | zero => simp
  | succ k ih =>
    rw [List.replicate_succ, List.cons_append, run]
    show ((run A (g.touch g.table) (List.replicate k (GlobalOp.access []) ++ ops)).bind fun r =>
      some (Val.nil :: r.1, r.2)) = _
    rw [ih, touch]
    have he : g.watchedEpoch + 1 + UInt64.ofNat k = g.watchedEpoch + UInt64.ofNat (k + 1) := by
      rw [UInt64.ofNat_add, UInt64.add_assoc, UInt64.add_comm 1]
      rfl
    simp only [he]
    cases run A { g with watchedEpoch := g.watchedEpoch + .ofNat (k + 1) } ops <;> rfl

/-- Operations that are admitted everywhere. -/
theorem admissible_of_admits {P : GlobalEnv → GlobalOp → Prop} {ops : List GlobalOp}
    (h : ∀ op ∈ ops, ∀ g : GlobalEnv, g.Admits op ∧ P g op) (g : GlobalEnv) : Admissible A P g ops := by
  induction ops generalizing g with
  | nil => trivial
  | cons op ops ih =>
    obtain ⟨hadm, hp⟩ := h op (by simp) g
    exact ⟨hadm, hp, fun _ g' _ => ih (fun op hm => h op (by simp [hm])) g'⟩

end GlobalEnv

/-- The epoch wraps after `2 ^ 64` mutable accesses, and a value mirrored before is
    accepted again: a builtin that was bound meanwhile is read as nil. -/
theorem builtin_mirror_after_round : ∃ ops vs g,
    GlobalEnv.Admissible .exact (fun _ _ => True) .new ops ∧ GlobalEnv.run .exact .new ops = some (vs, g) ∧
    (g.readBuiltin .print).1 = .nil ∧ g.table.get (.str (g.builtinNames .print)) = .bool true := by
  have hsound := GlobalEnv.new_sound
  obtain ⟨hval, -, hsame⟩ := GlobalEnv.readBuiltin_spec hsound .print
  obtain ⟨t, hi⟩ := Table.insert_str_total hsound.ok .exact (GlobalEnv.new.builtinNames .print) (.bool true)
  have hok := (Table.insert_str_ok hsound.ok hi).1
  let bind : GlobalOp := .access [(.exact, .insert (.str (GlobalEnv.new.builtinNames .print)) (.bool true))]
  obtain ⟨k, hk⟩ : ∃ k, k = 2 ^ 64 - 1 := ⟨_, rfl⟩
  -- Where the first read leaves the environment, a round later, and with the builtin bound.
  let g₁ := (GlobalEnv.new.readBuiltin .print).2
  let g₂ : GlobalEnv := { g₁ with watchedEpoch := g₁.watchedEpoch + .ofNat k }
  have hbind : GlobalEnv.run .exact g₂ [bind] = some ([.nil], g₂.touch t) := by
    simp only [bind, GlobalEnv.run, GlobalEnv.step, Table.applyAll, Table.apply,
      show g₂.table = GlobalEnv.new.table from hsame.table, hi]
    rfl
  have hrun : GlobalEnv.run .exact .new
      (.readBuiltin .print :: (List.replicate k (.access []) ++ [bind])) =
        some ((GlobalEnv.new.readBuiltin .print).1 :: (List.replicate k .nil ++ [.nil]), g₂.touch t) := by
    rw [GlobalEnv.run]
    show ((GlobalEnv.run .exact g₁ (List.replicate k (GlobalOp.access []) ++ [bind])).bind fun r =>
      some ((GlobalEnv.new.readBuiltin .print).1 :: r.1, r.2)) = _
    rw [GlobalEnv.run_idle, hbind]
    rfl
  refine ⟨_, _, _, GlobalEnv.admissible_of_admits (fun op hm g => ⟨?_, trivial⟩) _, hrun, ?_, ?_⟩
  · rcases List.mem_cons.1 hm with rfl | hm
    · trivial
    · rcases List.mem_append.1 hm with hm | hm
      · rw [List.eq_of_mem_replicate hm]
        trivial
      · rw [List.mem_singleton.1 hm]
        exact ⟨trivial, trivial, trivial, fun _ _ _ => trivial⟩
  · have hepoch : (g₂.touch t).watchedEpoch = GlobalEnv.new.watchedEpoch := by
      show g₁.watchedEpoch + .ofNat k + 1 = GlobalEnv.new.watchedEpoch
      rw [show g₁.watchedEpoch = GlobalEnv.new.watchedEpoch from
        (GlobalEnv.readBuiltin_mirror .new .print).2, hk]
      decide
    rw [GlobalEnv.readBuiltin_of_epoch (g := .new) (by rfl) hepoch, hval]
    exact Table.get_of_absent (by rintro e ⟨⟩)
  · show t.get (.str (g₁.builtinNames .print)) = .bool true
    rw [show g₁.builtinNames = GlobalEnv.new.builtinNames from hsame.builtinNames,
      Table.get_insert_str hsound.ok hok hi, if_pos rfl]

end Dellingr
