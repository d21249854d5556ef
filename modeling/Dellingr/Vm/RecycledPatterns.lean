import Dellingr.Vm.PatternCache
import Mathlib.Algebra.Order.BigOperators.Group.List

/-!
# The pattern cache over recycled handles

A handle names a slot of the heap, and a slot that was swept is used again. Here a new string may take any
handle that names no live string, that of a collected string included, so that an entry which outlived its
string would be found under the bytes of another.

No entry outlives its string (`Ok.live`): a collection prunes the cache before anything is interned. From
this, and from the count of bytes which pruning computes anew, a lookup gives the program of the bytes that
its handle names now, the limits hold, and the loop that evicts finds an entry whenever it needs one
(`pattern_cache_sound`).
-/

namespace Dellingr

open Patterns

/-- The live strings, by handle, and the cache. -/
structure RecycledCaching where
  strings : StringPtr → Option (List UInt8)
  cache : PatternCache

namespace RecycledCaching

/-- A new string under a handle. -/
def intern (s : RecycledCaching) (ptr : StringPtr) (bytes : List UInt8) : RecycledCaching :=
  { s with strings := Function.update s.strings ptr (some bytes) }

/-- A collection: the sweep, and then the pruning of the cache. -/
def collect (s : RecycledCaching) (keep : StringPtr → Bool) : RecycledCaching :=
  let strings := fun ptr => if keep ptr then s.strings ptr else none
  ⟨strings, s.cache.prune fun ptr => (strings ptr).isSome⟩

/-- The states that interning, collecting and looking up lead to, whichever free handles new strings take. -/
inductive Reachable : RecycledCaching → Prop
  | new : Reachable ⟨fun _ => none, .empty⟩
  | intern {s : RecycledCaching} (h : Reachable s) {ptr : StringPtr} (hfree : s.strings ptr = none)
      (bytes : List UInt8) : Reachable (s.intern ptr bytes)
  | collect {s : RecycledCaching} (h : Reachable s) (keep : StringPtr → Bool) : Reachable (s.collect keep)
  | lookup {s : RecycledCaching} (h : Reachable s) {ptr : StringPtr} {bytes : List UInt8}
      (hb : s.strings ptr = some bytes) {mode : AnchorMode} {r : CompiledPattern × PatternCache}
      (hr : s.cache.cachedPatternAt ptr bytes mode = some r) : Reachable { s with cache := r.2 }

/-- An entry is for a live string, with its length and its program. -/
def Serves (strings : StringPtr → Option (List UInt8)) (slot : (StringPtr × AnchorMode) × PatternCacheEntry) :
    Prop :=
  ∃ bytes, strings slot.1.1 = some bytes ∧ slot.2.byteLen = bytes.length ∧
    slot.2.pattern = compile bytes slot.1.2

/-- What holds of the cache between the steps. -/
structure Ok (s : RecycledCaching) : Prop where
  live : ∀ slot ∈ s.cache.patterns.slots, Serves s.strings slot
  bytes : s.cache.patternBytes = (s.cache.patterns.slots.map fun slot => slot.2.byteLen).sum
  bytes_le : s.cache.patternBytes ≤ PATTERN_CACHE_BYTES
  entries_le : s.cache.patterns.slots.length ≤ PATTERN_CACHE_ENTRIES

variable {s : RecycledCaching} {ptr : StringPtr} {bytes : List UInt8} {mode : AnchorMode}

/-! ## The steps -/

/-- A free handle is that of no entry, so the entries stay what they are. -/
theorem Ok.intern (h : s.Ok) (hfree : s.strings ptr = none) (bytes : List UInt8) : (s.intern ptr bytes).Ok := by
  refine ⟨fun slot hs => ?_, h.bytes, h.bytes_le, h.entries_le⟩
  obtain ⟨b, hb, hlen, hprog⟩ := h.live slot hs
  have hne : slot.1.1 ≠ ptr := fun heq => by
    rw [heq, hfree] at hb
    cases hb
  exact ⟨b, (Function.update_of_ne hne _ _).trans hb, hlen, hprog⟩

/-- Pruning drops the entries of what was swept, and keeps the order of the rest. -/
theorem slots_collect (s : RecycledCaching) (keep : StringPtr → Bool) :
    (s.collect keep).cache.patterns.slots
      = s.cache.patterns.slots.filter fun slot => ((s.collect keep).strings slot.1.1).isSome := rfl

theorem Ok.collect (h : s.Ok) (keep : StringPtr → Bool) : (s.collect keep).Ok := by
  have hsub : List.Sublist (s.collect keep).cache.patterns.slots s.cache.patterns.slots := List.filter_sublist
  refine ⟨fun slot hs => ?_, rfl, ?_, hsub.length_le.trans h.entries_le⟩
  · rw [slots_collect, List.mem_filter] at hs
    obtain ⟨b, hb, hlen, hprog⟩ := h.live slot hs.1
    obtain ⟨b', hb'⟩ := Option.isSome_iff_exists.1 hs.2
    -- A string that was not swept keeps its bytes.
    have hkept : (s.collect keep).strings slot.1.1 = s.strings slot.1.1 := by
      show (if keep slot.1.1 then s.strings slot.1.1 else none) = _
      refine if_pos (Bool.of_not_eq_false fun hk => ?_)
      have : (s.collect keep).strings slot.1.1 = none := if_neg (by rw [hk]; exact Bool.false_ne_true)
      rw [this] at hb'
      cases hb'
    exact ⟨b, hkept.trans hb, hlen, hprog⟩
  · have hle := (hsub.map fun slot => slot.2.byteLen).sum_le_sum fun _ _ => Nat.zero_le _
    exact hle.trans (h.bytes ▸ h.bytes_le)

/-- What evicting leaves has room for the new pattern. -/
theorem room_of_evict {patternLen : Nat} {slots : List ((StringPtr × AnchorMode) × PatternCacheEntry)}
    {patternBytes : Nat} {cache : PatternCache}
    (h : PatternCache.evict patternLen slots patternBytes = some cache) :
    cache.patterns.slots.length < PATTERN_CACHE_ENTRIES ∧
      cache.patternBytes + patternLen ≤ PATTERN_CACHE_BYTES := by
  induction slots generalizing patternBytes with
  | nil =>
    rw [PatternCache.evict] at h
    split at h
    · cases h
    · next hroom =>
      cases h
      exact ⟨Nat.lt_of_not_le fun hle => hroom (.inl hle), Nat.le_of_not_lt fun hlt => hroom (.inr hlt)⟩
  | cons slot slots ih =>
    rw [PatternCache.evict] at h
    split at h
    · exact ih h
    · next hroom =>
      cases h
      exact ⟨Nat.lt_of_not_le fun hle => hroom (.inl hle), Nat.le_of_not_lt fun hlt => hroom (.inr hlt)⟩

/-- Inserting a key that has no entry appends it. -/
theorem slots_insert {cache : PatternCache} {key : StringPtr × AnchorMode} (entry : PatternCacheEntry)
    (hfresh : ∀ slot ∈ cache.patterns.slots, (slot.1 == key) = false) :
    (cache.patterns.insert key entry).slots = cache.patterns.slots ++ [(key, entry)] := by
  have hnone : cache.patterns.getIndexOf (· == key) = none := by
    rw [IndexMap.getIndexOf, List.findIdx?_eq_none_iff]
    exact hfresh
  rw [IndexMap.insert, hnone]

/-- What a lookup does to the entries: nothing, or it drops the oldest and appends the one asked for. -/
def Appends (slots slots' : List ((StringPtr × AnchorMode) × PatternCacheEntry)) (key : StringPtr × AnchorMode) :
    Prop :=
  slots' = slots ∨ ∃ kept entry, kept <:+ slots ∧ slots' = kept ++ [(key, entry)]

/-- A lookup gives the program of the bytes that the handle names. -/
theorem Ok.lookup (h : s.Ok) (hb : s.strings ptr = some bytes) (mode : AnchorMode) :
    ∃ cache, s.cache.cachedPatternAt ptr bytes mode = some (compile bytes (mode.effective bytes), cache) ∧
      Ok { s with cache } ∧
      Appends s.cache.patterns.slots cache.patterns.slots (ptr, mode.effective bytes) := by
  rw [PatternCache.cachedPatternAt]
  dsimp only
  cases hget : s.cache.patterns.get (· == (ptr, mode.effective bytes)) with
  | some entry =>
    obtain ⟨slot, hfind, rfl⟩ := Option.map_eq_some_iff.1 hget
    have hkey : slot.1 = (ptr, mode.effective bytes) := by simpa using List.find?_some hfind
    obtain ⟨b, hlive, -, hprog⟩ := h.live slot (List.mem_of_find?_eq_some hfind)
    obtain rfl : bytes = b := Option.some.inj (hb.symm.trans (by rw [hkey] at hlive; exact hlive))
    rw [hkey] at hprog
    exact ⟨s.cache, congrArg (fun pattern => some (pattern, s.cache)) hprog, h, .inl rfl⟩
  | none =>
    dsimp only
    split
    · exact ⟨s.cache, rfl, h, .inl rfl⟩
    · rename_i hfits
      obtain ⟨cache, hc, hsuf, hbytes⟩ := PatternCaching.evict_spec
        (Nat.le_of_not_lt fun hlt => hfits (.inr hlt)) s.cache.patterns.slots h.bytes
      obtain ⟨hentries, hroom⟩ := room_of_evict hc
      have hfresh : ∀ slot ∈ cache.patterns.slots, (slot.1 == (ptr, mode.effective bytes)) = false := by
        rw [IndexMap.get, Option.map_eq_none_iff, List.find?_eq_none] at hget
        exact fun slot hs => Bool.eq_false_iff.2 (hget slot (hsuf.subset hs))
      have hinsert := slots_insert ⟨compile bytes (mode.effective bytes), bytes.length⟩ hfresh
      refine ⟨_, by rw [hc]; rfl, ⟨fun slot hs => ?_, ?_, hroom, ?_⟩, .inr ⟨_, _, hsuf, hinsert⟩⟩
      · simp only [hinsert, List.mem_append, List.mem_singleton] at hs
        rcases hs with hs | rfl
        · exact h.live slot (hsuf.subset hs)
        · exact ⟨bytes, hb, rfl, rfl⟩
      · simp only [hinsert, List.map_append, List.sum_append, hbytes]
        rfl
      · simp only [hinsert, List.length_append]
        exact hentries

/-- Every state of a run is in order. -/
theorem Reachable.ok (h : s.Reachable) : s.Ok := by
  induction h with
  | new => exact ⟨nofun, rfl, Nat.zero_le _, Nat.zero_le _⟩
  | intern _ hfree bytes ih => exact ih.intern hfree bytes
  | collect _ keep ih => exact ih.collect keep
  | lookup _ hb hr ih =>
    obtain ⟨cache, hc, hok, -⟩ := ih.lookup hb _
    rw [hc, Option.some.injEq] at hr
    exact hr ▸ hok

/-- **The pattern cache.** In every state that interning under free handles, collecting and looking up lead
    to: a lookup gives the program of the bytes its handle names now in the mode that takes effect, and never
    lacks an entry to evict; every entry is for a live string, the count of bytes is the sum of the lengths,
    and both limits hold; the entries stay in the order in which they were inserted, as a collection drops
    entries from among them and a lookup drops the oldest and appends. -/
theorem pattern_cache_sound (h : s.Reachable) :
    (∀ ptr bytes mode, s.strings ptr = some bytes →
      ∃ cache, s.cache.cachedPatternAt ptr bytes mode = some (compile bytes (mode.effective bytes), cache) ∧
        Appends s.cache.patterns.slots cache.patterns.slots (ptr, mode.effective bytes)) ∧
    (∀ slot ∈ s.cache.patterns.slots, Serves s.strings slot) ∧
    s.cache.patternBytes = (s.cache.patterns.slots.map fun slot => slot.2.byteLen).sum ∧
    s.cache.patternBytes ≤ PATTERN_CACHE_BYTES ∧
    s.cache.patterns.slots.length ≤ PATTERN_CACHE_ENTRIES ∧
    ∀ keep, (s.collect keep).cache.patterns.slots
      = s.cache.patterns.slots.filter fun slot => ((s.collect keep).strings slot.1.1).isSome := by
  refine ⟨fun ptr bytes mode hb => ?_, h.ok.live, h.ok.bytes, h.ok.bytes_le, h.ok.entries_le,
    slots_collect s⟩
  obtain ⟨cache, hc, -, happ⟩ := h.ok.lookup hb mode
  exact ⟨cache, hc, happ⟩

/-- The handle of a collected pattern, taken by another one. -/
theorem pattern_cache_sound_reused : ∃ s : RecycledCaching, s.strings ⟨0, 0⟩ = some [ascii 'b'] ∧
    ∃ cache, s.cache.cachedPatternAt ⟨0, 0⟩ [ascii 'b'] .honour = some (compile [ascii 'b'] .honour, cache) := by
  have hfirst := @Reachable.intern _ .new ⟨0, 0⟩ rfl [ascii 'a']
  obtain ⟨cache, hc, -⟩ := (pattern_cache_sound hfirst).1 ⟨0, 0⟩ [ascii 'a'] .honour rfl
  have hswept := (@Reachable.lookup _ hfirst ⟨0, 0⟩ _ rfl _ _ hc).collect fun _ => false
  have hagain := @Reachable.intern _ hswept ⟨0, 0⟩ rfl [ascii 'b']
  obtain ⟨cache', hc', -⟩ := (pattern_cache_sound hagain).1 ⟨0, 0⟩ [ascii 'b'] .honour rfl
  exact ⟨_, rfl, cache', hc'⟩

end RecycledCaching

end Dellingr
