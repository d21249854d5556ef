import Dellingr.Lib.IndexMap
import Dellingr.Patterns.Reading
import Dellingr.Vm.StringPool

/-!
# The cache of compiled patterns

A program that was compiled is kept under the handle of its pattern and the mode that decides how
the pattern compiles, the oldest programs giving way to new ones (`cachedPatternAt`). The handles
are weak: a collection drops the entries of the strings it frees (`prune`).

Whatever was interned, collected and looked up before, a lookup gives the program that compiling
the pattern in the mode asked for gives, also where another mode has filled the entry
(`literal_anchor_mode`).
-/

namespace Dellingr

open Patterns

/-- The limit of the entries. -/
def PATTERN_CACHE_ENTRIES : Nat := 256

/-- The limit of the bytes of all patterns together. -/
def PATTERN_CACHE_BYTES : Nat := MAX_STRING_BYTES

structure PatternCacheEntry where
  pattern : CompiledPattern
  byteLen : Nat

/-- The entries, the oldest first, and how many bytes their patterns have. -/
structure PatternCache where
  patterns : IndexMap (StringPtr × AnchorMode) PatternCacheEntry
  patternBytes : Nat

namespace PatternCache

def empty : PatternCache := ⟨⟨[]⟩, 0⟩

/-- Evict the oldest entries until there is room for a pattern of so many bytes. The source
    relies on an entry being there to evict. -/
def evict (patternLen : Nat) : List ((StringPtr × AnchorMode) × PatternCacheEntry) → Nat →
    Option PatternCache
  | slots, patternBytes =>
    if PATTERN_CACHE_ENTRIES ≤ slots.length ∨ PATTERN_CACHE_BYTES < patternBytes + patternLen then
      match slots with
      | [] => none
      | evicted :: slots => evict patternLen slots (patternBytes - evicted.2.byteLen)
    else some ⟨⟨slots⟩, patternBytes⟩

/-- The program of a pattern, which is compiled and kept if it is not there. -/
def cachedPatternAt (ptr : StringPtr) (bytes : List UInt8) (mode : AnchorMode)
    (cache : PatternCache) : Option (CompiledPattern × PatternCache) :=
  let key := (ptr, mode.effective bytes)
  match cache.patterns.get (· == key) with
  | some entry => some (entry.pattern, cache)
  | none =>
    let compiled := compile bytes key.2
    -- A pattern that does not fit by itself is not kept.
    if PATTERN_CACHE_ENTRIES = 0 ∨ PATTERN_CACHE_BYTES < bytes.length then some (compiled, cache)
    else
      (evict bytes.length cache.patterns.slots cache.patternBytes).map fun cache =>
        (compiled, ⟨cache.patterns.insert key ⟨compiled, bytes.length⟩,
          cache.patternBytes + bytes.length⟩)

/-- Drop the entries of strings that are not live. -/
def prune (live : StringPtr → Bool) (cache : PatternCache) : PatternCache :=
  let patterns := cache.patterns.retain fun key _ => live key.1
  ⟨patterns, (patterns.slots.map fun slot => slot.2.byteLen).sum⟩

end PatternCache

/-! ## Runs -/

/-- The strings and the cache. -/
structure PatternCaching where
  pool : StringPool
  cache : PatternCache

namespace PatternCaching

/-- The states that interning, collecting and looking up lead to. -/
inductive Reachable : PatternCaching → Prop
  | new : Reachable ⟨.empty, .empty⟩
  | intern {s : PatternCaching} (h : Reachable s) (bytes : List UInt8) :
      Reachable { s with pool := (s.pool.alloc bytes).2 }
  | collect {s : PatternCaching} (h : Reachable s) (keep : StringPtr → Bool) :
      Reachable ⟨s.pool.retain keep, s.cache.prune fun ptr => ((s.pool.retain keep).get ptr).isSome⟩
  | lookup {s : PatternCaching} (h : Reachable s) {ptr : StringPtr} {bytes : List UInt8}
      (hb : s.pool.get ptr = some bytes) {mode : AnchorMode} {r : CompiledPattern × PatternCache}
      (hr : s.cache.cachedPatternAt ptr bytes mode = some r) : Reachable { s with cache := r.2 }

/-- The number of bytes is right, and every entry is the program of its pattern in its mode. -/
structure Ok (s : PatternCaching) : Prop where
  bytes : s.cache.patternBytes = (s.cache.patterns.slots.map fun slot => slot.2.byteLen).sum
  old : ∀ slot ∈ s.cache.patterns.slots, slot.1.1.slot < s.pool.next
  exact : ∀ slot ∈ s.cache.patterns.slots, ∀ bytes, s.pool.get slot.1.1 = some bytes →
    slot.2.pattern = compile bytes slot.1.2

variable {s : PatternCaching} {ptr : StringPtr} {bytes : List UInt8} {mode : AnchorMode}

/-- Interning a string uses no handle of an entry again. -/
theorem Ok.intern (h : s.Ok) (bytes : List UInt8) : Ok { s with pool := (s.pool.alloc bytes).2 } := by
  have hnew : (s.pool.alloc bytes).2 = s.pool ∨
      (s.pool.alloc bytes).1.slot = s.pool.next ∧ s.pool.next ≤ (s.pool.alloc bytes).2.next := by
    unfold StringPool.alloc
    split
    · exact .inl rfl
    · exact .inr ⟨rfl, Nat.le_succ _⟩
  refine ⟨h.bytes, fun slot hs => ?_, fun slot hs b hb => ?_⟩
  · rcases hnew with heq | ⟨-, hle⟩
    · simp only [heq]
      exact h.old slot hs
    · exact Nat.lt_of_lt_of_le (h.old slot hs) hle
  · refine h.exact slot hs b ?_
    rcases hnew with heq | ⟨hslot, -⟩
    · rwa [heq] at hb
    · -- The new handle is no handle of an entry.
      have hspec := StringPool.alloc_spec
        (show s.pool.alloc bytes = ((s.pool.alloc bytes).1, (s.pool.alloc bytes).2) from rfl)
      refine (hspec.2.2 slot.1.1 b hb).resolve_left fun hptr => ?_
      have := h.old slot hs
      rw [hptr, hslot] at this
      exact absurd this (Nat.lt_irrefl _)

theorem Ok.collect (h : s.Ok) (keep : StringPtr → Bool) (live : StringPtr → Bool) :
    Ok ⟨s.pool.retain keep, s.cache.prune live⟩ := by
  refine ⟨rfl, fun slot hs => h.old slot (List.mem_filter.1 hs).1, fun slot hs b hb => ?_⟩
  refine h.exact slot (List.mem_filter.1 hs).1 b ?_
  rw [StringPool.get_eq_some] at hb ⊢
  exact (List.mem_filter.1 hb).1

/-- Evicting keeps some of the entries, and ends where no pattern alone is too large. -/
theorem evict_spec {patternLen patternBytes : Nat} (hle : patternLen ≤ PATTERN_CACHE_BYTES)
    (slots : List ((StringPtr × AnchorMode) × PatternCacheEntry))
    (hb : patternBytes = (slots.map fun slot => slot.2.byteLen).sum) :
    ∃ cache, PatternCache.evict patternLen slots patternBytes = some cache ∧
      cache.patterns.slots <:+ slots ∧
      cache.patternBytes = (cache.patterns.slots.map fun slot => slot.2.byteLen).sum := by
  induction slots generalizing patternBytes with
  | nil =>
    have hzero : patternBytes = 0 := hb
    have hroom : ¬(PATTERN_CACHE_ENTRIES ≤ ([] : List ((StringPtr × AnchorMode) × PatternCacheEntry)).length ∨
        PATTERN_CACHE_BYTES < patternBytes + patternLen) := by
      rw [List.length_nil, PATTERN_CACHE_ENTRIES]
      omega
    rw [PatternCache.evict, if_neg hroom]
    exact ⟨_, rfl, List.suffix_refl _, hb⟩
  | cons slot slots ih =>
    rw [PatternCache.evict]
    split
    · rw [List.map_cons, List.sum_cons] at hb
      obtain ⟨cache, hc, hsuf, hbytes⟩ := @ih (patternBytes - slot.2.byteLen) (by omega)
      exact ⟨cache, hc, hsuf.trans (List.suffix_cons _ _), hbytes⟩
    · exact ⟨_, rfl, List.suffix_refl _, hb⟩

/-- A lookup gives the program of the pattern in the mode. -/
theorem Ok.lookup (h : s.Ok) (hb : s.pool.get ptr = some bytes) (mode : AnchorMode) :
    ∃ cache, s.cache.cachedPatternAt ptr bytes mode = some (compile bytes mode, cache) ∧
      Ok { s with cache } := by
  have hcompile := compile_effective bytes mode
  rw [PatternCache.cachedPatternAt]
  simp only
  cases hget : s.cache.patterns.get (· == (ptr, mode.effective bytes)) with
  | some entry =>
    obtain ⟨slot, hfind, rfl⟩ := Option.map_eq_some_iff.1 hget
    have hkey : slot.1 = (ptr, mode.effective bytes) := by simpa using List.find?_some hfind
    have hentry := h.exact slot (List.mem_of_find?_eq_some hfind) bytes (by rw [hkey]; exact hb)
    rw [hkey, hcompile] at hentry
    exact ⟨s.cache, congrArg (fun pattern => some (pattern, s.cache)) hentry, h⟩
  | none =>
    simp only [hcompile]
    split
    · exact ⟨s.cache, rfl, h⟩
    · rename_i hfits
      obtain ⟨cache, hc, hsuf, hbytes⟩ :=
        evict_spec (Nat.le_of_not_lt fun hlt => hfits (.inr hlt)) s.cache.patterns.slots h.bytes
      have hfresh : ∀ slot ∈ s.cache.patterns.slots, (slot.1 == (ptr, mode.effective bytes)) = false := by
        rw [IndexMap.get, Option.map_eq_none_iff, List.find?_eq_none] at hget
        exact fun slot hs => Bool.eq_false_iff.2 (hget slot hs)
      have hinsert : (cache.patterns.insert (ptr, mode.effective bytes)
          ⟨compile bytes mode, bytes.length⟩).slots =
            cache.patterns.slots ++ [((ptr, mode.effective bytes), ⟨compile bytes mode, bytes.length⟩)] := by
        have hnone : cache.patterns.getIndexOf (· == (ptr, mode.effective bytes)) = none := by
          rw [IndexMap.getIndexOf, List.findIdx?_eq_none_iff]
          exact fun slot hs => hfresh slot (hsuf.subset hs)
        rw [IndexMap.insert, hnone]
      refine ⟨_, by rw [hc]; rfl, ?_, ?_, ?_⟩
      · simp only [hinsert, List.map_append, List.sum_append, hbytes]
        rfl
      · intro slot hs
        simp only [hinsert, List.mem_append, List.mem_singleton] at hs
        rcases hs with hs | rfl
        · exact h.old slot (hsuf.subset hs)
        · exact s.pool.old _ (StringPool.get_eq_some.1 hb)
      · intro slot hs b hget'
        simp only [hinsert, List.mem_append, List.mem_singleton] at hs
        rcases hs with hs | rfl
        · exact h.exact slot (hsuf.subset hs) b hget'
        · obtain rfl : bytes = b := Option.some.inj (hb.symm.trans hget')
          exact hcompile.symm

theorem Reachable.ok (h : s.Reachable) : s.Ok := by
  induction h with
  | new => exact ⟨rfl, nofun, nofun⟩
  | intern _ bytes ih => exact ih.intern bytes
  | collect _ keep ih => exact ih.collect keep _
  | lookup _ hb hr ih =>
    obtain ⟨cache, hc, hok⟩ := ih.lookup hb _
    rw [hc, Option.some.injEq] at hr
    exact hr ▸ hok

end PatternCaching

/-- Where a leading `^` does not anchor, a pattern compiles as one whose `^` is escaped, and a
    pattern without one as it does in the other mode. The modes are told apart exactly where their
    programs differ, and a lookup gives the program of its mode in every state of the cache. -/
theorem literal_anchor_mode (pattern : List UInt8) (mode mode' : AnchorMode) :
    (compile pattern .literal =
      if pattern.head? = some (ascii '^') then compile (lEsc :: pattern) .honour
      else compile pattern .honour) ∧
    (mode.effective pattern = mode'.effective pattern ↔
      compile pattern mode = compile pattern mode') ∧
    ∀ s : PatternCaching, s.Reachable → ∀ ptr, s.pool.get ptr = some pattern →
      ∃ cache, s.cache.cachedPatternAt ptr pattern mode = some (compile pattern mode, cache) := by
  refine ⟨?_, effective_eq_iff pattern mode mode', fun s h ptr hb => ?_⟩
  · split
    · exact compile_literal ‹_›
    · rename_i h
      rw [← compile_effective pattern .literal, AnchorMode.effective, if_neg h]
  · obtain ⟨cache, hc, -⟩ := h.ok.lookup hb mode
    exact ⟨cache, hc⟩

/-- The pattern `^a` is looked up in both modes, one after the other. -/
theorem literal_anchor_mode_caret :
    compile [ascii '^', ascii 'a'] .literal = compile [lEsc, ascii '^', ascii 'a'] .honour ∧
    ∃ cache, PatternCache.empty.cachedPatternAt ⟨0, 0⟩ [ascii '^', ascii 'a'] .literal =
      some (compile [ascii '^', ascii 'a'] .literal, cache) := by
  obtain ⟨hprogram, -, hlookup⟩ := literal_anchor_mode [ascii '^', ascii 'a'] .literal .honour
  exact ⟨hprogram, hlookup _ (.intern .new [ascii '^', ascii 'a']) ⟨0, 0⟩ rfl⟩

end Dellingr
