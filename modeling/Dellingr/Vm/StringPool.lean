import Dellingr.Vm.Val
import Mathlib.Data.List.Pairwise

/-!
# Interned strings

The pool keeps each string once: equal bytes have one handle (`StringPool.unique`).
A handle is never given out again, since a slot that is used again has another
generation; the model numbers handles by a counter. Collecting strings
(`StringPool.retain`) keeps the handles of those that stay.
-/

namespace Dellingr

/-- The limit of the length of a string. -/
def MAX_STRING_BYTES : Nat := 16 * 1024 * 1024

/-- The live strings, by their handles. -/
structure StringPool where
  strings : List (StringPtr × List UInt8)
  /-- Handles from here on have not been given out. -/
  next : Nat
  unique : strings.Pairwise fun a b => a.1 ≠ b.1 ∧ a.2 ≠ b.2
  old : ∀ e ∈ strings, e.1.slot < next

namespace StringPool

variable {pool : StringPool} {p q : StringPtr} {bytes : List UInt8}

/-- The pool without strings. -/
def empty : StringPool := ⟨[], 0, .nil, by simp⟩

/-- The bytes of a string; a handle of a collected string has none. -/
def get (pool : StringPool) (p : StringPtr) : Option (List UInt8) :=
  (pool.strings.find? fun e => e.1 = p).map Prod.snd

/-- The handle of bytes, if they are interned. -/
def find (pool : StringPool) (bytes : List UInt8) : Option StringPtr :=
  (pool.strings.find? fun e => e.2 = bytes).map Prod.fst

/-- Intern bytes: the handle they have, or a new one. -/
def alloc (bytes : List UInt8) (pool : StringPool) : StringPtr × StringPool :=
  match _hf : pool.find bytes with
  | some p => (p, pool)
  | none =>
    (⟨pool.next, 0⟩, {
      strings := pool.strings ++ [(⟨pool.next, 0⟩, bytes)]
      next := pool.next + 1
      unique := by
        refine List.pairwise_append.2 ⟨pool.unique, List.pairwise_singleton _ _, ?_⟩
        intro a ha b hb
        rw [List.mem_singleton.1 hb]
        refine ⟨fun h => absurd (pool.old a ha) (by rw [h]; exact Nat.lt_irrefl _), fun h => ?_⟩
        rw [find, Option.map_eq_none_iff, List.find?_eq_none] at _hf
        exact _hf a ha (by simpa using h)
      old := by
        intro e he
        rcases List.mem_append.1 he with he | he
        · exact Nat.lt_succ_of_lt (pool.old e he)
        · rw [List.mem_singleton.1 he]
          exact Nat.lt_succ_self _ })

/-- Collect the strings that are not kept. -/
def retain (keep : StringPtr → Bool) (pool : StringPool) : StringPool where
  strings := pool.strings.filter fun e => keep e.1
  next := pool.next
  unique := pool.unique.sublist List.filter_sublist
  old e he := pool.old e (List.mem_filter.1 he).1

/-- Two strings of the pool differ in their handles and in their bytes. -/
theorem differ {a b : StringPtr × List UInt8} (ha : a ∈ pool.strings) (hb : b ∈ pool.strings)
    (h : a ≠ b) : a.1 ≠ b.1 ∧ a.2 ≠ b.2 := by
  have : Std.Symm fun a b : StringPtr × List UInt8 => a.1 ≠ b.1 ∧ a.2 ≠ b.2 :=
    ⟨fun _ _ h => ⟨h.1.symm, h.2.symm⟩⟩
  exact pool.unique.forall ha hb h

theorem get_eq_some : pool.get p = some bytes ↔ (p, bytes) ∈ pool.strings := by
  rw [get, Option.map_eq_some_iff]
  constructor
  · rintro ⟨⟨q, b⟩, hf, rfl⟩
    have hq : q = p := by simpa using List.find?_some hf
    exact hq ▸ List.mem_of_find?_eq_some hf
  · intro hm
    cases hf : pool.strings.find? fun e => e.1 = p with
    | none =>
      rw [List.find?_eq_none] at hf
      exact absurd hm fun hm => hf _ hm (by simp)
    | some e =>
      have he : e.1 = p := by simpa using List.find?_some hf
      refine ⟨e, rfl, ?_⟩
      -- Handles differ in the pool, so this is the entry of the handle.
      by_contra hne
      have hmem := List.mem_of_find?_eq_some hf
      have hne' : e ≠ (p, bytes) := fun h => hne (by rw [h])
      exact (differ hmem hm hne').1 he

/-- Equal bytes have one handle. -/
theorem get_inj (hp : pool.get p = some bytes) (hq : pool.get q = some bytes) : p = q := by
  rw [get_eq_some] at hp hq
  by_contra hne
  have hne' : (p, bytes) ≠ (q, bytes) := fun h => hne (Prod.mk.inj h).1
  exact (differ hp hq hne').2 rfl

theorem find_eq_some : pool.find bytes = some p ↔ pool.get p = some bytes := by
  rw [find, Option.map_eq_some_iff]
  constructor
  · rintro ⟨⟨q, b⟩, hf, rfl⟩
    have hb : b = bytes := by simpa using List.find?_some hf
    exact get_eq_some.2 (hb ▸ List.mem_of_find?_eq_some hf)
  · intro hg
    have hm := get_eq_some.1 hg
    cases hf : pool.strings.find? fun e => e.2 = bytes with
    | none =>
      rw [List.find?_eq_none] at hf
      exact absurd hm fun hm => hf _ hm (by simp)
    | some e =>
      have he : e.2 = bytes := by simpa using List.find?_some hf
      refine ⟨e, rfl, get_inj (get_eq_some.2 ?_) hg⟩
      rw [← he]
      exact List.mem_of_find?_eq_some hf

/-- What interning does: the bytes have the handle, other strings stay, and no other
    handle comes into use. -/
theorem alloc_spec {pool' : StringPool} (h : pool.alloc bytes = (p, pool')) :
    pool'.get p = some bytes ∧ (∀ q b, pool.get q = some b → pool'.get q = some b) ∧
    ∀ q b, pool'.get q = some b → q = p ∨ pool.get q = some b := by
  unfold alloc at h
  split at h
  · rename_i q hf
    cases h
    exact ⟨find_eq_some.1 hf, fun _ _ h => h, fun _ _ h => .inr h⟩
  · cases h
    refine ⟨get_eq_some.2 (by simp), fun q b hq => ?_, fun q b hq => ?_⟩
    · rw [get_eq_some] at hq ⊢
      exact List.mem_append_left _ hq
    · rw [get_eq_some] at hq
      rcases List.mem_append.1 hq with hq | hq
      · exact .inr (get_eq_some.2 hq)
      · exact .inl (Prod.mk.inj (List.mem_singleton.1 hq)).1

end StringPool

end Dellingr
