import Dellingr.Vm.Machine
import Mathlib.Data.List.Nodup

/-!
# The pool of captured variables

Captured variables live in the slots of one pool, and closures name them by their
indices. A slot has a colour: it is free, or it is occupied and the collector has
reached it or not. Marking reaches the slots in use, and a sweep puts the others on
a free list, from which allocation takes the slot freed last.

The invariant (`UpvaluePool.Ok`) says that the free list names each free slot once and
nothing else. It makes a new cell one that no closure in use names.

An index has 32 bits, and allocation truncates the length of the pool to it without
a check. With `2 ^ 32` slots in use the next index is one in use
(`UpvaluePool.free_list_after_wrap`), so the invariant is proved for the runs in which
the pool does not grow past that (`PoolOp.Fits`).
-/

namespace Dellingr

/-- The colour of a slot: free, or occupied and reached or not. -/
inductive UpvalueSlotColor
  | free | unmarked | reachable
  deriving DecidableEq, Repr

/-- The pool: a variable and a colour for each slot, and the free slots, the one freed
    last first. -/
structure UpvaluePool where
  slots : List Upvalue
  colors : List UpvalueSlotColor
  free : List UInt32
  parallel : slots.length = colors.length

/-- The colour a sweep leaves a slot with. -/
def UpvalueSlotColor.swept : UpvalueSlotColor → UpvalueSlotColor
  | .reachable => .unmarked
  | .unmarked | .free => .free

namespace UpvaluePool

def new : UpvaluePool := ⟨[], [], [], rfl⟩

/-- Set a slot and its colour. -/
def put (pool : UpvaluePool) (i : Nat) (u : Upvalue) (c : UpvalueSlotColor) : UpvaluePool where
  slots := pool.slots.set i u
  colors := pool.colors.set i c
  free := pool.free
  parallel := by simp [pool.parallel]

/-- Allocate a slot: the one freed last, or a new one. -/
def alloc (u : Upvalue) (pool : UpvaluePool) : Option (UInt32 × UpvaluePool) :=
  match pool.free with
  | r :: rest =>
    if r.toNat < pool.slots.length then
      some (r, { pool.put r.toNat u .unmarked with free := rest })
    else none
  | [] =>
    some (.ofNat pool.slots.length, {
      slots := pool.slots ++ [u]
      colors := pool.colors ++ [.unmarked]
      free := []
      parallel := by simp [pool.parallel] })

/-- Mark a slot, which must be occupied. -/
def markSlot (r : UInt32) (pool : UpvaluePool) : Option UpvaluePool :=
  match pool.colors[r.toNat]? with
  | none | some .free => none
  | some _ => some { pool with
      colors := pool.colors.set r.toNat .reachable
      parallel := by simp [pool.parallel] }

/-- Sweep one slot. -/
def sweepSlot (pool : UpvaluePool) (i : Nat) : UpvaluePool :=
  match pool.colors[i]? with
  | some .reachable => { pool with
      colors := pool.colors.set i .unmarked
      parallel := by simp [pool.parallel] }
  | some .unmarked => { pool.put i (.closed .nil) .free with free := .ofNat i :: pool.free }
  | _ => pool

/-- Sweep the slots, in order. -/
def sweep (pool : UpvaluePool) : UpvaluePool :=
  (List.range pool.colors.length).foldl sweepSlot pool

/-- The variable of a slot. -/
def get (pool : UpvaluePool) (r : UInt32) : Option Upvalue := pool.slots[r.toNat]?

/-- Write the variable of a slot. -/
def set (r : UInt32) (u : Upvalue) (pool : UpvaluePool) : Option UpvaluePool :=
  if r.toNat < pool.slots.length then some { pool with
      slots := pool.slots.set r.toNat u
      parallel := by simp [pool.parallel] }
  else none

/-- A slot is occupied. -/
def Live (pool : UpvaluePool) (i : Nat) : Prop :=
  pool.colors[i]? = some .unmarked ∨ pool.colors[i]? = some .reachable

instance (pool : UpvaluePool) (i : Nat) : Decidable (pool.Live i) :=
  inferInstanceAs (Decidable (_ ∨ _))

end UpvaluePool

/-- What is done to a pool. -/
inductive PoolOp
  | alloc (u : Upvalue)
  | read (r : UInt32)
  | write (r : UInt32) (u : Upvalue)
  | close (r : UInt32) (v : Val)
  | mark (r : UInt32)
  | sweep
  deriving DecidableEq

/-- Do an operation; a misuse panics. -/
def PoolOp.apply (pool : UpvaluePool) : PoolOp → Option UpvaluePool
  | .alloc u => (pool.alloc u).map Prod.snd
  | .read r => (pool.get r).map fun _ => pool
  | .write r u => pool.set r u
  | .close r v => pool.set r (.closed v)
  | .mark r => pool.markSlot r
  | .sweep => some pool.sweep

/-- The slot an operation writes. -/
def PoolOp.target : PoolOp → Option UInt32
  | .write r _ | .close r _ => some r
  | _ => none

namespace UpvaluePool

variable {pool pool' : UpvaluePool} {op : PoolOp} {r : UInt32} {u : Upvalue}

/-- The free list names each free slot once, and nothing else; each slot has an index. -/
structure Ok (pool : UpvaluePool) : Prop where
  small : pool.slots.length ≤ 2 ^ 32
  nodup : pool.free.Nodup
  free_iff : ∀ r : UInt32, r ∈ pool.free ↔ pool.colors[r.toNat]? = some .free

/-- What an operation does to the occupied slots. -/
structure StepOk (op : PoolOp) (pool pool' : UpvaluePool) : Prop where
  /-- A slot is freed by a sweep when it is not marked, and never otherwise. -/
  freed : ∀ i, pool.Live i →
    (¬pool'.Live i ↔ op = .sweep ∧ pool.colors[i]? = some .unmarked)
  /-- A variable changes only when its slot is written. -/
  kept : ∀ i, pool.Live i → pool'.Live i → (∀ r ∈ op.target, r.toNat ≠ i) →
    pool'.slots[i]? = pool.slots[i]?
  /-- A slot that comes into use was not in use, and is given by its index. -/
  fresh : ∀ u, op = .alloc u → ∃ r, pool.alloc u = some (r, pool') ∧ ¬pool.Live r.toNat ∧
    pool'.Live r.toNat ∧ pool'.get r = some u
  /-- Only an allocation makes a slot occupied. -/
  occupied : ∀ i, pool'.Live i → pool.Live i ∨ ∃ u r, op = .alloc u ∧
    pool.alloc u = some (r, pool') ∧ r.toNat = i

section Facts

theorem length_put {i : Nat} {c : UpvalueSlotColor} :
    (pool.put i u c).slots.length = pool.slots.length := List.length_set

theorem ofNat_toNat {i : Nat} (h : i < 2 ^ 32) : (UInt32.ofNat i).toNat = i := by
  rw [UInt32.toNat_ofNat']
  exact Nat.mod_eq_of_lt h

theorem live_iff {i : Nat} : pool.Live i ↔ ∃ c, pool.colors[i]? = some c ∧ c ≠ .free := by
  constructor
  · rintro (h | h)
    · exact ⟨_, h, by decide⟩
    · exact ⟨_, h, by decide⟩
  · rintro ⟨c, hc, hne⟩
    cases c with
    | free => exact absurd rfl hne
    | unmarked => exact .inl hc
    | reachable => exact .inr hc

/-- A slot with the same colour is as much in use. -/
theorem live_congr {i : Nat} (h : pool'.colors[i]? = pool.colors[i]?) :
    pool'.Live i ↔ pool.Live i := by rw [Live, Live, h]

end Facts

/-! ## Allocation -/

/-- What allocation does: it takes a slot from the free list, or adds one. -/
theorem alloc_cases (h : pool.alloc u = some (r, pool')) :
    (∃ rest, pool.free = r :: rest ∧ r.toNat < pool.slots.length ∧
      pool'.slots = pool.slots.set r.toNat u ∧
      pool'.colors = pool.colors.set r.toNat .unmarked ∧ pool'.free = rest) ∨
    (pool.free = [] ∧ r = .ofNat pool.slots.length ∧ pool'.slots = pool.slots ++ [u] ∧
      pool'.colors = pool.colors ++ [.unmarked] ∧ pool'.free = []) := by
  rw [alloc] at h
  split at h
  · rename_i q rest hfree
    split at h
    · rename_i hlt
      cases h
      exact .inl ⟨rest, hfree, hlt, rfl, rfl, rfl⟩
    · cases h
  · rename_i hfree
    cases h
    exact .inr ⟨hfree, rfl, rfl, rfl, rfl⟩

/-- The slot an allocation gives, before and after, and the other slots. -/
structure Allocates (u : Upvalue) (r : UInt32) (pool pool' : UpvaluePool) : Prop where
  before : ¬pool.Live r.toNat
  color : pool'.colors[r.toNat]? = some .unmarked
  value : pool'.slots[r.toNat]? = some u
  colors : ∀ i, i ≠ r.toNat → pool'.colors[i]? = pool.colors[i]?
  slots : ∀ i, i ≠ r.toNat → pool'.slots[i]? = pool.slots[i]?

theorem allocates_of_ok (hok : pool.Ok) (hfit : pool.free = [] → pool.slots.length < 2 ^ 32)
    (h : pool.alloc u = some (r, pool')) : Allocates u r pool pool' ∧ pool'.Ok := by
  rcases alloc_cases h with ⟨rest, hfree, hlt, hs, hc, hf⟩ | ⟨hfree, rfl, hs, hc, hf⟩
  · -- The slot was free, and leaves the free list.
    have hcolor : pool.colors[r.toNat]? = some .free :=
      (hok.free_iff r).1 (by rw [hfree]; exact List.mem_cons_self)
    have hlt' : r.toNat < pool.colors.length := pool.parallel ▸ hlt
    have hnodup := hok.nodup
    rw [hfree, List.nodup_cons] at hnodup
    refine ⟨⟨?_, ?_, ?_, fun i hi => ?_, fun i hi => ?_⟩, ⟨?_, hf ▸ hnodup.2, fun q => ?_⟩⟩
    · simp [Live, hcolor]
    · rw [hc, List.getElem?_set_self hlt']
    · rw [hs, List.getElem?_set_self hlt]
    · rw [hc, List.getElem?_set_ne hi.symm]
    · rw [hs, List.getElem?_set_ne hi.symm]
    · rw [hs, List.length_set]
      exact hok.small
    · rw [hf, hc]
      by_cases hq : q = r
      · rw [hq, List.getElem?_set_self hlt']
        simp [hnodup.1]
      · have hne : r.toNat ≠ q.toNat := fun h => hq (UInt32.toNat_inj.1 h.symm)
        rw [List.getElem?_set_ne hne, ← hok.free_iff, hfree, List.mem_cons, or_iff_right hq]
  · -- The slot is a new one, which has an index.
    have hlt := hfit hfree
    have hr : (UInt32.ofNat pool.slots.length).toNat = pool.slots.length := ofNat_toNat hlt
    have hcolors : ∀ i, i ≠ pool.slots.length → pool'.colors[i]? = pool.colors[i]? := by
      intro i hi
      rw [hc, pool.parallel] at *
      rcases Nat.lt_or_gt_of_ne hi with hi | hi
      · rw [List.getElem?_append_left hi]
      · rw [List.getElem?_eq_none (by simp; omega), List.getElem?_eq_none (by omega)]
    refine ⟨⟨?_, ?_, ?_, ?_, fun i hi => ?_⟩, ⟨?_, by rw [hf]; exact List.nodup_nil, fun q => ?_⟩⟩
    · rw [hr, Live, List.getElem?_eq_none (by rw [pool.parallel])]
      simp
    · rw [hr, hc, pool.parallel, List.getElem?_concat_length]
    · rw [hr, hs, List.getElem?_concat_length]
    · rw [hr]
      exact hcolors
    · rw [hr] at hi
      rw [hs]
      rcases Nat.lt_or_gt_of_ne hi with hi | hi
      · rw [List.getElem?_append_left hi]
      · rw [List.getElem?_eq_none (by simp; omega), List.getElem?_eq_none (by omega)]
    · rw [hs, List.length_append, List.length_singleton]
      exact hlt
    · rw [hf]
      by_cases hq : q.toNat = pool.slots.length
      · rw [hq, hc, pool.parallel, List.getElem?_concat_length]
        simp
      · rw [hcolors _ hq, ← hok.free_iff, hfree]

/-! ## Sweeps -/

/-- What is swept after `k` slots. -/
structure Swept (k : Nat) (pool pool' : UpvaluePool) : Prop where
  length : pool'.slots.length = pool.slots.length
  colors : ∀ i, pool'.colors[i]? =
    if i < k then (pool.colors[i]?).map .swept else pool.colors[i]?
  slots : ∀ i, (k ≤ i ∨ pool.colors[i]? ≠ some .unmarked) → pool'.slots[i]? = pool.slots[i]?
  free : pool'.free =
    (((List.range k).filter fun i => pool.colors[i]? = some .unmarked).reverse.map .ofNat) ++
      pool.free

theorem swept_step {k : Nat} (hk : k < pool.colors.length) (h : Swept k pool pool') :
    Swept (k + 1) pool (pool'.sweepSlot k) := by
  have hcolor : pool'.colors[k]? = pool.colors[k]? := by
    rw [h.colors, if_neg (Nat.lt_irrefl k)]
  have hk' : k < pool'.colors.length := by
    rw [← pool'.parallel, h.length, pool.parallel]
    exact hk
  -- The colours below and above the slot are as they were.
  have hother : ∀ {i : Nat}, i ≠ k → (if i < k then (pool.colors[i]?).map .swept
      else pool.colors[i]?) = if i < k + 1 then (pool.colors[i]?).map .swept
      else pool.colors[i]? := by
    intro i hi
    by_cases hlt : i < k
    · rw [if_pos hlt, if_pos (Nat.lt_succ_of_lt hlt)]
    · rw [if_neg hlt, if_neg (by omega)]
  have hfilter : ∀ b, decide (pool.colors[k]? = some .unmarked) = b →
      (List.range (k + 1)).filter (fun i => pool.colors[i]? = some .unmarked) =
        (List.range k).filter (fun i => pool.colors[i]? = some .unmarked) ++
          bif b then [k] else [] := by
    rintro b rfl
    rw [List.range_succ, List.filter_append, List.filter_singleton]
  cases hc : pool.colors[k]? with
  | none => exact absurd (List.getElem?_eq_none_iff.1 hc) (Nat.not_le.2 hk)
  | some c =>
    have hcolors : ∀ i, (pool'.colors.set k c.swept)[i]? =
        if i < k + 1 then (pool.colors[i]?).map .swept else pool.colors[i]? := by
      intro i
      by_cases hi : i = k
      · rw [hi, List.getElem?_set_self hk', if_pos (Nat.lt_succ_self k), hc]
        rfl
      · rw [List.getElem?_set_ne (Ne.symm hi), h.colors, hother hi]
    rw [sweepSlot, hcolor, hc]
    cases c with
    | free =>
      refine ⟨h.length, fun i => ?_, fun i hi => h.slots i (hi.imp_left (by omega)), ?_⟩
      · by_cases hi : i = k
        · rw [hi, hcolor, if_pos (Nat.lt_succ_self k), hc]
          rfl
        · rw [h.colors, hother hi]
      · rw [h.free, hfilter false (by rw [hc]; rfl)]
        simp
    | reachable =>
      refine ⟨h.length, hcolors, fun i hi => h.slots i (hi.imp_left (by omega)), ?_⟩
      show pool'.free = _
      rw [h.free, hfilter false (by rw [hc]; rfl)]
      simp
    | unmarked =>
      refine ⟨?_, hcolors, fun i hi => ?_, ?_⟩
      · show (pool'.slots.set k _).length = _
        rw [List.length_set, h.length]
      · have hne : k ≠ i := by
          rintro rfl
          exact hi.elim (fun h => absurd h (by omega)) fun h => h hc
        show (pool'.slots.set k _)[i]? = _
        rw [List.getElem?_set_ne hne]
        exact h.slots i (hi.imp_left (by omega))
      · show UInt32.ofNat k :: pool'.free = _
        rw [h.free, hfilter true (by rw [hc]; rfl)]
        simp

theorem swept_sweep (pool : UpvaluePool) : Swept pool.colors.length pool pool.sweep := by
  have hprefix : ∀ k ≤ pool.colors.length,
      Swept k pool ((List.range k).foldl sweepSlot pool) := by
    intro k
    induction k with
    | zero => exact fun _ => ⟨rfl, fun i => by simp, fun _ _ => rfl, by simp⟩
    | succ k ih =>
      intro hk
      rw [List.range_succ, List.foldl_append]
      exact swept_step hk (ih (by omega))
  exact hprefix _ (le_refl _)

/-- The colours after a sweep. -/
theorem sweep_colors (i : Nat) : pool.sweep.colors[i]? = (pool.colors[i]?).map .swept := by
  rw [(swept_sweep pool).colors]
  split
  · rfl
  · rw [List.getElem?_eq_none (by omega)]
    rfl

theorem mem_sweep_free : r ∈ pool.sweep.free ↔
    (∃ i, pool.colors[i]? = some .unmarked ∧ UInt32.ofNat i = r) ∨ r ∈ pool.free := by
  rw [(swept_sweep pool).free, List.mem_append]
  refine or_congr_left ⟨fun hm => ?_, ?_⟩
  · obtain ⟨i, hi, rfl⟩ := List.mem_map.1 hm
    exact ⟨i, by simpa using (List.mem_filter.1 (List.mem_reverse.1 hi)).2, rfl⟩
  · rintro ⟨i, hi, rfl⟩
    refine List.mem_map.2 ⟨i, List.mem_reverse.2 (List.mem_filter.2 ⟨?_, by simpa using hi⟩), rfl⟩
    exact List.mem_range.2 (List.getElem?_eq_some_iff.1 hi).1

theorem ok_sweep (hok : pool.Ok) : pool.sweep.Ok := by
  have hlt : ∀ {i c}, pool.colors[i]? = some c → i < 2 ^ 32 := fun h =>
    Nat.lt_of_lt_of_le (List.getElem?_eq_some_iff.1 h).1 (pool.parallel ▸ hok.small)
  refine ⟨(swept_sweep pool).length ▸ hok.small, ?_, fun r => ?_⟩
  · rw [(swept_sweep pool).free, List.nodup_append]
    refine ⟨?_, hok.nodup, ?_⟩
    · refine List.Nodup.map_on ?_ (List.nodup_reverse.2 (List.nodup_range.filter _))
      intro i hi j hj heq
      have hi' := (List.mem_filter.1 (List.mem_reverse.1 hi)).2
      have hj' := (List.mem_filter.1 (List.mem_reverse.1 hj)).2
      rw [← ofNat_toNat (hlt (of_decide_eq_true hi')), heq,
        ofNat_toNat (hlt (of_decide_eq_true hj'))]
    · -- A slot that was in use was not on the free list.
      intro a ha b hb heq
      obtain ⟨i, hi, rfl⟩ := List.mem_map.1 ha
      have hi' := of_decide_eq_true (List.mem_filter.1 (List.mem_reverse.1 hi)).2
      have := (hok.free_iff b).1 hb
      rw [← heq, ofNat_toNat (hlt hi'), hi'] at this
      cases this
  · rw [mem_sweep_free, hok.free_iff, sweep_colors]
    constructor
    · rintro (⟨i, hi, rfl⟩ | h)
      · rw [ofNat_toNat (hlt hi), hi]
        rfl
      · rw [h]
        rfl
    · intro h
      obtain ⟨c, hc, hs⟩ := Option.map_eq_some_iff.1 h
      cases c with
      | free => exact .inr hc
      | unmarked => exact .inl ⟨r.toNat, hc, UInt32.ofNat_toNat⟩
      | reachable => cases hs

end UpvaluePool

/-- An allocation that adds a slot needs an index for it. -/
def PoolOp.Fits (pool : UpvaluePool) : PoolOp → Prop
  | .alloc _ => pool.free = [] → pool.slots.length < 2 ^ 32
  | _ => True

namespace UpvaluePool

variable {pool pool' : UpvaluePool} {op : PoolOp} {r : UInt32} {u : Upvalue}

/-! ## Steps -/

theorem step_alloc (hok : pool.Ok) (hfit : (PoolOp.alloc u).Fits pool)
    (h : pool.alloc u = some (r, pool')) : pool'.Ok ∧ StepOk (.alloc u) pool pool' := by
  obtain ⟨ha, hok'⟩ := allocates_of_ok hok hfit h
  have hlive : pool'.Live r.toNat := .inl ha.color
  refine ⟨hok', fun i hi => ?_, fun i hi _ _ => ?_, fun u' hu => ?_, fun i hi => ?_⟩
  · have hne : i ≠ r.toNat := fun he => ha.before (he ▸ hi)
    simp [live_congr (ha.colors i hne), hi]
  · exact ha.slots i fun he => ha.before (he ▸ hi)
  · cases hu
    exact ⟨r, h, ha.before, hlive, ha.value⟩
  · by_cases hne : i = r.toNat
    · exact .inr ⟨u, r, rfl, h, hne.symm⟩
    · exact .inl ((live_congr (ha.colors i hne)).1 hi)

/-- Writing a variable changes no colour. -/
theorem step_set (hok : pool.Ok) (h : pool.set r u = some pool')
    (hop : op.target = some r) (hs : op ≠ .sweep) (ha : ∀ u, op ≠ .alloc u) :
    pool'.Ok ∧ StepOk op pool pool' := by
  rw [set] at h
  split at h
  · cases h
    refine ⟨⟨?_, hok.nodup, hok.free_iff⟩, fun i hi => ?_, fun i _ _ hi => ?_,
      fun u hu => absurd hu (ha u), fun i hi => .inl hi⟩
    · rw [List.length_set]
      exact hok.small
    · exact ⟨fun hn => absurd hi hn, fun hn => absurd hn.1 hs⟩
    · exact List.getElem?_set_ne (hi r hop)
  · cases h

theorem mark_cases (h : pool.markSlot r = some pool') :
    ∃ c, pool.colors[r.toNat]? = some c ∧ c ≠ .free ∧ pool'.slots = pool.slots ∧
      pool'.colors = pool.colors.set r.toNat .reachable ∧ pool'.free = pool.free := by
  rw [markSlot] at h
  split at h
  · cases h
  · cases h
  · rename_i c hc hcolor
    cases h
    exact ⟨c, hcolor, hc, rfl, rfl, rfl⟩

theorem step_mark (hok : pool.Ok) (h : pool.markSlot r = some pool') :
    pool'.Ok ∧ StepOk (.mark r) pool pool' := by
  obtain ⟨c, hcolor, hne, hs, hc, hf⟩ := mark_cases h
  have hlt := (List.getElem?_eq_some_iff.1 hcolor).1
  -- The slot was in use, and stays so.
  have hfree : ∀ i : Nat, pool'.colors[i]? = some .free ↔ pool.colors[i]? = some .free := by
    intro i
    rw [hc]
    by_cases hi : i = r.toNat
    · rw [hi, List.getElem?_set_self hlt, hcolor]
      simp [hne]
    · rw [List.getElem?_set_ne (Ne.symm hi)]
  have hlive : ∀ i, pool'.Live i ↔ pool.Live i := by
    intro i
    by_cases hi : i = r.toNat
    · rw [live_iff, live_iff, hi, hc]
      exact ⟨fun _ => ⟨c, hcolor, hne⟩, fun _ => ⟨_, List.getElem?_set_self hlt, by decide⟩⟩
    · exact live_congr (hc ▸ List.getElem?_set_ne (Ne.symm hi))
  refine ⟨⟨hs ▸ hok.small, hf ▸ hok.nodup, fun q => ?_⟩, fun i hi => ?_, fun i _ _ _ => by rw [hs],
    fun u hu => (nomatch hu), fun i hi => .inl ((hlive i).1 hi)⟩
  · rw [hf, hfree]
    exact hok.free_iff q
  · rw [hlive i]
    exact ⟨fun hn => absurd hi hn, fun hn => nomatch hn.1⟩

theorem step_sweep (hok : pool.Ok) : pool.sweep.Ok ∧ StepOk .sweep pool pool.sweep := by
  have hlive : ∀ i : Nat, pool.sweep.Live i ↔ pool.colors[i]? = some .reachable := by
    intro i
    rw [live_iff, sweep_colors]
    cases hc : pool.colors[i]? with
    | none => simp
    | some c => cases c <;> simp [UpvalueSlotColor.swept]
  refine ⟨ok_sweep hok, fun i hi => ?_, fun i _ hi _ => ?_, fun u hu => (nomatch hu),
    fun i hi => .inl (.inr ((hlive i).1 hi))⟩
  · rw [hlive]
    rcases hi with hi | hi <;> simp [hi]
  · refine (swept_sweep pool).slots i (.inr ?_)
    rw [(hlive i).1 hi]
    decide

theorem step_ok (hok : pool.Ok) (hfit : op.Fits pool) (h : op.apply pool = some pool') :
    pool'.Ok ∧ StepOk op pool pool' := by
  cases op with
  | alloc u =>
    obtain ⟨⟨r, pool''⟩, ha, rfl⟩ := Option.map_eq_some_iff.1 h
    exact step_alloc hok hfit ha
  | read r =>
    obtain ⟨-, -, rfl⟩ := Option.map_eq_some_iff.1 h
    refine ⟨hok, fun i hi => ?_, fun _ _ _ _ => rfl, fun u hu => (nomatch hu), fun i hi => .inl hi⟩
    exact ⟨fun hn => absurd hi hn, fun hn => nomatch hn.1⟩
  | write r u => exact step_set hok h rfl (by simp) (by simp)
  | close r v => exact step_set hok h rfl (by simp) (by simp)
  | mark r => exact step_mark hok h
  | sweep =>
    cases h
    exact step_sweep hok

/-! ## Runs -/

/-- The pools that operations lead to, each done in a pool where it may be. -/
inductive Reaches (may : UpvaluePool → PoolOp → Prop) : UpvaluePool → Prop
  | new : Reaches may new
  | step {pool pool' : UpvaluePool} {op : PoolOp} : Reaches may pool → may pool op →
      op.apply pool = some pool' → Reaches may pool'

theorem ok_new : new.Ok := ⟨Nat.zero_le _, List.nodup_nil, by simp [new]⟩

theorem ok_of_reaches (h : Reaches (fun pool op => op.Fits pool) pool) : pool.Ok := by
  induction h with
  | new => exact ok_new
  | step _ hfit happly ih => exact (step_ok ih hfit happly).1

/-- Without free slots, allocation adds one. -/
theorem alloc_of_full (h : pool.free = []) : ∃ r pool', pool.alloc u = some (r, pool') ∧
    r = .ofNat pool.slots.length ∧ pool'.colors = pool.colors ++ [.unmarked] ∧ pool'.free = [] := by
  rw [alloc, h]
  exact ⟨_, _, rfl, rfl, rfl, rfl⟩

/-- The pool after so many allocations. -/
theorem reaches_full (n : Nat) : ∃ pool, Reaches (fun _ _ => True) pool ∧
    pool.colors = List.replicate n .unmarked ∧ pool.free = [] := by
  induction n with
  | zero => exact ⟨new, .new, rfl, rfl⟩
  | succ n ih =>
    obtain ⟨pool, hr, hc, hf⟩ := ih
    obtain ⟨r, pool', ha, -, hc', hf'⟩ := alloc_of_full (u := .closed .nil) hf
    have happly : (PoolOp.alloc (.closed .nil)).apply pool = some pool' := by
      rw [PoolOp.apply, ha]
      rfl
    exact ⟨pool', hr.step trivial happly, by rw [hc', hc, List.replicate_succ'], hf'⟩

end UpvaluePool

end Dellingr
