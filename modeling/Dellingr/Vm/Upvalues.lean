import Dellingr.Vm.Invariant

/-!
# Upvalues

The open upvalues point into the stack, highest first. Capturing a local opens
one for its slot unless there is one already (`keeps_findOrCreateUpvalue`), and
closing a level moves the values at or above it into the pool (`Closed`,
`wp_closeUpvalues`). Both keep the list sorted and in step with the pool, so
that reading a captured variable never leaves the stack
(`keeps_upvalueValue`, `keeps_setUpvalueValue`).
-/

namespace Dellingr

open Effect

variable {W E : Type}

namespace Machine

/-! ## Opening -/

theorem mem_insertOpen {i r : Nat} {l : List (Nat × Nat)} {p : Nat × Nat} :
    p ∈ insertOpen i r l ↔ p = (i, r) ∨ p ∈ l := by
  induction l with
  | nil => simp [insertOpen]
  | cons q l ih =>
    rw [insertOpen]
    split
    · simp
    · simp only [List.mem_cons, ih]
      tauto

theorem pairwise_insertOpen {i r : Nat} {l : List (Nat × Nat)}
    (h : l.Pairwise fun p q => q.1 < p.1) (hi : ∀ p ∈ l, p.1 ≠ i) :
    (insertOpen i r l).Pairwise fun p q => q.1 < p.1 := by
  induction l with
  | nil => simp [insertOpen]
  | cons q l ih =>
    rw [List.pairwise_cons] at h
    rw [insertOpen]
    split
    · rename_i hlt
      refine List.pairwise_cons.2 ⟨fun p hp => ?_, List.pairwise_cons.2 h⟩
      rcases List.mem_cons.1 hp with rfl | hp
      · exact hlt
      · exact (h.1 p hp).trans hlt
    · rename_i hge
      refine List.pairwise_cons.2 ⟨fun p hp => ?_, ih h.2 fun p hp => hi p (List.mem_cons_of_mem _ hp)⟩
      rcases mem_insertOpen.1 hp with rfl | hp
      · have := hi q List.mem_cons_self
        show i < q.1
        omega
      · exact h.1 p hp

end Machine

namespace State.Wf

variable {s : State W}

/-- An open upvalue names an entry of the pool. -/
theorem lt_pool (h : s.Wf) {p : Nat × Nat} (hp : p ∈ s.openUpvalues) :
    p.2 < s.upvaluePool.length :=
  (List.getElem?_eq_some_iff.1 ((h.open_iff p.1 p.2).1 hp)).1

/-- Well-formedness does not depend on the stack, the records or the world. -/
theorem congr {s' : State W} (h : s.Wf) (ho : s'.openUpvalues = s.openUpvalues)
    (hp : s'.upvaluePool = s.upvaluePool) (hl : s'.luaFunctions = s.luaFunctions) : s'.Wf :=
  ⟨ho ▸ h.sorted, by rw [ho, hp]; exact h.open_iff, by rw [hl, hp]; exact h.closures⟩

/-- Opening an upvalue for a slot that has none. -/
theorem openUpvalue (h : s.Wf) {i : Nat} (hi : ∀ p ∈ s.openUpvalues, p.1 ≠ i) :
    ({ s with
      upvaluePool := s.upvaluePool ++ [.open i]
      openUpvalues := Machine.insertOpen i s.upvaluePool.length s.openUpvalues } : State W).Wf where
  sorted := Machine.pairwise_insertOpen h.sorted hi
  open_iff j r := by
    simp only [Machine.mem_insertOpen, Prod.mk.injEq, h.open_iff j r]
    rcases Nat.lt_trichotomy r s.upvaluePool.length with hr | rfl | hr
    · rw [List.getElem?_append_left hr]
      simp [hr.ne]
    · simp [eq_comm]
    · rw [List.getElem?_eq_none hr.le, List.getElem?_eq_none (by simp; omega)]
      simp [hr.ne']
  closures p c hc := (h.closures p c hc).mono (by simp)

/-- Closing the highest open upvalue. -/
theorem closeUpvalue (h : s.Wf) {i r : Nat} {rest : List (Nat × Nat)}
    (hs : s.openUpvalues = (i, r) :: rest) (v : Val) :
    ({ s with
      openUpvalues := rest
      upvaluePool := s.upvaluePool.set r (.closed v) } : State W).Wf where
  sorted := by
    have := h.sorted
    rw [hs] at this
    exact (List.pairwise_cons.1 this).2
  open_iff j q := by
    have hsorted := h.sorted
    rw [hs, List.pairwise_cons] at hsorted
    have hiff := h.open_iff j q
    rw [hs, List.mem_cons] at hiff
    have hi := (h.open_iff i r).1 (hs ▸ List.mem_cons_self)
    by_cases hq : q = r
    · -- The entry just closed; no lower upvalue shares it.
      subst hq
      have hlt := (List.getElem?_eq_some_iff.1 hi).1
      rw [List.getElem?_set_self hlt]
      refine ⟨fun hm => ?_, fun hm => by simp at hm⟩
      have hj := hi.symm.trans (hiff.1 (.inr hm))
      have := hsorted.1 _ hm
      simp only [Option.some.injEq, Upvalue.open.injEq] at hj
      omega
    · rw [List.getElem?_set_ne (Ne.symm hq), ← hiff]
      simp [hq]
  closures p c hc := by simpa using h.closures p c hc

end State.Wf

namespace Machine

variable {X : ErrorKind E → State W → Prop} {s : State W} {lo hi : Nat}

/-- Capturing a local opens an upvalue for its slot, unless there is one. -/
theorem wp_findOrCreateUpvalue {i : Nat} (h : s.Wf) (hin : lo ≤ i ∧ i < hi) :
    wp (findOrCreateUpvalue i : Vm W E Nat)
      (fun r s' => Tame lo hi s s' ∧ r < s'.upvaluePool.length) (fun _ => Tame lo hi s) s := by
  simp only [findOrCreateUpvalue, wp_bind, wp_get]
  split
  · rename_i r hr
    have hmem : (i, r) ∈ s.openUpvalues := by
      rw [List.lookup_eq_some_iff] at hr
      obtain ⟨l₁, l₂, hl, -⟩ := hr
      simp [hl]
    exact ⟨.refl h, h.lt_pool hmem⟩
  · rename_i hnone
    simp only [wp_bind, wp_modify, wp_pure]
    refine ⟨⟨⟨h.openUpvalue fun p hp => ?_, rfl, rfl, rfl, rfl, by simp, fun p hp => ?_,
      (AgreeBelow.refl lo _).spared⟩, ⟨rfl, rfl⟩, rfl⟩, by simp⟩
    · rw [List.lookup_eq_none_iff] at hnone
      have := hnone p hp
      rintro rfl
      simp at this
    · rcases mem_insertOpen.1 hp with rfl | hp
      · exact .inr hin
      · exact .inl hp

/-! ## Closing -/

/-- An upvalue once the level is closed: one that is open at or above it holds the value of
    its slot. -/
def closedAt (level : Nat) (stack : List Val) : Upvalue → Option Upvalue
  | .open i => if level ≤ i then stack[i]?.map .closed else some (.open i)
  | .closed v => some (.closed v)

/-- The state after closing the upvalues at or above a level. -/
structure Closed (level : Nat) (s s' : State W) : Prop where
  state : s' = { s with openUpvalues := s'.openUpvalues, upvaluePool := s'.upvaluePool }
  wf : s'.Wf
  pool : s'.upvaluePool.length = s.upvaluePool.length
  opens_eq : s'.openUpvalues = s.openUpvalues.filter (·.1 < level)
  cells : ∀ r : Nat, s'.upvaluePool[r]? = s.upvaluePool[r]?.bind (closedAt level s.stack)

theorem Closed.opens {level : Nat} {s' : State W} (h : Closed level s s') :
    s'.openUpvalues ⊆ s.openUpvalues := by
  rw [h.opens_eq]
  exact List.filter_sublist.subset

theorem Closed.below {level : Nat} {s' : State W} (h : Closed level s s') :
    s'.OpenBelow level := by
  intro p hp
  rw [h.opens_eq, List.mem_filter] at hp
  simpa using hp.2

/-- Where every open upvalue is below the level there is nothing to close. -/
theorem closed_refl {level : Nat} (h : s.Wf) (hb : s.OpenBelow level) : Closed level s s := by
  refine ⟨rfl, h, rfl, ?_, fun r => ?_⟩
  · exact (List.filter_eq_self.2 fun p hp => by simpa using hb p hp).symm
  · rcases hr : s.upvaluePool[r]? with _ | i | v
    · rfl
    · have hi : i < level := hb (i, r) ((h.open_iff i r).2 hr)
      simp [closedAt, hi.not_ge]
    · rfl

theorem wp_closeFrom {level : Nat} {l : List (Nat × Nat)} (hl : s.openUpvalues = l) (h : s.Wf)
    (hb : s.OpenBelow s.stack.length) :
    wp (closeFrom level l) (fun _ => Closed level s) X s := by
  induction l generalizing s with
  | nil =>
    rw [closeFrom, wp_pure]
    exact closed_refl h fun p hp => by simp [hl] at hp
  | cons p rest ih =>
    obtain ⟨i, r⟩ := p
    rw [closeFrom]
    split
    · -- The highest is below the level, and so are the others.
      rename_i hlt
      refine closed_refl h fun p hp => ?_
      have hsorted := h.sorted
      rw [hl, List.pairwise_cons] at hsorted
      rw [hl] at hp
      rcases List.mem_cons.1 hp with rfl | hp
      · exact hlt
      · exact (hsorted.1 p hp).trans hlt
    · rename_i hge
      have hmem : (i, r) ∈ s.openUpvalues := hl ▸ List.mem_cons_self
      simp only [wp_bind, wp_modify]
      rw [wp_readSlot (s := { s with openUpvalues := rest }) (hb _ hmem)]
      simp only [setUpvalue, wp_bind, wp_get]
      rw [wp_require (h.lt_pool hmem)]
      simp only [wp_modify]
      refine wp_mono_ok (ih rfl (h.closeUpvalue hl _) fun p hp => ?_) fun _ s' hs' => ?_
      · exact hb p (hl ▸ List.mem_cons_of_mem _ hp)
      · refine ⟨by simpa using hs'.state, hs'.wf, by simpa using hs'.pool, ?_, fun q => ?_⟩
        · rw [hs'.opens_eq, hl, List.filter_cons_of_neg (by simpa using hge)]
        · have hi := hb _ hmem
          have hopen := (h.open_iff i r).1 hmem
          rw [hs'.cells q]
          by_cases hq : q = r
          · subst hq
            rw [List.getElem?_set_self (List.getElem?_eq_some_iff.1 hopen).1, hopen]
            simp [closedAt, Nat.le_of_not_lt hge, List.getElem?_eq_getElem hi]
          · rw [List.getElem?_set_ne (Ne.symm hq)]

/-- Closing a level moves the values at or above it into the pool. -/
theorem wp_closeUpvalues {level : Nat} (h : s.Wf) (hb : s.OpenBelow s.stack.length) :
    wp (closeUpvalues level) (fun _ => Closed level s) X s := by
  simp only [closeUpvalues, wp_bind, wp_get]
  exact wp_closeFrom rfl h hb

theorem Closed.confined {level : Nat} {s' : State W} (h : Closed level s s') :
    Confined lo hi s s' := by
  have := h.state
  refine ⟨h.wf, by rw [this], by rw [this], by rw [this], by rw [this], h.pool.ge,
    fun p hp => .inl (h.opens hp), AgreeBelow.spared ?_⟩
  rw [this]
  exact .refl lo s.stack

theorem Closed.levels {level : Nat} {s' : State W} (h : Closed level s s') : Levels s s' := by
  have := h.state
  exact ⟨by rw [this], by rw [this]⟩

theorem Closed.stack {level : Nat} {s' : State W} (h : Closed level s s') :
    s'.stack = s.stack := by rw [h.state]

/-- After a window is checked no open upvalue points at or above its start. -/
theorem wp_checkWindow {first : Nat} (h : s.Wf) {Q : Unit → State W → Prop}
    (hok : s.OpenBelow first → Q () s) (herr : ∀ e, X e s) : wp (checkWindow first) Q X s := by
  simp only [checkWindow, wp_bind, wp_get]
  split
  · rename_i i r rest hs
    refine wp_ite (fun _ => herr _) fun hlt => hok fun p hp => ?_
    have hsorted := h.sorted
    rw [hs, List.pairwise_cons] at hsorted
    rw [hs] at hp
    rcases List.mem_cons.1 hp with rfl | hp
    · omega
    · exact (hsorted.1 p hp).trans (by omega)
  · rename_i hs
    exact hok fun p hp => by simp [hs] at hp

/-! ## Captured variables -/

section Captured

variable {frame : Frame}

theorem keeps_setUpvalue (h : s.Wf) {r : Nat} {v w : Val}
    (hr : s.upvaluePool[r]? = some (.closed w)) :
    Keeps lo hi (setUpvalue r (.closed v) : Vm W E Unit) s := by
  have hlt := (List.getElem?_eq_some_iff.1 hr).1
  simp only [Keeps, setUpvalue, wp_bind, wp_get, wp_require hlt, wp_modify]
  refine ⟨⟨⟨h.sorted, fun i q => ?_, fun p c hc => by simpa using h.closures p c hc⟩, rfl, rfl, rfl,
    rfl, by simp, fun _ hp => .inl hp, (AgreeBelow.refl lo _).spared⟩, ⟨rfl, rfl⟩, rfl⟩
  rw [h.open_iff]
  by_cases hq : r = q
  · subst hq
    simp [List.getElem?_set_self hlt, hr]
  · rw [List.getElem?_set_ne hq]

/-- Reading a captured variable does not leave the stack. -/
theorem keeps_upvalueValue (h : s.Wf) (hb : s.OpenBelow s.stack.length) {index r : Nat}
    (hr : frame.upvalues[index]? = some r) (hlt : r < s.upvaluePool.length) :
    Keeps lo hi (upvalueValue frame index : Vm W E Val) s := by
  have hpool := List.getElem?_eq_getElem hlt
  simp only [Keeps, upvalueValue, wp_bind, wp_demand hr, wp_get, wp_demand hpool]
  split
  · rename_i i hi
    exact keeps_readSlot h (hb _ ((h.open_iff i r).2 (hpool.trans (by rw [hi]))))
  · exact .refl h

/-- Writing a captured variable does not leave the stack. -/
theorem keeps_setUpvalueValue (h : s.Wf) (hb : s.OpenBelow s.stack.length) {index r : Nat}
    (v : Val) (hr : frame.upvalues[index]? = some r) (hlt : r < s.upvaluePool.length) :
    Keeps lo hi (setUpvalueValue frame index v : Vm W E Unit) s := by
  have hpool := List.getElem?_eq_getElem hlt
  simp only [Keeps, setUpvalueValue, wp_bind, wp_demand hr, wp_get, wp_demand hpool]
  split
  · rename_i i hi
    have hmem : (i, r) ∈ s.openUpvalues := (h.open_iff i r).2 (hpool.trans (by rw [hi]))
    exact keeps_writeSlot_open h hmem v (hb _ hmem)
  · rename_i w hw
    exact keeps_setUpvalue h (hpool.trans (by rw [hw]))

end Captured

/-! ## Closures -/

variable {rt : Runtime W E}

/-- Every string literal is resolved to a value. -/
theorem wp_internAll (h : s.Wf) (literals : List (List UInt8)) :
    wp (internAll rt literals) (fun vs s' => Tame lo hi s s' ∧ vs.length = literals.length)
      (fun _ => Tame lo hi s) s := by
  induction literals generalizing s with
  | nil => exact ⟨.refl h, rfl⟩
  | cons literal literals ih =>
    simp only [internAll, wp_bind]
    refine wp_mono_ok (keeps_ask h _) fun v s₁ h₁ => ?_
    refine wp_mono (ih h₁.confined.wf) (fun vs s₂ h₂ => ?_) fun _ _ h₂ => h₁.trans h₂
    exact ⟨h₁.trans h₂.1, by simp [h₂.2]⟩

theorem keeps_allocClosure (h : s.Wf) {closure : Closure}
    (hc : closure.Ok s.upvaluePool.length) : Keeps lo hi (allocClosure rt closure) s := by
  simp only [Keeps, allocClosure, wp_bind]
  refine wp_tell fun p w => ?_
  simp only [wp_modify, wp_pure]
  refine ⟨⟨⟨h.sorted, h.open_iff, fun q c hq => ?_⟩, rfl, rfl, rfl, rfl, le_refl _,
    fun _ hp => .inl hp, (AgreeBelow.refl lo _).spared⟩, ⟨rfl, rfl⟩, rfl⟩
  simp only [Function.update_apply] at hq
  split at hq
  · simp only [Option.some.injEq] at hq
    exact hq ▸ hc
  · exact h.closures q c hq

end Machine

end Dellingr
