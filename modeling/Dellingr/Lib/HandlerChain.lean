import Mathlib.Logic.Relation

/-!
# Handler chains

To resolve a value is to ask it. It answers, or it names a *handler*: another value, which is called if it
can be called, and asked in turn if not. Asking a handler may take a level of nesting, and so does calling
one.

* `Chain.Resolves` is the recursive definition of this: what a value resolves to, and how many levels that
  takes. There is at most one (`Resolves.unique`).
* A value from which the handlers lead into a cycle resolves to nothing (`unresolved_of_cycle`).
-/

/-- How values are asked. -/
structure Chain (V α : Type) where
  /-- What a value answers, or its handler. -/
  ask : V → α ⊕ V
  callable : V → Bool
  /-- The levels that asking a handler takes. -/
  levels : V → Nat

namespace Chain

/-- How a resolution ends: with an answer, or with a call of a handler for the value that named it. -/
inductive Ending (V α : Type)
  | answer (a : α)
  | call (handler owner : V)

variable {V α : Type} (c : Chain V α)

/-- A value resolves within so many levels. -/
inductive Resolves : V → Nat → Ending V α → Prop
  | answer {v : V} {a : α} (h : c.ask v = .inl a) : Resolves v 0 (.answer a)
  | call {v w : V} (h : c.ask v = .inr w) (hw : c.callable w = true) : Resolves v 1 (.call w v)
  | through {v w : V} {n : Nat} {e : Ending V α} (h : c.ask v = .inr w) (hw : c.callable w = false)
      (hr : Resolves w n e) : Resolves v (n + c.levels w) e

/-- A value leads to its handler, if that is asked. -/
def Leads (v w : V) : Prop := c.ask v = .inr w ∧ c.callable w = false

variable {c} {v w : V} {n : Nat} {e : Ending V α} {a : α}

/-! ## Inversion -/

namespace Resolves

theorem of_answer (h : c.Resolves v n e) (ha : c.ask v = .inl a) : n = 0 ∧ e = .answer a := by
  cases h with
  | answer h => exact ⟨rfl, by rw [Sum.inl.inj (h.symm.trans ha)]⟩
  | call h => cases h.symm.trans ha
  | through h => cases h.symm.trans ha

theorem of_call (h : c.Resolves v n e) (ha : c.ask v = .inr w) (hw : c.callable w = true) :
    n = 1 ∧ e = .call w v := by
  cases h with
  | answer h => cases h.symm.trans ha
  | call h => exact ⟨rfl, by rw [Sum.inr.inj (h.symm.trans ha)]⟩
  | through h hw' =>
    obtain rfl := Sum.inr.inj (h.symm.trans ha)
    exact absurd hw (Bool.eq_false_iff.1 hw')

theorem of_through (h : c.Resolves v n e) (ha : c.ask v = .inr w) (hw : c.callable w = false) :
    ∃ m, n = m + c.levels w ∧ c.Resolves w m e := by
  cases h with
  | answer h => cases h.symm.trans ha
  | call h hw' =>
    obtain rfl := Sum.inr.inj (h.symm.trans ha)
    exact absurd hw' (Bool.eq_false_iff.1 hw)
  | through h _ hr =>
    obtain rfl := Sum.inr.inj (h.symm.trans ha)
    exact ⟨_, rfl, hr⟩

/-- A value resolves in one way. -/
theorem unique {n' : Nat} {e' : Ending V α} (h : c.Resolves v n e) (h' : c.Resolves v n' e') : n = n' ∧ e = e' := by
  induction h generalizing n' with
  | answer ha =>
    obtain ⟨rfl, rfl⟩ := h'.of_answer ha
    exact ⟨rfl, rfl⟩
  | call ha hw =>
    obtain ⟨rfl, rfl⟩ := h'.of_call ha hw
    exact ⟨rfl, rfl⟩
  | through ha hw _ ih =>
    obtain ⟨m, rfl, hr⟩ := h'.of_through ha hw
    obtain ⟨rfl, rfl⟩ := ih hr
    exact ⟨rfl, rfl⟩

/-- The handlers of a value that resolves come to an end. -/
theorem acc (h : c.Resolves v n e) : Acc (fun w v => c.Leads v w) v := by
  induction h with
  | answer ha => exact ⟨_, fun w hw => by cases ha.symm.trans hw.1⟩
  | call ha hcall =>
    refine ⟨_, fun w hw => ?_⟩
    obtain rfl := Sum.inr.inj (ha.symm.trans hw.1)
    exact absurd hcall (Bool.eq_false_iff.1 hw.2)
  | through ha _ _ ih =>
    refine ⟨_, fun w hw => ?_⟩
    obtain rfl := Sum.inr.inj (ha.symm.trans hw.1)
    exact ih

end Resolves

/-! ## Cycles -/

/-- A value whose handlers come to an end is in no cycle. -/
theorem not_cycle_of_acc (h : Acc (fun w v => c.Leads v w) v) : ¬Relation.TransGen c.Leads v v := by
  induction h with
  | intro v _ ih =>
    intro hcycle
    obtain ⟨w, hvw, hwv⟩ := Relation.TransGen.head'_iff.1 hcycle
    exact ih w hvw (Relation.TransGen.tail' hwv hvw)

/-- A value whose handlers lead into a cycle resolves to nothing. -/
theorem unresolved_of_cycle (hvw : Relation.ReflTransGen c.Leads v w) (hw : Relation.TransGen c.Leads w w) :
    ¬c.Resolves v n e := by
  intro h
  have hacc : ∀ w, Relation.ReflTransGen c.Leads v w → Acc (fun w v => c.Leads v w) w := by
    intro w hvw
    induction hvw with
    | refl => exact h.acc
    | tail _ hstep ih => exact ih.inv hstep
  exact not_cycle_of_acc (hacc w hvw) hw

end Chain
