import Dellingr.Vm.Reachable
import Mathlib.Data.List.Pairwise

/-!
# The discipline of open upvalues

A closure refers to the variables it captures through cells: while the variable lives on
the stack its cell is open and names the slot, and once the slot goes away the cell is
closed over the value. In every reachable state the open cells are ordered by their slots,
with one cell for a slot. So closures that capture one variable share its cell
(`findOrCreateUpvalue_open`), and a variable without a cell gets one that no closure has
(`findOrCreateUpvalue_fresh`). An activation starts and ends with no open cell at or above
its function slot (`Stepped`), so that its cells are its own.

Closing is invisible through a cell: its value is the same (`Closed.cellValue`), and an
assignment to it changes the same values (`setUpvalueValue_cellValue`).
-/

namespace Dellingr

open Effect Machine

variable {W E : Type} {s s' : State W}

/-- The value of a captured variable. -/
def State.cellValue (s : State W) (r : Nat) : Option Val :=
  match s.upvaluePool[r]? with
  | some (.open i) => s.stack[i]?
  | some (.closed v) => some v
  | none => none

/-! ## Capturing -/

theorem State.Wf.eq_of_mem (h : s.Wf) {i r q : Nat} (hr : (i, r) ∈ s.openUpvalues)
    (hq : (i, q) ∈ s.openUpvalues) : r = q := by
  by_contra hne
  have hpair : s.openUpvalues.Pairwise fun p q => q.1 ≠ p.1 := h.sorted.imp fun hlt => hlt.ne
  have : Std.Symm fun p q : Nat × Nat => q.1 ≠ p.1 := ⟨fun _ _ => Ne.symm⟩
  exact hpair.forall hr hq (by simp [hne]) rfl

/-- A variable with an open cell is captured through that cell. -/
theorem findOrCreateUpvalue_open (h : s.Wf) {i r : Nat} (hr : (i, r) ∈ s.openUpvalues) :
    (findOrCreateUpvalue i : Vm W E Nat) s = .ok r s := by
  have hlookup : s.openUpvalues.lookup i = some r := by
    cases hl : s.openUpvalues.lookup i with
    | none => simpa using List.lookup_eq_none_iff.1 hl (i, r) hr
    | some q =>
      obtain ⟨l₁, l₂, hs, -⟩ := List.lookup_eq_some_iff.1 hl
      rw [h.eq_of_mem hr (hs ▸ by simp : (i, q) ∈ s.openUpvalues)]
  simp only [findOrCreateUpvalue, run_get_bind, hlookup]
  rfl

/-- A variable without one gets a new cell. -/
theorem findOrCreateUpvalue_fresh {i : Nat} (hi : ∀ r, (i, r) ∉ s.openUpvalues) :
    (findOrCreateUpvalue i : Vm W E Nat) s = .ok s.upvaluePool.length { s with
      upvaluePool := s.upvaluePool ++ [.open i]
      openUpvalues := insertOpen i s.upvaluePool.length s.openUpvalues } := by
  have hlookup : s.openUpvalues.lookup i = none := by
    refine List.lookup_eq_none_iff.2 fun p hp => ?_
    rw [bne_iff_ne]
    rintro rfl
    exact hi p.2 hp
  simp only [findOrCreateUpvalue, run_get_bind, hlookup]
  rfl

/-! ## Closing -/

/-- Closing keeps the value of every captured variable. -/
theorem Machine.Closed.cellValue {level : Nat} (h : Closed level s s') (r : Nat) :
    s'.cellValue r = s.cellValue r := by
  rw [State.cellValue, State.cellValue, h.cells r, h.stack]
  rcases s.upvaluePool[r]? with _ | i | v
  · rfl
  · by_cases hi : level ≤ i
    · simp only [Option.bind_some, closedAt, if_pos hi]
      cases s.stack[i]? <;> rfl
    · simp only [Option.bind_some, closedAt, if_neg hi]
  · rfl

section Captured

variable {frame : Frame} {index r : Nat} {v : Val}

/-- Reading a captured variable gives its value. -/
theorem run_upvalueValue (hr : frame.upvalues[index]? = some r) (hv : s.cellValue r = some v) :
    (upvalueValue frame index : Vm W E Val) s = .ok v s := by
  rw [upvalueValue, run_bind_of_ok (run_demand_eq_ok.2 ⟨hr, rfl⟩), run_get_bind]
  rw [State.cellValue] at hv
  rcases hu : s.upvaluePool[r]? with _ | i | w
  · simp [hu] at hv
  · simp only [hu] at hv
    exact run_readSlot_eq_ok.2 ⟨hv, rfl⟩
  · simp only [hu, Option.some.injEq] at hv
    subst hv
    rfl

/-- Assigning a captured variable sets its value and no other. -/
theorem run_setUpvalueValue (h : s.Wf) (hb : s.OpenBelow s.stack.length)
    (hr : frame.upvalues[index]? = some r) (hlt : r < s.upvaluePool.length) :
    ∃ t, (setUpvalueValue frame index v : Vm W E Unit) s = .ok () t ∧
      ∀ q, t.cellValue q = if q = r then some v else s.cellValue q := by
  rw [setUpvalueValue, run_bind_of_ok (run_demand_eq_ok.2 ⟨hr, rfl⟩), run_get_bind]
  rcases hu : s.upvaluePool[r]? with _ | i | w
  · rw [List.getElem?_eq_getElem hlt] at hu
    simp at hu
  · have hmem : (i, r) ∈ s.openUpvalues := (h.open_iff i r).2 hu
    have hi : i < s.stack.length := hb _ hmem
    refine ⟨{ s with stack := s.stack.set i v }, ?_, fun q => ?_⟩
    · show (writeSlot i v : Vm W E Unit) s = _
      rw [writeSlot, run_get_bind, require, if_pos hi]
      rfl
    · simp only [State.cellValue]
      split_ifs with hq
      · subst hq
        simp [hu, hi]
      · rcases hu' : s.upvaluePool[q]? with _ | j | w
        · rfl
        · have hj : i ≠ j := by
            rintro rfl
            exact hq (h.eq_of_mem ((h.open_iff i q).2 hu') hmem)
          exact List.getElem?_set_ne hj
        · rfl
  · refine ⟨{ s with upvaluePool := s.upvaluePool.set r (.closed v) }, ?_, fun q => ?_⟩
    · show (setUpvalue r (.closed v) : Vm W E Unit) s = _
      rw [setUpvalue, run_get_bind, require, if_pos hlt]
      rfl
    · simp only [State.cellValue]
      split_ifs with hq
      · subst hq
        simp [hlt]
      · rw [List.getElem?_set_ne (Ne.symm hq)]

end Captured

/-! ## The discipline -/

/-- What closing a level does: exactly the cells at or above it are closed, each over the
    value of its slot, and nothing changes for who reads or writes through a cell. -/
structure ClosesExactly (E : Type) (level : Nat) (s s' : State W) : Prop where
  opens : s'.openUpvalues = s.openUpvalues.filter (·.1 < level)
  cells : ∀ r : Nat, s'.upvaluePool[r]? = s.upvaluePool[r]?.bind (closedAt level s.stack)
  stack : s'.stack = s.stack
  reads : ∀ f index v, (upvalueValue f index : Vm W E Val) s = .ok v s →
    (upvalueValue f index : Vm W E Val) s' = .ok v s'
  writes : ∀ f index v t, (setUpvalueValue f index v : Vm W E Unit) s = .ok () t →
    ∃ t', (setUpvalueValue f index v : Vm W E Unit) s' = .ok () t' ∧
      ∀ r, t'.cellValue r = t.cellValue r

/-- What was read is the value of a cell. -/
theorem cellValue_of_run {f : Frame} {index : Nat} {v : Val}
    (h : (upvalueValue f index : Vm W E Val) s = .ok v s') :
    ∃ r, f.upvalues[index]? = some r ∧ s.cellValue r = some v := by
  obtain ⟨r, s₁, hd, h⟩ := run_bind_eq_ok.1 h
  obtain ⟨hr, rfl⟩ := run_demand_eq_ok.1 hd
  obtain ⟨u, s₂, hd', h⟩ := run_bind_eq_ok.1 (run_get_bind.symm.trans h)
  obtain ⟨hu, rfl⟩ := run_demand_eq_ok.1 hd'
  refine ⟨r, hr, ?_⟩
  simp only [State.cellValue, hu]
  cases u with
  | «open» i => exact (run_readSlot_eq_ok.1 h).1
  | closed w => exact congrArg some (run_pure_eq_ok.1 h).1

/-- What was assigned is a cell. -/
theorem lt_pool_of_run {f : Frame} {index : Nat} {v : Val}
    (h : (setUpvalueValue f index v : Vm W E Unit) s = .ok () s') :
    ∃ r, f.upvalues[index]? = some r ∧ r < s.upvaluePool.length := by
  obtain ⟨r, s₁, hd, h⟩ := run_bind_eq_ok.1 h
  obtain ⟨hr, rfl⟩ := run_demand_eq_ok.1 hd
  obtain ⟨u, s₂, hd', -⟩ := run_bind_eq_ok.1 (run_get_bind.symm.trans h)
  obtain ⟨hu, rfl⟩ := run_demand_eq_ok.1 hd'
  exact ⟨r, hr, (List.getElem?_eq_some_iff.1 hu).1⟩

/-- Closing ends, unless it reads a slot that is not there. -/
theorem closeFrom_ends (level : Nat) (l : List (Nat × Nat)) (s : State W) :
    (∃ s', (closeFrom level l : Vm W E Unit) s = .ok () s') ∨
      (closeFrom level l : Vm W E Unit) s = .panic := by
  induction l generalizing s with
  | nil => exact .inl ⟨s, rfl⟩
  | cons p rest ih =>
    obtain ⟨i, r⟩ := p
    rw [closeFrom]
    split
    · exact .inl ⟨s, rfl⟩
    · have hpop : (modify fun s => { s with openUpvalues := rest } : Vm W E Unit) s =
          .ok () { s with openUpvalues := rest } := rfl
      rw [run_bind_of_ok hpop]
      cases hi : s.stack[i]? with
      | none => exact .inr (run_bind_of_panic (by simp only [readSlot, run_get_bind, hi]; rfl))
      | some v =>
        have hread : (readSlot i : Vm W E Val) { s with openUpvalues := rest } =
            .ok v { s with openUpvalues := rest } := run_readSlot_eq_ok.2 ⟨hi, rfl⟩
        rw [run_bind_of_ok hread]
        by_cases hr : r < s.upvaluePool.length
        · have hset : (setUpvalue r (.closed v) : Vm W E Unit) { s with openUpvalues := rest } =
              .ok () { s with
                openUpvalues := rest
                upvaluePool := s.upvaluePool.set r (.closed v) } := by
            simp only [setUpvalue, run_get_bind, require, if_pos hr]
            rfl
          rw [run_bind_of_ok hset]
          exact ih _
        · exact .inr (run_bind_of_panic
            (by simp only [setUpvalue, run_get_bind, require, if_neg hr]; rfl))

/-- Closing a level of a well-formed state. -/
theorem closesExactly (h : s.Wf) (hb : s.OpenBelow s.stack.length) (level : Nat) :
    ∃ s', (closeUpvalues level : Vm W E Unit) s = .ok () s' ∧ ClosesExactly E level s s' := by
  have hwp : wp (closeUpvalues level : Vm W E Unit) (fun _ => Closed level s) (fun _ _ => False) s :=
    wp_closeUpvalues h hb
  obtain ⟨s', hrun⟩ : ∃ s', (closeUpvalues level : Vm W E Unit) s = .ok () s' := by
    refine (closeFrom_ends level s.openUpvalues s).resolve_right fun hp => ?_
    rwa [wp, show (closeUpvalues level : Vm W E Unit) s = .panic from hp] at hwp
  have hc := hwp.ok hrun
  refine ⟨s', hrun, hc.opens_eq, hc.cells, hc.stack, fun f index v hread => ?_,
    fun f index v t hwrite => ?_⟩
  · obtain ⟨r, hr, hv⟩ := cellValue_of_run hread
    exact run_upvalueValue hr ((hc.cellValue r).trans hv)
  · obtain ⟨r, hr, hlt⟩ := lt_pool_of_run hwrite
    obtain ⟨t₁, hrun₁, hval₁⟩ := run_setUpvalueValue (E := E) (v := v) h hb hr hlt
    obtain rfl : t₁ = t := by
      rw [hrun₁] at hwrite
      exact (Outcome.ok.inj hwrite).2
    have hb' : s'.OpenBelow s'.stack.length := by
      rw [hc.stack]
      exact fun p hp => hb p (hc.opens hp)
    obtain ⟨t', hrun', hval'⟩ := run_setUpvalueValue (E := E) (v := v) hc.wf hb' hr (hc.pool ▸ hlt)
    refine ⟨t', hrun', fun q => ?_⟩
    rw [hval', hval₁, hc.cellValue]

/-- The frames of an invocation are those of closures with cells in the pool. -/
theorem Stacked.frameOk {pool idx : Nat} {frames : List Frame} (h : Stacked pool idx frames)
    {f : Frame} (hf : f ∈ frames) : FrameOk pool f := by
  induction h with
  | entry ok _ =>
    obtain rfl := List.mem_singleton.1 hf
    exact ok
  | call ok _ _ _ ih =>
    rcases List.mem_cons.1 hf with rfl | hf
    · exact ok
    · exact ih hf

/-- The open upvalues are strictly ascending in their slots. -/
def State.Ascending (s : State W) : Prop :=
  (s.openUpvalues.reverse.map Prod.fst).Pairwise (· < ·)

theorem State.Wf.ascending (h : s.Wf) : s.Ascending := by
  rw [State.Ascending, List.map_reverse, List.pairwise_reverse]
  exact List.pairwise_map.2 h.sorted

/-- A host that loads `returnVarargs` and calls it. -/
def callVarargs : Host Unit Unit :=
  .load ⟨returnVarargs, admitted_returnVarargs, rfl⟩ fun _ => .call 0 .all fun _ => .done (.ok 0)

/-- The call is made once the function is on the stack. -/
theorem called_returnVarargs (depth : Nat) : Called idleRuntime 10 depth 0 .all
    { State.boot () with
      stack := [.obj ⟨0, 0⟩]
      luaFunctions := Function.update (fun _ => none) ⟨0, 0⟩ (some ⟨returnVarargs, [], []⟩) } := by
  have hload : attempt (pushChunk (E := Unit) idleRuntime ⟨returnVarargs, admitted_returnVarargs, rfl⟩)
      (State.boot ()) = .ok (.ok ()) _ := rfl
  refine .host (show Makes (fun call => runHost idleRuntime call callVarargs) _ (.boot ()) _ _ _ from ?_)
  show runHost _ _ _ _ = _
  rw [callVarargs, runHost, run_bind_of_ok hload, runHost]
  refine run_bind_of_panic ?_
  simp only [attempt, trap]
  rw [if_pos ⟨rfl, rfl, rfl⟩]

end Dellingr
