import Dellingr.Lib.Relational
import Dellingr.LuaStd.TableLib
import Dellingr.Vm.Table.Access

/-!
# Moving a range

`table.move` copies the values of a range of keys to another range, of the same table or of another one. Its
guards keep every integer operation within 64 bits and every key exact. A range that is moved up within one
table is copied from its end, so that no value is overwritten before it is read.

Between tables without sequence metamethods the copies are charged ahead, as many as the budget admits
(`movePrepaid`). Where nothing interrupts and no table is refused room, this cannot be told from charging a
unit before each copy (`moveEach`).
-/

namespace Dellingr.TableLib

open Effect
open Numeral (exactI64)

/-! ## The function -/

def I64_MAX : Int := 2 ^ 63 - 1

/-- The result of an operation on 64-bit integers, which must not overflow. -/
def i64 (i : Int) : Lib Int := do
  require (-2 ^ 63 ≤ i ∧ i < 2 ^ 63)
  return i

section

variable (interrupt : Nat → Bool) (A : Allocator)

/-- Copy the value of one key to another. -/
def moveElement (src dest : ObjectPtr) (srcKey destKey : Int) : Lib Unit := do
  let value ← getTableRaw src (Val.ofInt srcKey)
  setTableRaw A dest (Val.ofInt destKey) value

/-- The copy that is made in a step. -/
def moveIndex (backwards : Bool) (count step : Int) : Lib Int := do
  if backwards then
    let last ← i64 (count - 1)
    i64 (last - step)
  else return step

/-- What is moved: the ranges, and whether it is copied from its end. -/
structure Move where
  src : ObjectPtr
  dest : ObjectPtr
  f : Int
  t : Int
  count : Int
  backwards : Bool

def Move.copy (m : Move) (step : Int) : Lib Unit := do
  let i ← moveIndex m.backwards m.count step
  let srcKey ← i64 (m.f + i)
  let destKey ← i64 (m.t + i)
  moveElement A m.src m.dest srcKey destKey

/-- The copies from a step on that are paid for. -/
def moveRaw (m : Move) (step : Int) : Nat → Lib Unit
  | 0 => return ()
  | paid + 1 => do
    pollInterrupt interrupt
    m.copy A step
    moveRaw m (step + 1) paid

/-- Charge all copies ahead and make those that are admitted. -/
def movePrepaid (m : Move) : Lib Unit := do
  let s ← get
  let (admitted, meter) := s.clock.meter.consumeUnitsAdmitted (.ofNat m.count.toNat)
  modify fun s => { s with clock := { s.clock with meter } }
  moveRaw interrupt A m 0 admitted.toNat
  if admitted.toNat = m.count.toNat then return () else fail .budgetExceeded

/-- The copies from a step on, each charged before it is made. -/
def moveEach (m : Move) (step : Int) : Nat → Lib Unit
  | 0 => return ()
  | n + 1 => do
    charge
    m.copy A step
    moveEach m (step + 1) n

/-- Whether the size of a range fits. The bound is only computed for a start that is not positive. -/
def moveFits (f e : Int) : Lib Bool :=
  if 0 < f then return true
  else do
    let bound ← i64 (I64_MAX + f)
    return decide (e < bound)

/-- `table.move`, with a way to make the copies. -/
def tableMoveBy (copies : Move → Lib Unit) (args : List Val) : Lib (List Val) := do
  let s ← get
  let src ← Effect.liftExcept (checkTable s args 1 "move")
  let f ← Effect.liftExcept (argInteger args 2 "move")
  let e ← Effect.liftExcept (argInteger args 3 "move")
  let t ← Effect.liftExcept (argInteger args 4 "move")
  let a2 ← Effect.liftExcept (checkOptionalTable s args 5 "move")
  let dest := a2.getD src
  if f ≤ e then do
    let fits ← moveFits f e
    if !fits then Effect.liftExcept (argumentError 3 "move" .tooManyElementsToMove)
    else do
      let size ← i64 (e - f)
      let count ← i64 (size + 1)
      let room ← i64 (I64_MAX - count)
      let room ← i64 (room + 1)
      if room < t then Effect.liftExcept (argumentError 4 "move" .destinationWrapAround)
      else do
        let last ← i64 (count - 1)
        let destLast ← i64 (t + last)
        if !(checkIntegerKeyRange f e && checkIntegerKeyRange t destLast) then fail (.integerKeyRangeExceeded .move)
        else do
          let backwards := decide (src = dest ∧ f < t ∧ t ≤ e)
          copies ⟨src, dest, f, t, count, backwards⟩
          return [.obj dest]
  else do
    charge
    return [.obj dest]

/-- `table.move` between tables without sequence metamethods. -/
def tableMove (args : List Val) : Lib (List Val) := tableMoveBy (movePrepaid interrupt A) args

/-- `table.move` with each copy charged before it is made. -/
def tableMoveEach (args : List Val) : Lib (List Val) :=
  tableMoveBy (fun m => moveEach A m 0 m.count.toNat) args

end

/-! ## The guards -/

/-- The guards of the ranges. -/
structure MoveGuards (f e t : Int) : Prop where
  fits : 0 < f ∨ e < I64_MAX + f
  room : t ≤ I64_MAX - (e - f + 1) + 1
  src : checkIntegerKeyRange f e = true
  dest : checkIntegerKeyRange t (t + (e - f)) = true

/-- A key that stays the integer it is. -/
def Exact (i : Int) : Prop := exactI64 (F64.ofInt i) = some i

theorem exact_of_range {first last i : Int} (h : checkIntegerKeyRange first last = true) (h₁ : first ≤ i)
    (h₂ : i ≤ last) : Exact i := by
  rw [checkIntegerKeyRange] at h
  split at h
  · obtain rfl : i = first := by omega
    rw [Exact]
    exact of_decide_eq_true h
  · obtain ⟨hlo, -, -, hhi⟩ := of_decide_eq_true h
    exact exactI64_ofInt (by omega) (by omega)

/-- A zero is the integer zero. -/
theorem eq_zero_of_isZero {x : F64} {i : Int} (hz : x.isZero = true) (h : exactI64 x = some i) : i = 0 := by
  simp only [F64.isZero, Bool.and_eq_true, beq_iff_eq] at hz
  have hnat : x.truncNat = 0 := by rw [F64.truncNat, if_pos (by omega)]
  rw [exactI64] at h
  split at h
  · rw [← Option.some.inj h, F64.toI64, hnat]
    split
    · rfl
    · split <;> rfl
  · cases h

theorem not_isNan_of_exact {i : Int} (h : Exact i) : (F64.ofInt i).isNan = false := by
  rw [Exact, exactI64] at h
  split at h
  · rename_i hc
    have hfin := hc.1
    simp only [F64.isFinite, bne_iff_ne, ne_eq] at hfin
    rw [F64.isNan, beq_eq_false_iff_ne.2 hfin, Bool.false_and]
  · cases h

/-- Exact keys are only equal if they are the same integer. -/
theorem eq_ofInt {i j : Int} (hi : Exact i) (hj : Exact j) : (Val.ofInt i).eq (Val.ofInt j) = true ↔ i = j := by
  constructor
  · intro h
    simp only [Val.ofInt, Val.eq, F64.feq, Bool.and_eq_true, Bool.or_eq_true, beq_iff_eq] at h
    rcases h.2 with heq | ⟨hzi, hzj⟩
    · rw [Exact, heq, hj] at hi
      exact (Option.some.inj hi).symm
    · rw [eq_zero_of_isZero hzi hi, eq_zero_of_isZero hzj hj]
  · rintro rfl
    rw [Val.ofInt, Val.eq, F64.feq_self, not_isNan_of_exact hi]
    rfl

theorem isValidTableKey_ofInt {i : Int} (h : Exact i) : (Val.ofInt i).isValidTableKey = true := by
  rw [Val.ofInt, Val.isValidTableKey, not_isNan_of_exact h]
  rfl

/-! ## Copying -/

section Steps

variable {s : LibState}

theorem wp_congr {α : Type} {m m' : Lib α} (h : m s = m' s) {Q : α → LibState → Prop} {E : LibError → LibState → Prop} :
    wp m Q E s = wp m' Q E s := by rw [wp, wp, h]

theorem wp_charge {Q : Unit → LibState → Prop} {E : LibError → LibState → Prop}
    (hQ : ∀ clock, Q () { s with clock }) (hE : ∀ clock, E .budgetExceeded { s with clock }) :
    wp charge Q E s := by
  simp only [charge, wp_bind, wp_get, wp_modify]
  exact wp_ite (fun _ => hQ _) fun _ => hE _

end Steps

/-- The ranges of a move are within 64 bits and exact, and it is copied from its end where the ranges of
    one table overlap upwards. -/
structure Move.Ok (m : Move) : Prop where
  pos : 0 < m.count
  count_lt : m.count < 2 ^ 63
  src_range : -2 ^ 63 ≤ m.f ∧ m.f + m.count ≤ 2 ^ 63
  dest_range : -2 ^ 63 ≤ m.t ∧ m.t + m.count ≤ 2 ^ 63
  src_exact : ∀ i, 0 ≤ i → i < m.count → Exact (m.f + i)
  dest_exact : ∀ i, 0 ≤ i → i < m.count → Exact (m.t + i)
  backwards : m.backwards = decide (m.src = m.dest ∧ m.f < m.t ∧ m.t < m.f + m.count)

/-- The copies that have been made before a step. -/
def Move.Done (m : Move) (step i : Int) : Prop :=
  0 ≤ i ∧ i < m.count ∧ if m.backwards then m.count - step ≤ i else i < step

/-- The copies in `done` have been made from the tables `a` and `b` of a state, and nothing else has changed. -/
structure Moved (m : Move) (a b : Table) (done : Int → Prop) (s₀ s : LibState) : Prop where
  copied : ∃ t, s.tables m.dest = some t ∧ t.Ok ∧
    (∀ i, done i → t.get (Val.ofInt (m.t + i)) = a.get (Val.ofInt (m.f + i))) ∧
      ∀ k, (∀ i, done i → (Val.ofInt (m.t + i)).eq k = false) → t.get k = b.get k
  frame : ∀ q, q ≠ m.dest → s.tables q = s₀.tables q

section Copy

variable {interrupt : Nat → Bool} {A : Allocator} {m : Move} {a b t : Table} {s s₀ : LibState} {key value : Val}
  {step : Int}

theorem wp_i64 {i : Int} (h : -2 ^ 63 ≤ i ∧ i < 2 ^ 63) {Q : Int → LibState → Prop} {E : LibError → LibState → Prop} :
    wp (i64 i) Q E s = Q i s := by
  rw [i64, wp_bind, wp_require h, wp_pure]

/-- The copy of a step. -/
def Move.index (m : Move) (step : Int) : Int := if m.backwards then m.count - 1 - step else step

theorem wp_moveIndex (h : m.Ok) (h₁ : 0 ≤ step) (h₂ : step < m.count) {Q : Int → LibState → Prop}
    {E : LibError → LibState → Prop} : wp (moveIndex m.backwards m.count step) Q E s = Q (m.index step) s := by
  have := h.count_lt
  rw [moveIndex, Move.index]
  split
  · rw [wp_bind, wp_i64 (by omega), wp_i64 (by omega)]
  · rw [wp_pure]

/-- The copies made after a step are those made before it and its own. -/
theorem done_succ (h₁ : 0 ≤ step) (h₂ : step < m.count) (i : Int) :
    m.Done (step + 1) i ↔ m.Done step i ∨ i = m.index step := by
  rw [Move.Done, Move.Done, Move.index]
  split <;> omega

/-- What a step reads has not been overwritten. -/
theorem not_done_of_src (h : m.Ok) (hsame : m.src = m.dest) (h₂ : step < m.count) {i : Int}
    (hi : m.Done step i) : m.t + i ≠ m.f + m.index step := by
  have hback := h.backwards
  simp only [hsame, true_and] at hback
  rw [Move.Done] at hi
  rw [Move.index]
  cases hb : m.backwards with
  | true =>
    rw [hb, eq_comm, decide_eq_true_eq] at hback
    rw [hb] at hi
    simp only [if_true] at hi ⊢
    omega
  | false =>
    rw [hb, eq_comm, decide_eq_false_iff_not] at hback
    rw [hb] at hi
    simp only [Bool.false_eq_true, if_false] at hi ⊢
    omega

/-- An assignment, which is refused only for lack of room. -/
theorem wp_assign (ht : s.tables m.dest = some t) (hok : t.Ok) (hkey : key.isValidTableKey = true)
    {Q : Unit → LibState → Prop} {E : LibError → LibState → Prop}
    (hQ : ∀ t', t'.Ok → (∀ k, t'.get k = if key.eq k then value else t.get k) → Q () (s.setTable m.dest t'))
    (hE : ∀ t', t'.Ok → (∀ k, t'.get k = t.get k) → E (.table .growthFailed) (s.setTable m.dest t')) :
    wp (setTableRaw A m.dest key value) Q E s := by
  obtain ⟨r, t', he, hr⟩ := Table.insert_cases (A := A) (v := value) hok hkey
  simp only [setTableRaw, wp_bind, wp_get, wp_demand ht, wp_demand he, wp_modify, wp_liftExcept]
  rcases hr with rfl | ⟨rfl, -⟩
  · obtain ⟨hok', hget⟩ := Table.get_insert hok he
    exact ⟨fun _ _ => hQ t' hok' hget, by rintro _ ⟨⟩⟩
  · obtain ⟨hok', hget⟩ := Table.get_insert_refused hok he
    refine ⟨by rintro _ ⟨⟩, fun e he => ?_⟩
    obtain rfl : LibError.table .growthFailed = e := Except.error.inj he
    exact hE t' hok' hget

/-- A step makes its copy, or is refused and changes nothing. -/
theorem wp_copy (h : m.Ok) (h₁ : 0 ≤ step) (h₂ : step < m.count) (ha : s₀.tables m.src = some a)
    (hb : s₀.tables m.dest = some b) (hs : Moved m a b (m.Done step) s₀ s) :
    wp (m.copy A step) (fun _ s' => Moved m a b (m.Done (step + 1)) s₀ s')
      (fun e s' => e = .table .growthFailed ∧ Moved m a b (m.Done step) s₀ s') s := by
  obtain ⟨⟨t, ht, hok, hcopied, hrest⟩, hframe⟩ := hs
  obtain ⟨i, hi⟩ : ∃ i, m.index step = i := ⟨_, rfl⟩
  have hin : 0 ≤ i ∧ i < m.count := by
    rw [← hi, Move.index]
    split <;> omega
  have hsrc := h.src_range
  have hdest := h.dest_range
  have hexact := h.dest_exact i hin.1 hin.2
  rw [Move.copy, wp_bind, wp_moveIndex h h₁ h₂, hi, wp_bind, wp_i64 (by omega), wp_bind, wp_i64 (by omega), moveElement,
    wp_bind]
  -- The value that is read is that of the beginning.
  obtain ⟨u, hu, hread⟩ : ∃ u, s.tables m.src = some u ∧ u.get (Val.ofInt (m.f + i)) = a.get (Val.ofInt (m.f + i)) := by
    by_cases hsame : m.src = m.dest
    · obtain rfl : a = b := Option.some.inj (ha.symm.trans (hsame ▸ hb))
      refine ⟨t, hsame ▸ ht, hrest _ fun j hj => ?_⟩
      have hne := not_done_of_src h hsame h₂ hj
      rw [← Bool.not_eq_true, eq_ofInt (h.dest_exact j hj.1 hj.2.1) (h.src_exact i hin.1 hin.2), ← hi]
      exact hne
    · exact ⟨a, (hframe _ hsame).trans ha, rfl⟩
  simp only [getTableRaw, wp_bind, wp_get, wp_demand hu, wp_pure, hread]
  refine wp_assign ht hok (isValidTableKey_ofInt hexact) (fun t' hok' hget => ?_) fun t' hok' hget => ?_
  · refine ⟨⟨t', Function.update_self .., hok', fun j hj => ?_, fun k hk => ?_⟩, fun q hq => ?_⟩
    · rw [hget]
      by_cases hji : j = i
      · rw [hji, if_pos ((eq_ofInt hexact hexact).2 rfl)]
      · have hdone : m.Done step j := ((done_succ h₁ h₂ j).1 hj).resolve_right (hi ▸ hji)
        rw [if_neg fun heq => hji ?_]
        · exact hcopied j hdone
        · have := (eq_ofInt hexact (h.dest_exact j hdone.1 hdone.2.1)).1 heq
          omega
    · have hself : (Val.ofInt (m.t + i)).eq k = false := hk i ((done_succ h₁ h₂ i).2 (.inr hi.symm))
      rw [hget, hself]
      exact hrest k fun j hj => hk j ((done_succ h₁ h₂ j).2 (.inl hj))
    · exact (Function.update_of_ne hq ..).trans (hframe q hq)
  · refine ⟨rfl, ⟨t', Function.update_self .., hok', fun j hj => ?_, fun k hk => ?_⟩, fun q hq => ?_⟩
    · rw [hget]
      exact hcopied j hj
    · rw [hget]
      exact hrest k hk
    · exact (Function.update_of_ne hq ..).trans (hframe q hq)

/-- Charging and polling leave the tables. -/
theorem Moved.congr {done : Int → Prop} {s' : LibState} (h : Moved m a b done s₀ s) (hs : s'.tables = s.tables) :
    Moved m a b done s₀ s' := by
  obtain ⟨hcopied, hframe⟩ := h
  rw [← hs] at hcopied hframe
  exact ⟨hcopied, hframe⟩

theorem Moved.start {done : Int → Prop} (hb : s₀.tables m.dest = some b) (hok : b.Ok) (hdone : ∀ i, ¬done i)
    (hs : s.tables = s₀.tables) : Moved m a b done s₀ s :=
  ⟨⟨b, (congrFun hs m.dest).trans hb, hok, fun i hi => absurd hi (hdone i), fun _ _ => rfl⟩, fun q _ => congrFun hs q⟩

theorem not_done_zero (i : Int) : ¬m.Done 0 i := by
  rintro ⟨h₁, h₂, h₃⟩
  split at h₃ <;> omega

/-- Copies that are charged one by one fail only for lack of budget or room. -/
theorem wp_moveEach (h : m.Ok) {n : Nat} (h₁ : 0 ≤ step) (h₂ : step + n ≤ m.count) (ha : s₀.tables m.src = some a)
    (hb : s₀.tables m.dest = some b) (hs : Moved m a b (m.Done step) s₀ s) :
    wp (moveEach A m step n) (fun _ s' => Moved m a b (m.Done (step + n)) s₀ s')
      (fun e _ => e = .budgetExceeded ∨ e = .table .growthFailed) s := by
  induction n generalizing step s with
  | zero =>
    rw [Nat.cast_zero, add_zero]
    exact hs
  | succ n ih =>
    rw [Nat.cast_succ] at h₂ ⊢
    rw [moveEach, wp_bind]
    refine wp_charge (fun clock => ?_) fun _ => .inl rfl
    rw [wp_bind]
    refine wp_mono (wp_copy h h₁ (by omega) ha hb (hs.congr rfl)) (fun _ s₂ hs₂ => ?_) fun e s₂ hs₂ => .inr hs₂.1
    have := ih (by omega) (by omega) hs₂
    rwa [show step + 1 + (n : Int) = step + (n + 1) by omega] at this

theorem Moved.done_congr {done done' : Int → Prop} (h : Moved m a b done s₀ s) (hdone : ∀ i, done i ↔ done' i) :
    Moved m a b done' s₀ s := by
  obtain rfl : done = done' := funext fun i => propext (hdone i)
  exact h

/-- Why a move can fail once its arguments have been accepted. -/
def MoveFailed (interrupt : Nat → Bool) (e : LibError) : Prop :=
  (e = .interrupted ∧ ∃ n, interrupt n = true) ∨ e = .budgetExceeded ∨ e = .table .growthFailed

/-- The copies of the steps are made in order. -/
theorem wp_moveRaw (h : m.Ok) {n : Nat} (h₁ : 0 ≤ step) (h₂ : step + n ≤ m.count) (ha : s₀.tables m.src = some a)
    (hb : s₀.tables m.dest = some b) (hs : Moved m a b (m.Done step) s₀ s) :
    wp (moveRaw interrupt A m step n) (fun _ s' => Moved m a b (m.Done (step + n)) s₀ s')
      (fun e s' => MoveFailed interrupt e ∧ ∃ k, k ≤ m.count ∧ Moved m a b (m.Done k) s₀ s') s := by
  induction n generalizing step s with
  | zero =>
    rw [Nat.cast_zero, add_zero]
    exact hs
  | succ n ih =>
    rw [Nat.cast_succ] at h₂ ⊢
    rw [moveRaw, wp_bind]
    simp only [pollInterrupt, wp_bind, wp_get, wp_modify]
    refine wp_ite (fun hint => ?_) fun _ => ?_
    · exact ⟨.inl ⟨rfl, _, hint⟩, step, by omega, hs.congr rfl⟩
    · rw [wp_pure]
      refine wp_mono (wp_copy h h₁ (by omega) ha hb (hs.congr rfl)) (fun _ s₂ hs₂ => ?_) fun e s₂ hs₂ => ?_
      · have := ih (by omega) (by omega) hs₂
        rwa [show step + 1 + (n : Int) = step + (n + 1) by omega] at this
      · exact ⟨.inr (.inr hs₂.1), step, by omega, hs₂.2⟩

/-- No more is charged than was asked for. -/
theorem toNat_consumeUnitsAdmitted (meter : CostMeter) {n : Nat} (hn : n < 2 ^ 64) :
    (meter.consumeUnitsAdmitted (.ofNat n)).1.toNat = (CostMeter.consumeEach meter.unit n meter).1 ∧
      (meter.consumeUnitsAdmitted (.ofNat n)).2 = (CostMeter.consumeEach meter.unit n meter).2 := by
  have heq := meter.consumeUnitsAdmitted_eq meter.unit (.ofNat n)
  rw [CostMeter.withUnit_unit, UInt64.toNat_ofNat_of_lt' hn] at heq
  have hle := (@CostMeter.consumeEach_times meter.unit n meter).1
  rw [heq]
  exact ⟨UInt64.toNat_ofNat_of_lt' (Nat.lt_of_le_of_lt hle hn), rfl⟩

/-- All copies are made, unless something fails, and then the first ones. -/
theorem wp_movePrepaid (h : m.Ok) (ha : s.tables m.src = some a) (hb : s.tables m.dest = some b) (hbok : b.Ok) :
    wp (movePrepaid interrupt A m) (fun _ s' => Moved m a b (m.Done m.count) s s')
      (fun e s' => MoveFailed interrupt e ∧ ∃ k, k ≤ m.count ∧ Moved m a b (m.Done k) s s') s := by
  have hcount : ((m.count.toNat : Nat) : Int) = m.count := Int.toNat_of_nonneg h.pos.le
  have hlt : m.count.toNat < 2 ^ 64 := by
    have := h.count_lt
    omega
  have hstart : Moved m a b (m.Done 0) s s := Moved.start hb hbok not_done_zero rfl
  have hadmitted := (toNat_consumeUnitsAdmitted s.clock.meter hlt).1
  have hle := (@CostMeter.consumeEach_times s.clock.meter.unit m.count.toNat s.clock.meter).1
  rw [← hadmitted] at hle
  rw [movePrepaid, wp_bind, wp_get]
  dsimp only
  simp only [wp_bind, wp_modify]
  refine wp_mono_ok (wp_moveRaw h le_rfl (by omega) ha hb (hstart.congr rfl)) fun _ s' hs' => ?_
  rw [zero_add] at hs'
  refine wp_ite (fun hall => ?_) fun _ => ?_
  · rw [hall, hcount] at hs'
    exact hs'
  · exact ⟨.inr (.inl rfl), _, by omega, hs'⟩

end Copy

/-! ## The function and its arguments -/

/-- What the arguments of a move denote. -/
structure MoveArgs (s : LibState) (args : List Val) (src dest : ObjectPtr) (f e t : Int) : Prop where
  src_eq : checkTable s args 1 "move" = .ok src
  f_eq : argInteger args 2 "move" = .ok f
  e_eq : argInteger args 3 "move" = .ok e
  t_eq : argInteger args 4 "move" = .ok t
  dest_eq : ∃ a2, checkOptionalTable s args 5 "move" = .ok a2 ∧ a2.getD src = dest

section Function

variable {interrupt : Nat → Bool} {A : Allocator} {a b : Table} {s : LibState} {args : List Val} {src dest : ObjectPtr}
  {f e t : Int} {copies : Move → Lib Unit}

theorem liftExcept_bind {α β : Type} {r : Except LibError α} {x : α} (h : r = .ok x) {k : α → Lib β} :
    (Effect.liftExcept r >>= k) s = k x s := by
  rw [h]
  rfl

theorem i64_bind {β : Type} {i : Int} (h : -2 ^ 63 ≤ i ∧ i < 2 ^ 63) {k : Int → Lib β} : (i64 i >>= k) s = k i s := by
  refine run_bind_of_ok ?_
  rw [i64, require, if_pos h]
  rfl

/-- The move of ranges that are accepted. -/
def moveOf (src dest : ObjectPtr) (f e t : Int) : Move :=
  ⟨src, dest, f, t, e - f + 1, decide (src = dest ∧ f < t ∧ t ≤ e)⟩

/-- Ranges that pass the guards do not leave 64 bits. -/
theorem MoveGuards.range (hg : MoveGuards f e t) (hf : -2 ^ 63 ≤ f ∧ f < 2 ^ 63) (he : -2 ^ 63 ≤ e ∧ e < 2 ^ 63)
 : e - f + 1 < 2 ^ 63 ∧ t + (e - f + 1) ≤ 2 ^ 63 := by
  have hfits := hg.fits
  have hroom := hg.room
  rw [I64_MAX] at hfits hroom
  omega

/-- The guards pass these ranges, and no operation overflows. -/
theorem tableMoveBy_eq (ha : MoveArgs s args src dest f e t) (hfe : f ≤ e) (hg : MoveGuards f e t) :
    tableMoveBy copies args s = (copies (moveOf src dest f e t) >>= fun _ => return [.obj dest]) s := by
  obtain ⟨a2, ha2, rfl⟩ := ha.dest_eq
  have hf := argInteger_range ha.f_eq
  have he := argInteger_range ha.e_eq
  have ht := argInteger_range ha.t_eq
  obtain ⟨hcount, hlast⟩ := hg.range hf he
  have hroom := hg.room
  have hfits := hg.fits
  have hmax : I64_MAX = 2 ^ 63 - 1 := rfl
  rw [tableMoveBy, run_get_bind, liftExcept_bind ha.src_eq, liftExcept_bind ha.f_eq, liftExcept_bind ha.e_eq,
    liftExcept_bind ha.t_eq, liftExcept_bind ha2]
  dsimp only
  rw [if_pos hfe]
  have hfirst : moveFits f e s = .ok true s := by
    rw [moveFits]
    split
    · rfl
    · rename_i hneg
      have hlt := hfits.resolve_left hneg
      rw [i64_bind (by omega), decide_eq_true hlt]
      rfl
  have hdest : checkIntegerKeyRange t (t + (e - f + 1 - 1)) = true := by
    rw [add_sub_cancel_right]
    exact hg.dest
  rw [run_bind_of_ok hfirst]
  simp only [Bool.not_true, Bool.false_eq_true, if_false]
  rw [i64_bind (by omega), i64_bind (by omega), i64_bind (by omega), i64_bind (by omega), if_neg (by omega),
    i64_bind (by omega), i64_bind (by omega), hg.src, hdest]
  rfl

theorem moveOf_ok (ha : MoveArgs s args src dest f e t) (hfe : f ≤ e) (hg : MoveGuards f e t) :
    (moveOf src dest f e t).Ok := by
  have hf := argInteger_range ha.f_eq
  have he := argInteger_range ha.e_eq
  have ht := argInteger_range ha.t_eq
  obtain ⟨hcount, hlast⟩ := hg.range hf he
  refine ⟨?_, hcount, ⟨hf.1, ?_⟩, ⟨ht.1, hlast⟩, fun i h₁ h₂ => ?_, fun i h₁ h₂ => ?_, ?_⟩
  · show 0 < e - f + 1
    omega
  · show f + (e - f + 1) ≤ 2 ^ 63
    omega
  · exact exact_of_range hg.src (by show f ≤ f + i; omega) (by change i < e - f + 1 at h₂; show f + i ≤ e; omega)
  · exact exact_of_range hg.dest (by show t ≤ t + i; omega)
      (by change i < e - f + 1 at h₂; show t + i ≤ t + (e - f); omega)
  · have hlt : t < f + (e - f + 1) ↔ t ≤ e := by omega
    simp only [moveOf, hlt]

end Function

/-! ## Charging ahead -/

/-- A computation that acts on the tables alone, and fails only as they do. -/
def OnTables {α : Type} (m : Lib α) : Prop :=
  ∀ s s' : LibState, s.tables = s'.tables →
    (∃ a T, m s = .ok a { s with tables := T } ∧ m s' = .ok a { s' with tables := T }) ∨
      (∃ e T, m s = .fail (.table e) { s with tables := T } ∧ m s' = .fail (.table e) { s' with tables := T }) ∨
        m s = .panic ∧ m s' = .panic

section OnTables

variable {α β : Type} {A : Allocator} {m : Lib α} {k : α → Lib β}

theorem onTables_pure {a : α} : OnTables (pure a : Lib α) := by
  rintro ⟨clock, T⟩ ⟨clock', -⟩ rfl
  exact .inl ⟨a, T, rfl, rfl⟩

theorem onTables_demand {o : Option α} : OnTables (demand o : Lib α) := by
  cases o with
  | none => exact fun _ _ _ => .inr (.inr ⟨rfl, rfl⟩)
  | some a => exact onTables_pure

theorem OnTables.bind (h : OnTables m) (hk : ∀ a, OnTables (k a)) : OnTables (m >>= k) := by
  intro s s' hs
  rcases h s s' hs with ⟨a, T, h₁, h₂⟩ | ⟨e, T, h₁, h₂⟩ | ⟨h₁, h₂⟩
  · rw [run_bind_of_ok h₁, run_bind_of_ok h₂]
    exact hk a _ _ rfl
  · rw [run_bind_of_fail h₁, run_bind_of_fail h₂]
    exact .inr (.inl ⟨e, T, rfl, rfl⟩)
  · rw [run_bind_of_panic h₁, run_bind_of_panic h₂]
    exact .inr (.inr ⟨rfl, rfl⟩)

/-- Read the tables. -/
theorem onTables_get_bind {f : (ObjectPtr → Option Table) → Lib β} (h : ∀ T, OnTables (f T)) :
    OnTables (get >>= fun s : LibState => f s.tables) := by
  rintro ⟨clock, T⟩ ⟨clock', T'⟩ hs
  obtain rfl : T = T' := hs
  exact h T ⟨clock, T⟩ ⟨clock', T⟩ rfl

theorem onTables_modify {p : ObjectPtr} {t : Table} : OnTables (modify fun s => s.setTable p t : Lib Unit) := by
  rintro ⟨clock, T⟩ ⟨clock', T'⟩ hs
  obtain rfl : T = T' := hs
  exact .inl ⟨(), _, rfl, rfl⟩

theorem onTables_liftTable {r : Except TableError α} : OnTables (Effect.liftExcept (r.mapError .table) : Lib α) := by
  cases r with
  | ok a => exact onTables_pure
  | error e =>
    rintro ⟨clock, T⟩ ⟨clock', T'⟩ hs
    obtain rfl : T = T' := hs
    exact .inr (.inl ⟨e, T, rfl, rfl⟩)

theorem onTables_i64 {i : Int} : OnTables (i64 i) := by
  refine OnTables.bind ?_ fun _ => onTables_pure
  rw [require]
  split
  · exact onTables_pure
  · exact fun _ _ _ => .inr (.inr ⟨rfl, rfl⟩)

theorem onTables_getTableRaw {p : ObjectPtr} {key : Val} : OnTables (getTableRaw p key) :=
  @onTables_get_bind _ (fun T => demand (T p) >>= fun t => return t.get key) fun _ =>
    onTables_demand.bind fun _ => onTables_pure

theorem onTables_setTableRaw {p : ObjectPtr} {key value : Val} : OnTables (setTableRaw A p key value) :=
  @onTables_get_bind _
    (fun T => demand (T p) >>= fun t => demand (t.insert A key value) >>= fun r =>
      modify (fun s => s.setTable p r.2) >>= fun _ => Effect.liftExcept (r.1.mapError .table))
    fun _ => onTables_demand.bind fun _ => onTables_demand.bind fun _ =>
      onTables_modify.bind fun _ => onTables_liftTable

theorem onTables_copy {m : Move} {step : Int} : OnTables (m.copy A step) := by
  refine OnTables.bind ?_ fun _ => onTables_i64.bind fun _ => onTables_i64.bind fun _ => ?_
  · rw [moveIndex]
    split
    · exact onTables_i64.bind fun _ => onTables_i64
    · exact onTables_pure
  · refine OnTables.bind ?_ fun value => ?_
    · exact onTables_getTableRaw
    · exact onTables_setTableRaw

end OnTables

/-- The same tables, and as much charged. -/
def SameWork (s s' : LibState) : Prop := s.tables = s'.tables ∧ s.clock.meter = s'.clock.meter

section Prepaid

variable {interrupt : Nat → Bool} {A : Allocator} {m : Move} {s s' : LibState} {step : Int}

theorem unit_consume (meter : CostMeter) (cost : UInt64) : (meter.consume cost).2.unit = meter.unit := by
  rcases meter with _ | ⟨used, unit⟩ | ⟨remaining, used, unit⟩
  · rfl
  · rfl
  · rw [CostMeter.consume]
    split <;> rfl

/-- What was charged ahead is what is charged copy by copy, unless a copy fails. -/
theorem rel_moveEach (hint : ∀ n, interrupt n = false) {n k : Nat} {ahead : CostMeter} (hs : s.tables = s'.tables)
    (hahead : CostMeter.consumeEach s'.clock.meter.unit n s'.clock.meter = (k, ahead)) (hmeter : s.clock.meter = ahead) :
    (∃ e s₁, moveEach A m step n s' = .fail (.table e) s₁) ∨
      rel (moveRaw interrupt A m step k >>= fun _ => if k = n then return () else fail .budgetExceeded)
        (moveEach A m step n) (fun _ s₁ _ s₁' => SameWork s₁ s₁') SameWork s s' := by
  induction n generalizing s s' step k with
  | zero =>
    obtain ⟨rfl, rfl⟩ := Prod.mk.inj hahead
    exact .inr ⟨hs, hmeter⟩
  | succ n ih =>
    rw [CostMeter.consumeEach] at hahead
    have hunit := unit_consume s'.clock.meter s'.clock.meter.unit
    rcases hm : s'.clock.meter.consume s'.clock.meter.unit with ⟨_ | _, meter⟩
    · -- Nothing more is admitted.
      rw [hm] at hahead
      obtain ⟨rfl, rfl⟩ := Prod.mk.inj hahead
      have hright : moveEach A m step (n + 1) s' =
          .fail .budgetExceeded { s' with clock := { s'.clock with meter } } := by
        rw [moveEach, charge, bind_assoc, run_get_bind, hm]
        rfl
      refine .inr ?_
      rw [rel, hright]
      exact ⟨rfl, hs, hmeter⟩
    · rw [hm] at hahead hunit
      obtain ⟨s₁', hs₁'⟩ : ∃ s₁' : LibState, { s' with clock := { s'.clock with meter } } = s₁' := ⟨_, rfl⟩
      have hclock : s₁'.clock.meter = meter := by rw [← hs₁']
      obtain ⟨j, hj⟩ : ∃ j, CostMeter.consumeEach s₁'.clock.meter.unit n s₁'.clock.meter = (j, ahead) ∧ k = j + 1 := by
        simp only [← hunit] at hahead
        rw [hclock]
        obtain ⟨hk, rfl⟩ := Prod.mk.inj hahead
        exact ⟨_, rfl, hk.symm⟩
      obtain ⟨hj, rfl⟩ := hj
      have hright : moveEach A m step (n + 1) s' = (m.copy A step >>= fun _ => moveEach A m (step + 1) n) s₁' := by
        rw [moveEach, charge, bind_assoc, run_get_bind, hm, ← hs₁']
        rfl
      obtain ⟨s₁, hs₁⟩ : ∃ s₁ : LibState, { s with clock := { s.clock with polls := s.clock.polls + 1 } } = s₁ :=
        ⟨_, rfl⟩
      have hpoll : pollInterrupt interrupt s = .ok () s₁ := by
        rw [pollInterrupt, run_get_bind, hint, ← hs₁]
        rfl
      have hleft : (moveRaw interrupt A m step (j + 1) >>= fun _ =>
          if j + 1 = n + 1 then (return () : Lib Unit) else fail .budgetExceeded) s =
            (m.copy A step >>= fun _ => moveRaw interrupt A m (step + 1) j >>= fun _ =>
              if j = n then (return () : Lib Unit) else fail .budgetExceeded) s₁ := by
        rw [moveRaw, bind_assoc, run_bind_of_ok hpoll, bind_assoc]
        simp only [Nat.add_right_cancel_iff]
      have htables : s₁.tables = s₁'.tables := by
        rw [← hs₁, ← hs₁']
        exact hs
      have hmeter₁ : s₁.clock.meter = ahead := by rw [← hs₁, hmeter]
      rw [rel, hleft, hright]
      rcases @onTables_copy A m step s₁ s₁' htables with ⟨_, T, h₁, h₂⟩ | ⟨e, T, h₁, h₂⟩ | ⟨h₁, h₂⟩
      · -- The copy is made on both sides.
        rw [run_bind_of_ok h₁, run_bind_of_ok h₂]
        exact @ih { s₁ with tables := T } { s₁' with tables := T } (step + 1) j rfl hj hmeter₁
      · exact .inl ⟨e, _, run_bind_of_fail h₂⟩
      · rw [run_bind_of_panic h₁, run_bind_of_panic h₂]
        exact .inr trivial

/-- A move that is charged ahead ends as one that is charged copy by copy. -/
theorem rel_movePrepaid (hint : ∀ n, interrupt n = false) (hlt : m.count.toNat < 2 ^ 64) :
    (∃ e s₁, moveEach A m 0 m.count.toNat s = .fail (.table e) s₁) ∨
      rel (movePrepaid interrupt A m) (moveEach A m 0 m.count.toNat) (fun _ s₁ _ s₁' => SameWork s₁ s₁') SameWork s s := by
  obtain ⟨hadmitted, hmeter⟩ := toNat_consumeUnitsAdmitted s.clock.meter hlt
  refine (@rel_moveEach interrupt A m { s with clock := { s.clock with
    meter := (s.clock.meter.consumeUnitsAdmitted (.ofNat m.count.toNat)).2 } } s 0 hint _ _ _ rfl rfl hmeter).imp_right
      fun hrel => ?_
  rw [← hadmitted] at hrel
  exact hrel

end Prepaid

/-! ## Moving -/

/-- A key of one of the ranges. -/
def InRanges (f e t key : Int) : Prop := f ≤ key ∧ key ≤ e ∨ t ≤ key ∧ key ≤ t + (e - f)

/-- The keys of the ranges are exact. -/
theorem MoveGuards.exact {f e t key : Int} (h : MoveGuards f e t) (hkey : InRanges f e t key) : Exact key :=
  hkey.elim (fun hk => exact_of_range h.src hk.1 hk.2) fun hk => exact_of_range h.dest hk.1 hk.2

section Function

variable {interrupt : Nat → Bool} {A : Allocator} {a b : Table} {s : LibState} {args : List Val} {src dest : ObjectPtr}
  {f e t : Int} {copies : Move → Lib Unit}

/-- Ranges that do not pass the guards are refused. -/
theorem tableMoveBy_refused (ha : MoveArgs s args src dest f e t) (hfe : f ≤ e) (hg : ¬MoveGuards f e t) :
    ∃ err, tableMoveBy copies args s = .fail err s ∧
      (err = .argument 3 "move" .tooManyElementsToMove ∨ err = .argument 4 "move" .destinationWrapAround ∨
        err = .integerKeyRangeExceeded .move) := by
  obtain ⟨a2, ha2, rfl⟩ := ha.dest_eq
  have hf := argInteger_range ha.f_eq
  have he := argInteger_range ha.e_eq
  have ht := argInteger_range ha.t_eq
  have hmax : I64_MAX = 2 ^ 63 - 1 := rfl
  rw [tableMoveBy, run_get_bind, liftExcept_bind ha.src_eq, liftExcept_bind ha.f_eq, liftExcept_bind ha.e_eq,
    liftExcept_bind ha.t_eq, liftExcept_bind ha2]
  dsimp only
  rw [if_pos hfe]
  have hfirst : moveFits f e s = .ok (decide (0 < f ∨ e < I64_MAX + f)) s := by
    rw [moveFits]
    split
    · rename_i hpos
      rw [decide_eq_true (.inl hpos)]
      rfl
    · rename_i hneg
      rw [i64_bind (by omega)]
      simp only [hneg, false_or]
      rfl
  rw [run_bind_of_ok hfirst]
  by_cases hfits : 0 < f ∨ e < I64_MAX + f
  · have hcount : e - f + 1 < 2 ^ 63 := by omega
    rw [decide_eq_true hfits]
    simp only [Bool.not_true, Bool.false_eq_true, if_false]
    rw [i64_bind (by omega), i64_bind (by omega), i64_bind (by omega), i64_bind (by omega)]
    by_cases hroom : t ≤ I64_MAX - (e - f + 1) + 1
    · rw [if_neg (by omega), i64_bind (by omega), i64_bind (by omega), add_sub_cancel_right, if_pos]
      · exact ⟨_, rfl, .inr (.inr rfl)⟩
      · by_contra hpass
        simp only [Bool.not_eq_true', Bool.not_eq_false, Bool.and_eq_true] at hpass
        exact hg ⟨hfits, hroom, hpass.1, hpass.2⟩
    · rw [if_pos (by omega)]
      exact ⟨_, rfl, .inr (.inl rfl)⟩
  · rw [decide_eq_false hfits]
    exact ⟨_, rfl, .inl rfl⟩

/-- An empty range is charged a unit. -/
theorem tableMoveBy_empty (ha : MoveArgs s args src dest f e t) (hfe : ¬f ≤ e) :
    tableMoveBy copies args s = (charge >>= fun _ => return [.obj dest]) s := by
  obtain ⟨a2, ha2, rfl⟩ := ha.dest_eq
  rw [tableMoveBy, run_get_bind, liftExcept_bind ha.src_eq, liftExcept_bind ha.f_eq, liftExcept_bind ha.e_eq,
    liftExcept_bind ha.t_eq, liftExcept_bind ha2]
  dsimp only
  rw [if_neg hfe]

/-- What a move has made when it returns, and when it fails. -/
theorem wp_tableMove (ha : MoveArgs s args src dest f e t) (hg : f ≤ e → MoveGuards f e t)
    (hsrc : s.tables src = some a) (hdest : s.tables dest = some b) (hbok : b.Ok) :
    wp (tableMove interrupt A args)
      (fun vs s' => vs = [.obj dest] ∧ Moved (moveOf src dest f e t) a b (fun i => 0 ≤ i ∧ i ≤ e - f) s s')
      (fun err s' => MoveFailed interrupt err ∧ ∃ k, k ≤ (moveOf src dest f e t).count ∧
        Moved (moveOf src dest f e t) a b ((moveOf src dest f e t).Done k) s s') s := by
  by_cases hfe : f ≤ e
  · have hok := moveOf_ok ha hfe (hg hfe)
    rw [tableMove, wp_congr (tableMoveBy_eq ha hfe (hg hfe)), wp_bind]
    refine wp_mono_ok (wp_movePrepaid hok hsrc hdest hbok) fun _ s' hs' => ⟨rfl, ?_⟩
    refine hs'.done_congr fun i => ?_
    rw [Move.Done]
    show _ ∧ i < e - f + 1 ∧ (if _ then e - f + 1 - (e - f + 1) ≤ i else i < e - f + 1) ↔ _
    split <;> omega
  · rw [tableMove, wp_congr (tableMoveBy_empty ha hfe), wp_bind]
    refine wp_charge (fun clock => ⟨rfl, Moved.start hdest hbok (fun i => by omega) rfl⟩) fun clock => ?_
    refine ⟨.inr (.inl rfl), _, le_rfl, Moved.start hdest hbok (fun i hi => ?_) rfl⟩
    have hlt : i < e - f + 1 := hi.2.1
    have := hi.1
    omega

theorem settles_moveElement {key key' : Int} : Settles (moveElement A src dest key key') :=
  settles_getTableRaw.bind fun _ => settles_setTableRaw

theorem settles_i64 {i : Int} : Settles (i64 i) := settles_require.bind fun _ => settles_pure

theorem settles_copy {m : Move} {step : Int} : Settles (m.copy A step) :=
  (Settles.ite (settles_i64.bind fun _ => settles_i64) settles_pure).bind fun _ =>
    settles_i64.bind fun _ => settles_i64.bind fun _ => settles_moveElement

theorem settles_moveRaw {m : Move} {step : Int} {n : Nat} : Settles (moveRaw interrupt A m step n) := by
  induction n generalizing step with
  | zero => exact settles_pure
  | succ n ih => exact settles_pollInterrupt.bind fun _ => settles_copy.bind fun _ => ih

theorem settles_movePrepaid {m : Move} : Settles (movePrepaid interrupt A m) :=
  settles_get.bind fun _ => settles_modify.bind fun _ => settles_moveRaw.bind fun _ =>
    Settles.ite settles_pure settles_fail

/-- A move ends. -/
theorem settles_tableMove : Settles (tableMove interrupt A args) := by
  refine settles_get.bind fun s => settles_liftExcept.bind fun src => settles_liftExcept.bind fun f =>
    settles_liftExcept.bind fun e => settles_liftExcept.bind fun t => settles_liftExcept.bind fun a2 => ?_
  have hfits : Settles (moveFits f e) := Settles.ite settles_pure (settles_i64.bind fun _ => settles_pure)
  refine Settles.ite (hfits.bind fun fits => Settles.ite settles_liftExcept ?_) (settles_charge.bind fun _ => settles_pure)
  refine settles_i64.bind fun _ => settles_i64.bind fun _ => settles_i64.bind fun _ => settles_i64.bind fun _ =>
    Settles.ite settles_liftExcept ?_
  exact settles_i64.bind fun _ => settles_i64.bind fun _ =>
    Settles.ite settles_fail (settles_movePrepaid.bind fun _ => settles_pure)

/-- A move ends as one that is charged copy by copy, where nothing interrupts and no table is refused room. -/
theorem rel_tableMove (hint : ∀ n, interrupt n = false) (ha : MoveArgs s args src dest f e t)
    (hg : f ≤ e → MoveGuards f e t) (hsrc : s.tables src = some a) (hdest : s.tables dest = some b) (hbok : b.Ok) :
    (∃ s₁, tableMoveEach A args s = .fail (.table .growthFailed) s₁) ∨
      rel (tableMove interrupt A args) (tableMoveEach A args) (fun vs s₁ vs' s₁' => vs = vs' ∧ SameWork s₁ s₁')
        SameWork s s := by
  by_cases hfe : f ≤ e
  · have hok := moveOf_ok ha hfe (hg hfe)
    have hcount : (((moveOf src dest f e t).count.toNat : Nat) : Int) = (moveOf src dest f e t).count :=
      Int.toNat_of_nonneg hok.pos.le
    have hlt : (moveOf src dest f e t).count.toNat < 2 ^ 64 := by
      have := hok.count_lt
      omega
    rw [tableMoveEach, tableMove, tableMoveBy_eq ha hfe (hg hfe)]
    rcases @rel_movePrepaid interrupt A _ s hint hlt with ⟨err, s₁, hfail⟩ | hrel
    · -- Only a refused growth makes a table fail.
      have hwp := @wp_moveEach A (moveOf src dest f e t) a b s s 0 hok
        (moveOf src dest f e t).count.toNat le_rfl (by omega) hsrc hdest
        (Moved.start hdest hbok not_done_zero rfl)
      rw [wp, hfail] at hwp
      obtain rfl : err = .growthFailed := by
        rcases hwp with h | h <;> cases h
        rfl
      exact .inl ⟨s₁, run_bind_of_fail hfail⟩
    · right
      rw [rel, tableMoveBy_eq ha hfe (hg hfe), tableMoveBy_eq ha hfe (hg hfe)]
      exact rel_bind (rel_mono_ok hrel fun _ _ _ _ hwork => ⟨rfl, hwork⟩)
  · right
    rw [rel, tableMove, tableMoveEach, tableMoveBy_empty ha hfe, tableMoveBy_empty ha hfe]
    cases (charge >>= fun _ => return [.obj dest] : Lib (List Val)) s
    · exact ⟨rfl, rfl, rfl⟩
    · exact ⟨rfl, rfl, rfl⟩
    · trivial
    · trivial

/-- A move of ranges that pass the guards.

    * The keys of the ranges stay apart as doubles.
    * It ends. It makes all copies from the values at the beginning, and changes nothing else. Where it fails
      it has made the first ones. No operation on integers overflows.
    * It ends as one that is charged copy by copy, where nothing interrupts and no table is refused room. -/
theorem move_simultaneous (ha : MoveArgs s args src dest f e t) (hg : f ≤ e → MoveGuards f e t)
    (hsrc : s.tables src = some a) (hdest : s.tables dest = some b) (hbok : b.Ok) :
    (∀ key key', f ≤ e → InRanges f e t key → InRanges f e t key' →
      ((Val.ofInt key).eq (Val.ofInt key') = true ↔ key = key')) ∧
    tableMove interrupt A args s ≠ .timeout ∧
    wp (tableMove interrupt A args)
      (fun vs s' => vs = [.obj dest] ∧ Moved (moveOf src dest f e t) a b (fun i => 0 ≤ i ∧ i ≤ e - f) s s')
      (fun err s' => MoveFailed interrupt err ∧ ∃ k, k ≤ (moveOf src dest f e t).count ∧
        Moved (moveOf src dest f e t) a b ((moveOf src dest f e t).Done k) s s') s ∧
    ((∀ n, interrupt n = false) →
      (∃ s₁, tableMoveEach A args s = .fail (.table .growthFailed) s₁) ∨
        rel (tableMove interrupt A args) (tableMoveEach A args) (fun vs s₁ vs' s₁' => vs = vs' ∧ SameWork s₁ s₁')
          SameWork s s) :=
  ⟨fun _ _ hfe h h' => eq_ofInt ((hg hfe).exact h) ((hg hfe).exact h'), settles_tableMove s,
    wp_tableMove ha hg hsrc hdest hbok, fun hint => rel_tableMove hint ha hg hsrc hdest hbok⟩

end Function

/-- The first two keys of an empty table are moved up by one. -/
theorem move_simultaneous_empty :
    let s := only ⟨0, 0⟩ (.withCapacity 0)
    let args := [.obj ⟨0, 0⟩, .ofNat 1, .ofNat 2, .ofNat 2]
    let moved := moveOf ⟨0, 0⟩ ⟨0, 0⟩ 1 2 2
    (∀ key key', (1 : Int) ≤ 2 → InRanges 1 2 2 key → InRanges 1 2 2 key' →
      ((Val.ofInt key).eq (Val.ofInt key') = true ↔ key = key')) ∧
    tableMove (fun _ => false) .exact args s ≠ .timeout ∧
    wp (tableMove (fun _ => false) .exact args)
      (fun vs s' => vs = [.obj ⟨0, 0⟩] ∧
        Moved moved (.withCapacity 0) (.withCapacity 0) (fun i => 0 ≤ i ∧ i ≤ 2 - 1) s s')
      (fun err s' => MoveFailed (fun _ => false) err ∧ ∃ k, k ≤ moved.count ∧
        Moved moved (.withCapacity 0) (.withCapacity 0) (moved.Done k) s s') s ∧
    ((∀ n, (fun _ : Nat => false) n = false) →
      (∃ s₁, tableMoveEach .exact args s = .fail (.table .growthFailed) s₁) ∨
        rel (tableMove (fun _ => false) .exact args) (tableMoveEach .exact args)
          (fun vs s₁ vs' s₁' => vs = vs' ∧ SameWork s₁ s₁') SameWork s s) :=
  have hfits : MoveGuards 1 2 2 := ⟨.inl (by decide), by decide, by decide, by decide⟩
  have hargs : MoveArgs (only ⟨0, 0⟩ (.withCapacity 0)) [.obj ⟨0, 0⟩, .ofNat 1, .ofNat 2, .ofNat 2] ⟨0, 0⟩ ⟨0, 0⟩
      1 2 2 := ⟨rfl, by decide, by decide, by decide, none, rfl, rfl⟩
  have hreach : Table.Reachable (.withCapacity 0) := .withCapacity 0
  move_simultaneous hargs (fun _ => hfits) rfl rfl hreach.ok

end Dellingr.TableLib
