import Dellingr.LuaStd.TableLib
import Dellingr.Vm.Table.Bisimulation
import Dellingr.Vm.Table.ShiftLoop
import Dellingr.Vm.TableSort

/-!
# Inserting into and removing from a sequence

`table.insert` and `table.remove` shift the storage of a table without sequence metamethods in place
(`insertInPlace`, `removeInPlace`). For a table with such metamethods they go through them for every key
that is shifted; the loops are here run with raw accesses (`insertThroughMetamethods`,
`removeThroughMetamethods`).

Either way the same positions are accepted, the same value is returned and the table is left the same, up to
how much of its window is stored. The loops can be stopped where the operations in place cannot: by
the interrupt of the host, which is polled for every key, and by a limit on how many keys are shifted.
-/

namespace Dellingr.TableLib

open Effect
open Numeral (exactI64 saturate)
open TableSort (TABLE_SORT_MAX_LEN)

section

variable (interrupt : Nat → Bool) (A : Allocator) (p : ObjectPtr)

/-! ## In place -/

def tableLen : Lib Nat := do
  let s ← get
  let t ← demand (s.tables p)
  return t.arrayLen

def tableInsertAt (pos : Nat) (value : Val) : Lib Unit := do
  let s ← get
  let t ← demand (s.tables p)
  if ¬(1 ≤ pos ∧ pos ≤ t.arrayLen + 1) then fail .positionOutOfBounds
  else do
    let r ← demand (t.arrayInsert A pos value)
    modify fun s => s.setTable p r.2
    Effect.liftExcept (r.1.mapError .table)

def tableRemoveAt (pos : Nat) : Lib Val := do
  let s ← get
  let t ← demand (s.tables p)
  if ¬(1 ≤ pos ∧ pos ≤ t.arrayLen + 1 ∨ t.arrayLen = 0 ∧ pos = 0) then fail .positionOutOfBounds
  else do
    let r ← demand (t.arrayRemove A pos)
    modify fun s => s.setTable p r.2
    Effect.liftExcept (r.1.mapError .table)

/-- `table.insert` by shifting the storage. -/
def insertInPlace (args : List Val) : Lib (List Val) :=
  match args with
  | [_, value] => do
    let len ← tableLen p
    tableInsertAt A p (len + 1) value
    return []
  | [_, _, value] => do
    let pos ← Effect.liftExcept (argInteger args 2 "insert")
    let len ← tableLen p
    require (len < 2 ^ 63)
    if ¬(1 ≤ pos ∧ pos ≤ (len : Int) + 1) then
      Effect.liftExcept (argumentError 2 "insert" .positionOutOfBounds)
    else do
      tableInsertAt A p pos.toNat value
      return []
  | _ => fail (.wrongNumberOfArguments .insert)

/-- `table.remove` by shifting the storage. -/
def removeInPlace (args : List Val) : Lib (List Val) := do
  let len ← tableLen p
  require (len < 2 ^ 63)
  let pos ← Effect.liftExcept (optInteger args 2 "remove")
  match pos with
  | some pos =>
    let valid := if len = 0 then decide (pos = 0 ∨ pos = 1) else decide (1 ≤ pos ∧ pos ≤ (len : Int) + 1)
    if !valid then Effect.liftExcept (argumentError 2 "remove" .positionOutOfBounds)
    else do
      let removed ← tableRemoveAt A p pos.toNat
      return [removed]
  | none => do
    let removed ← tableRemoveAt A p len
    return [removed]

/-! ## Key by key -/

/-- The length of a table that has no `__len`. -/
def sequenceLen : Lib Int := do
  let len ← tableLen p
  return saturate len

def checkSequenceKeys (first last : Int) (function : LibraryFunction) : Lib Unit :=
  if checkIntegerKeyRange first last then return () else fail (.integerKeyRangeExceeded function)

/-- The limit on how far is shifted is that of sorting. -/
def checkShiftDistance (distance : Int) (function : LibraryFunction) : Lib Unit :=
  if (TABLE_SORT_MAX_LEN : Int) ≤ distance then fail (.sequenceShiftTooLarge function) else return ()

/-- Move the `n` values from a position on to the next keys, the last one first. -/
def insertShift (pos : Int) : Nat → Lib Unit
  | 0 => return ()
  | n + 1 => do
    pollInterrupt interrupt
    let value ← getTableRaw p (Val.ofInt (pos + n))
    setTableRaw A p (Val.ofInt (pos + n + 1)) value
    insertShift pos n

/-- Move the `n` values after a position to the keys before, the first one first. -/
def removeShift (pos : Int) : Nat → Lib Int
  | 0 => return pos
  | n + 1 => do
    pollInterrupt interrupt
    let value ← getTableRaw p (Val.ofInt (pos + 1))
    setTableRaw A p (Val.ofInt pos) value
    removeShift (pos + 1) n

def insertThroughMetamethods (args : List Val) : Lib (List Val) := do
  let len ← sequenceLen p
  let firstEmpty := wrap (len + 1)
  let insert (pos : Int) (value : Val) : Lib (List Val) := do
    checkSequenceKeys pos (max firstEmpty pos) .insert
    checkShiftDistance (saturate (firstEmpty - pos)) .insert
    insertShift interrupt A p pos (firstEmpty - pos).toNat
    setTableRaw A p (Val.ofInt pos) value
    return []
  match args with
  | [_, value] => insert firstEmpty value
  | [_, _, value] => do
    let pos ← Effect.liftExcept (argInteger args 2 "insert")
    if castUnsigned firstEmpty ≤ castUnsigned (wrap (pos - 1)) then
      Effect.liftExcept (argumentError 2 "insert" .positionOutOfBounds)
    else insert pos value
  | _ => fail (.wrongNumberOfArguments .insert)

def removeThroughMetamethods (args : List Val) : Lib (List Val) := do
  let size ← sequenceLen p
  let arg ← Effect.liftExcept (optInteger args 2 "remove")
  let pos := arg.getD size
  if pos ≠ size ∧ castUnsigned size < castUnsigned (wrap (pos - 1)) then
    Effect.liftExcept (argumentError 2 "remove" .positionOutOfBounds)
  else do
    checkSequenceKeys pos (max size pos) .remove
    checkShiftDistance (saturate (size - pos)) .remove
    let removed ← getTableRaw p (Val.ofInt pos)
    let pos ← removeShift interrupt A p pos (size - pos).toNat
    setTableRaw A p (Val.ofInt pos) .nil
    return [removed]

end

/-! ## Steps and flat tables -/

section Steps

variable {interrupt : Nat → Bool} {A : Allocator} {p : ObjectPtr} {s : LibState} {t : Table} {key value : Val}
  {pos n : Nat}

/-- A table with this flat table is in the place of another. -/
def Left (p : ObjectPtr) (s : LibState) (f : Flat) (s' : LibState) : Prop :=
  ∃ t', t'.Ok ∧ t'.flat = f ∧ s'.tables = Function.update s.tables p (some t')

theorem Left.trans {s₁ s₂ : LibState} {f g : Flat} (h : Left p s f s₁) (h' : Left p s₁ g s₂) : Left p s g s₂ := by
  obtain ⟨_, _, _, hs₁⟩ := h
  obtain ⟨t₂, hok, hf, hs₂⟩ := h'
  exact ⟨t₂, hok, hf, by rw [hs₂, hs₁, Function.update_idem]⟩

theorem Left.refl (ht : s.tables p = some t) (h : t.Ok) {s' : LibState} (hs : s'.tables = s.tables) :
    Left p s t.flat s' :=
  ⟨t, h, rfl, by rw [hs, ← ht, Function.update_eq_self]⟩

theorem wp_pollInterrupt {Q : Unit → LibState → Prop} {E : LibError → LibState → Prop}
    (hok : ∀ s', s'.tables = s.tables → Q () s') (herr : ∀ n s', interrupt n = true → E .interrupted s') :
    wp (pollInterrupt interrupt) Q E s := by
  simp only [pollInterrupt, wp_bind, wp_get, wp_modify]
  split
  · rename_i hn
    exact herr _ _ hn
  · exact hok _ rfl

/-- The interrupt of the host was set. -/
def Interrupted (interrupt : Nat → Bool) (e : LibError) : Prop := e = .interrupted ∧ ∃ n, interrupt n = true

theorem wp_getTableRaw (ht : s.tables p = some t) {Q : Val → LibState → Prop} {E : LibError → LibState → Prop} :
    wp (getTableRaw p key) Q E s = Q (t.get key) s := by
  simp only [getTableRaw, wp_bind, wp_get, wp_demand ht, wp_pure]

/-- An assignment does to the flat table what `Flat.insert` says. -/
theorem wp_setTableRaw (hA : A.Total) (ht : s.tables p = some t) (h : t.Ok) {Q : Unit → LibState → Prop}
    {E : LibError → LibState → Prop}
    (hok : ∀ f s', t.flat.insert key value = (.ok (), f) → Left p s f s' → Q () s')
    (herr : ∀ e f s', t.flat.insert key value = (.error e, f) → Left p s f s' → E (.table e) s') :
    wp (setTableRaw A p key value) Q E s := by
  obtain ⟨t', he, hw, hf⟩ := (Table.insert_refines h).of_total hA
  have hdoes := (Flat.insert_does (Table.ok_iff.1 h).2 key value).ok
  have hleft : Left p s (t.flat.insert key value).2 (s.setTable p t') :=
    ⟨t', Table.ok_iff.2 ⟨hw, hf ▸ hdoes⟩, hf, rfl⟩
  simp only [setTableRaw, wp_bind, wp_get, wp_demand ht, wp_demand he, wp_modify, wp_liftExcept]
  cases hr : (t.flat.insert key value).1 with
  | ok u => exact ⟨fun _ _ => hok _ _ (by rw [← hr]) hleft, by rintro _ ⟨⟩⟩
  | error e =>
    refine ⟨by rintro _ ⟨⟩, fun e' he' => ?_⟩
    obtain rfl : LibError.table e = e' := Except.error.inj he'
    exact herr _ _ _ (by rw [← hr]) hleft

/-- The loop does to the flat table what `Flat.shiftUp` says, unless it is interrupted. -/
theorem wp_insertShift (hA : A.Total) (ht : s.tables p = some t) (h : t.Ok) :
    wp (insertShift interrupt A p pos n)
      (fun _ s' => ∃ f, t.flat.shiftUp pos n = (.ok (), f) ∧ Left p s f s')
      (fun e s' => Interrupted interrupt e ∨ ∃ e' f, e = .table e' ∧ t.flat.shiftUp pos n = (.error e', f) ∧ Left p s f s')
      s := by
  induction n generalizing s t with
  | zero => exact ⟨t.flat, rfl, .refl ht h rfl⟩
  | succ n ih =>
    have hkey : Val.ofInt ((pos : Int) + n) = Val.ofNat (pos + n) := by rw [← Nat.cast_add, Val.ofInt_natCast]
    have hnext : Val.ofInt ((pos : Int) + n + 1) = Val.ofNat (pos + n + 1) := by
      rw [← Nat.cast_add, ← Nat.cast_succ, Val.ofInt_natCast]
    rw [insertShift, Flat.shiftUp, hkey, hnext, wp_bind]
    refine wp_pollInterrupt (fun s₁ hs₁ => ?_) fun n _ hn => .inl ⟨rfl, n, hn⟩
    have ht₁ : s₁.tables p = some t := by rw [hs₁, ht]
    rw [wp_bind, wp_getTableRaw ht₁, wp_bind, ← Table.get_flat h (Nat.le_succ _)]
    refine wp_setTableRaw hA ht₁ h (fun f s₂ hins hleft => ?_) fun e f s₂ hins hleft => ?_
    · rw [hins]
      obtain ⟨t₂, hok₂, rfl, hs₂⟩ := hleft
      have ht₂ : s₂.tables p = some t₂ := by rw [hs₂, Function.update_self]
      have hfrom : Left p s t₂.flat s₂ := ⟨t₂, hok₂, rfl, by rw [hs₂, hs₁]⟩
      refine wp_mono (ih ht₂ hok₂) ?_ ?_
      · rintro _ s₃ ⟨g, hg, hleft⟩
        exact ⟨g, hg, hfrom.trans hleft⟩
      · rintro e s₃ (hint | ⟨e', g, rfl, hg, hleft⟩)
        · exact .inl hint
        · exact .inr ⟨e', g, rfl, hg, hfrom.trans hleft⟩
    · rw [hins]
      obtain ⟨t₂, hok₂, hf, hs₂⟩ := hleft
      exact .inr ⟨e, f, rfl, rfl, t₂, hok₂, hf, by rw [hs₂, hs₁]⟩

/-- The loop does to the flat table what `Flat.shiftDown` says, unless it is interrupted. -/
theorem wp_removeShift (hA : A.Total) (ht : s.tables p = some t) (h : t.Ok) :
    wp (removeShift interrupt A p pos n)
      (fun pos' s' => pos' = (pos : Int) + n ∧ ∃ f, t.flat.shiftDown pos n = (.ok (), f) ∧ Left p s f s')
      (fun e s' => Interrupted interrupt e ∨ ∃ e' f, e = .table e' ∧ t.flat.shiftDown pos n = (.error e', f) ∧ Left p s f s')
      s := by
  induction n generalizing s t pos with
  | zero => exact ⟨(add_zero _).symm, t.flat, rfl, .refl ht h rfl⟩
  | succ n ih =>
    have hnext : ((pos : Int) + 1) = ((pos + 1 : Nat) : Int) := rfl
    rw [removeShift, Flat.shiftDown, hnext, Val.ofInt_natCast, Val.ofInt_natCast, wp_bind]
    refine wp_pollInterrupt (fun s₁ hs₁ => ?_) fun n _ hn => .inl ⟨rfl, n, hn⟩
    have ht₁ : s₁.tables p = some t := by rw [hs₁, ht]
    rw [wp_bind, wp_getTableRaw ht₁, wp_bind, ← Table.get_flat h (Nat.le_succ _)]
    refine wp_setTableRaw hA ht₁ h (fun f s₂ hins hleft => ?_) fun e f s₂ hins hleft => ?_
    · rw [hins]
      obtain ⟨t₂, hok₂, rfl, hs₂⟩ := hleft
      have ht₂ : s₂.tables p = some t₂ := by rw [hs₂, Function.update_self]
      have hfrom : Left p s t₂.flat s₂ := ⟨t₂, hok₂, rfl, by rw [hs₂, hs₁]⟩
      refine wp_mono (ih ht₂ hok₂) ?_ ?_
      · rintro pos' s₃ ⟨rfl, g, hg, hleft⟩
        refine ⟨?_, g, hg, hfrom.trans hleft⟩
        rw [Nat.cast_succ, Nat.cast_succ]
        omega
      · rintro e s₃ (hint | ⟨e', g, rfl, hg, hleft⟩)
        · exact .inl hint
        · exact .inr ⟨e', g, rfl, hg, hfrom.trans hleft⟩
    · rw [hins]
      obtain ⟨t₂, hok₂, hf, hs₂⟩ := hleft
      exact .inr ⟨e, f, rfl, rfl, t₂, hok₂, hf, by rw [hs₂, hs₁]⟩

end Steps

/-! ## Positions -/

/-- The position and the value that `table.insert` accepts for a sequence of a length. -/
def insertPos (args : List Val) (len : Nat) : Except LibError (Nat × Val) :=
  match args with
  | [_, value] => .ok (len + 1, value)
  | [_, _, value] =>
    match argInteger args 2 "insert" with
    | .error e => .error e
    | .ok pos =>
      if 1 ≤ pos ∧ pos ≤ (len : Int) + 1 then .ok (pos.toNat, value)
      else argumentError 2 "insert" .positionOutOfBounds
  | _ => .error (.wrongNumberOfArguments .insert)

/-- The position that `table.remove` accepts for a sequence of a length. -/
def removePos (args : List Val) (len : Nat) : Except LibError Nat :=
  match optInteger args 2 "remove" with
  | .error e => .error e
  | .ok none => .ok len
  | .ok (some pos) =>
    if 1 ≤ pos ∧ pos ≤ (len : Int) + 1 ∨ len = 0 ∧ pos = 0 then .ok pos.toNat
    else argumentError 2 "remove" .positionOutOfBounds

/-- What a function of the library returns that returns nothing. -/
def returnsNothing (r : Except TableError Unit × Flat) : Except LibError (List Val) × Flat :=
  ((r.1.mapError .table).map fun _ => [], r.2)

/-- What `table.insert` does to a flat table. -/
def insertFlat (f : Flat) (args : List Val) : Except LibError (List Val) × Flat :=
  match insertPos args (Contents.border ⟨f.arr, []⟩) with
  | .error e => (.error e, f)
  | .ok (pos, value) => returnsNothing (f.arrayInsert pos value)

/-- What `table.remove` does to a flat table. -/
def removeFlat (f : Flat) (args : List Val) : Except LibError (List Val) × Flat :=
  match removePos args (Contents.border ⟨f.arr, []⟩) with
  | .error e => (.error e, f)
  | .ok pos => (.ok [(f.arrayRemove pos).1], (f.arrayRemove pos).2)

theorem insertPos_bounds {args : List Val} {len pos : Nat} {value : Val}
    (h : insertPos args len = .ok (pos, value)) : 1 ≤ pos ∧ pos ≤ len + 1 := by
  unfold insertPos at h
  split at h
  · cases h
    omega
  · split at h
    · cases h
    · split at h
      · rename_i hpos
        cases h
        omega
      · cases h
  · cases h

theorem removePos_bounds {args : List Val} {len pos : Nat} (h : removePos args len = .ok pos) :
    (1 ≤ pos ∨ len = 0) ∧ pos ≤ len + 1 := by
  rw [removePos] at h
  split at h
  · cases h
  · cases h
    omega
  · split at h
    · rename_i hpos
      cases h
      omega
    · cases h

section Ends

variable {interrupt : Nat → Bool} {A : Allocator} {p : ObjectPtr} {s : LibState} {t : Table} {args : List Val}

/-- A function of the library does to the flat table of its operand what `q` says, unless it is stopped. -/
def Ends (stop : LibError → Prop) (p : ObjectPtr) (s : LibState) (q : Except LibError (List Val) × Flat)
    (m : Lib (List Val)) : Prop :=
  wp m (fun vs s' => q.1 = .ok vs ∧ Left p s q.2 s') (fun e s' => stop e ∨ q.1 = .error e ∧ Left p s q.2 s') s

theorem wp_tableLen (ht : s.tables p = some t) {Q : Nat → LibState → Prop} {E : LibError → LibState → Prop} :
    wp (tableLen p) Q E s = Q t.arrayLen s := by
  simp only [tableLen, wp_bind, wp_get, wp_demand ht, wp_pure]

theorem wp_sequenceLen (ht : s.tables p = some t) (h : t.Ok) {Q : Int → LibState → Prop}
    {E : LibError → LibState → Prop} : wp (sequenceLen p) Q E s = Q t.arrayLen s := by
  have hle : t.arrayLen ≤ maxArrayLen := by
    rw [Table.arrayLen_flat h.window]
    exact Flat.border_le.trans (Table.ok_iff.1 h).2.len_le
  have hmax : maxArrayLen < 2 ^ 63 := by decide
  rw [sequenceLen, wp_bind, wp_tableLen ht, wp_pure, Numeral.saturate_of_mem (by omega) (by omega)]

/-! ### In place -/

theorem ends_tableInsertAt {stop : LibError → Prop} {pos : Nat} {value : Val} (hA : A.Total) (ht : s.tables p = some t)
    (h : t.Ok) (h₁ : 1 ≤ pos) (h₂ : pos ≤ t.arrayLen + 1) :
    Ends stop p s (returnsNothing (t.flat.arrayInsert pos value))
      (tableInsertAt A p pos value >>= fun _ => return []) := by
  obtain ⟨t', he, hw, hf⟩ := (Table.arrayInsert_refines h h₁ h₂).of_total hA
  have hdoes := (Flat.arrayInsert_does (v := value) (Table.ok_iff.1 h).2 h₁
    (by rwa [Table.arrayLen_flat h.window] at h₂)).ok
  have hleft : Left p s (t.flat.arrayInsert pos value).2 (s.setTable p t') :=
    ⟨t', Table.ok_iff.2 ⟨hw, hf ▸ hdoes⟩, hf, rfl⟩
  rw [Ends, wp_bind]
  simp only [tableInsertAt, wp_bind, wp_get, wp_demand ht]
  rw [if_neg (not_not.2 ⟨h₁, h₂⟩)]
  simp only [wp_bind, wp_demand he, wp_modify, wp_liftExcept, wp_pure, returnsNothing]
  cases (t.flat.arrayInsert pos value).1 with
  | ok u => exact ⟨fun _ _ => ⟨rfl, hleft⟩, by rintro _ ⟨⟩⟩
  | error e => exact ⟨by rintro _ ⟨⟩, fun e' he' => .inr ⟨congrArg _ (Except.error.inj he'), hleft⟩⟩

theorem wp_tableRemoveAt {pos : Nat} (hA : A.Total) (ht : s.tables p = some t) (h : t.Ok)
    (h₁ : 1 ≤ pos ∨ t.arrayLen = 0) (h₂ : pos ≤ t.arrayLen + 1) :
    wp (tableRemoveAt A p pos)
      (fun v s' => v = (t.flat.arrayRemove pos).1 ∧ Left p s (t.flat.arrayRemove pos).2 s') (fun _ _ => False) s := by
  obtain ⟨t', he, hw, hf⟩ := (@Table.arrayRemove_refines _ _ pos h).of_total hA
  have hleft : Left p s (t.flat.arrayRemove pos).2 (s.setTable p t') :=
    ⟨t', Table.ok_iff.2 ⟨hw, hf ▸ (Flat.arrayRemove_spec (Table.ok_iff.1 h).2 pos).1⟩, hf, rfl⟩
  simp only [tableRemoveAt, wp_bind, wp_get, wp_demand ht]
  rw [if_neg (by omega)]
  simp only [wp_bind, wp_demand he, wp_modify, wp_liftExcept]
  exact ⟨fun v hv => ⟨(Except.ok.inj hv).symm, hleft⟩, by rintro _ ⟨⟩⟩

theorem ends_insertInPlace (hA : A.Total) (ht : s.tables p = some t) (h : t.Ok) (args : List Val) :
    Ends (fun _ => False) p s (insertFlat t.flat args) (insertInPlace A p args) := by
  have hlen := Table.arrayLen_flat h.window
  have hle : t.arrayLen < 2 ^ 63 := by
    have : t.arrayLen ≤ maxArrayLen := hlen ▸ Flat.border_le.trans (Table.ok_iff.1 h).2.len_le
    exact this.trans_lt (by decide)
  match args with
  | [_, value] =>
    simp only [Ends, insertFlat, ← hlen, insertPos, insertInPlace]
    rw [wp_bind, wp_tableLen ht]
    exact ends_tableInsertAt hA ht h (by omega) le_rfl
  | [first, second, value] =>
    simp only [Ends, insertFlat, ← hlen, insertPos, insertInPlace]
    rw [wp_bind, wp_liftExcept]
    refine ⟨fun pos hpos => ?_, fun e he => ?_⟩
    · rw [wp_bind, wp_tableLen ht, wp_bind, wp_require hle]
      simp only [hpos]
      by_cases hin : 1 ≤ pos ∧ pos ≤ (t.arrayLen : Int) + 1
      · rw [if_neg (not_not.2 hin), if_pos hin]
        exact ends_tableInsertAt hA ht h (by omega) (by omega)
      · rw [if_pos hin, if_neg hin]
        exact .inr ⟨rfl, .refl ht h rfl⟩
    · simp only [he]
      exact .inr ⟨trivial, .refl ht h rfl⟩
  | [] | [_] | _ :: _ :: _ :: _ :: _ =>
    simp only [Ends, insertFlat, insertPos, insertInPlace]
    exact .inr ⟨rfl, .refl ht h rfl⟩

theorem ends_removeInPlace (hA : A.Total) (ht : s.tables p = some t) (h : t.Ok) (args : List Val) :
    Ends (fun _ => False) p s (removeFlat t.flat args) (removeInPlace A p args) := by
  have hlen := Table.arrayLen_flat h.window
  have hle : t.arrayLen < 2 ^ 63 := by
    have : t.arrayLen ≤ maxArrayLen := hlen ▸ Flat.border_le.trans (Table.ok_iff.1 h).2.len_le
    exact this.trans_lt (by decide)
  have hat : ∀ pos, (1 ≤ pos ∨ t.arrayLen = 0) → pos ≤ t.arrayLen + 1 →
      Ends (fun _ => False) p s (.ok [(t.flat.arrayRemove pos).1], (t.flat.arrayRemove pos).2)
        (tableRemoveAt A p pos >>= fun removed => return [removed]) := by
    intro pos h₁ h₂
    rw [Ends, wp_bind]
    refine wp_mono (wp_tableRemoveAt hA ht h h₁ h₂) ?_ fun _ _ => False.elim
    rintro v s' ⟨rfl, hleft⟩
    exact ⟨rfl, hleft⟩
  unfold removeInPlace removeFlat removePos
  rw [← hlen, Ends, wp_bind, wp_tableLen ht, wp_bind, wp_require hle, wp_bind, wp_liftExcept]
  refine ⟨fun arg harg => ?_, fun e he => ?_⟩
  · rw [harg]
    cases arg with
    | none => exact hat _ (by omega) (by omega)
    | some pos =>
      dsimp only
      by_cases hin : 1 ≤ pos ∧ pos ≤ (t.arrayLen : Int) + 1 ∨ t.arrayLen = 0 ∧ pos = 0
      · have hvalid : (if t.arrayLen = 0 then decide (pos = 0 ∨ pos = 1)
            else decide (1 ≤ pos ∧ pos ≤ (t.arrayLen : Int) + 1)) = true := by
          split
          · exact decide_eq_true (by omega)
          · exact decide_eq_true (by omega)
        rw [hvalid, if_pos hin]
        exact hat _ (by omega) (by omega)
      · have hvalid : (if t.arrayLen = 0 then decide (pos = 0 ∨ pos = 1)
            else decide (1 ≤ pos ∧ pos ≤ (t.arrayLen : Int) + 1)) = false := by
          split
          · exact decide_eq_false (by omega)
          · exact decide_eq_false (by omega)
        rw [hvalid, if_neg hin]
        exact .inr ⟨rfl, .refl ht h rfl⟩
  · rw [he]
    exact .inr ⟨rfl, .refl ht h rfl⟩

/-! ### Key by key -/

theorem arrayLen_le (h : t.Ok) : t.arrayLen ≤ maxArrayLen := by
  rw [Table.arrayLen_flat h.window]
  exact Flat.border_le.trans (Table.ok_iff.1 h).2.len_le

/-- What can stop a loop: the interrupt, or too many keys to shift. -/
def Stopped (interrupt : Nat → Bool) (function : LibraryFunction) (far : Prop) (e : LibError) : Prop :=
  Interrupted interrupt e ∨ e = .sequenceShiftTooLarge function ∧ far

/-- The checks of a shift pass, unless it is too far. -/
theorem ends_checkShift {function : LibraryFunction} {pos len last : Nat} {m : Lib (List Val)}
    {stop : LibError → Prop} {q : Except LibError (List Val) × Flat} (hle : pos ≤ last) (hlast : last ≤ maxArrayLen + 1)
    (hlen : len ≤ maxArrayLen + 1) (h : Ends stop p s q m)
    (hfar : TABLE_SORT_MAX_LEN ≤ len - pos → stop (.sequenceShiftTooLarge function)) :
    Ends stop p s q (do
      checkSequenceKeys pos last function
      checkShiftDistance (saturate ((len : Int) - pos)) function
      m) := by
  have hmax : (maxArrayLen : Int) + 1 ≤ MAX_EXACT_INTEGER := by decide
  have hmax' : MAX_EXACT_INTEGER < 2 ^ 63 := by decide
  have hpos : (0 : Int) < TABLE_SORT_MAX_LEN := by decide
  rw [Ends, wp_bind, checkSequenceKeys,
    checkIntegerKeyRange_of_le (by rw [MAX_EXACT_INTEGER]; omega) (by omega) (by omega), if_pos rfl, wp_pure, wp_bind,
    checkShiftDistance, Numeral.saturate_of_mem (by omega) (by omega)]
  exact wp_ite (fun hlarge => .inl (hfar (by omega))) fun _ => h

theorem ends_insertLoop (hA : A.Total) (ht : s.tables p = some t) (h : t.Ok) {pos : Nat} {value : Val} (h₁ : 1 ≤ pos)
    (h₂ : pos ≤ t.arrayLen + 1) {stop : LibError → Prop} (hstop : ∀ e, Interrupted interrupt e → stop e) :
    Ends stop p s (returnsNothing (t.flat.arrayInsert pos value)) (do
      insertShift interrupt A p pos (t.arrayLen + 1 - pos)
      setTableRaw A p (Val.ofInt pos) value
      return []) := by
  rw [← Flat.insertLoop_eq (Table.ok_iff.1 h).2 (Table.arrayLen_flat h.window).symm h₁ h₂, Flat.insertLoop, Ends, wp_bind]
  refine wp_mono (wp_insertShift hA ht h) ?_ ?_
  · rintro _ s₁ ⟨f, hf, t₁, hok₁, rfl, hs₁⟩
    have ht₁ : s₁.tables p = some t₁ := by rw [hs₁, Function.update_self]
    have hfrom : Left p s t₁.flat s₁ := ⟨t₁, hok₁, rfl, hs₁⟩
    rw [hf, Val.ofInt_natCast, wp_bind]
    refine wp_setTableRaw hA ht₁ hok₁ (fun g s₂ hins hleft => ?_) fun e g s₂ hins hleft => ?_
    · simp only [hins, returnsNothing]
      exact ⟨rfl, hfrom.trans hleft⟩
    · simp only [hins, returnsNothing]
      exact .inr ⟨rfl, hfrom.trans hleft⟩
  · rintro e s₁ (hint | ⟨e', f, rfl, hf, hleft⟩)
    · exact .inl (hstop e hint)
    · rw [hf]
      exact .inr ⟨rfl, hleft⟩

/-- A key that is too far from the end is not inserted at. -/
def InsertsFar (args : List Val) (len : Nat) : Prop :=
  ∃ pos value, insertPos args len = .ok (pos, value) ∧ TABLE_SORT_MAX_LEN ≤ len + 1 - pos

def RemovesFar (args : List Val) (len : Nat) : Prop :=
  ∃ pos, removePos args len = .ok pos ∧ TABLE_SORT_MAX_LEN ≤ len - pos

theorem ends_insertThroughMetamethods (hA : A.Total) (ht : s.tables p = some t) (h : t.Ok) (args : List Val) :
    Ends (Stopped interrupt .insert (InsertsFar args t.arrayLen)) p s (insertFlat t.flat args)
      (insertThroughMetamethods interrupt A p args) := by
  have hlen := Table.arrayLen_flat h.window
  have hle := arrayLen_le h
  have hmax : maxArrayLen + 1 < 2 ^ 53 := by decide
  have hwrap : wrap ((t.arrayLen : Int) + 1) = ((t.arrayLen + 1 : Nat) : Int) := by
    rw [wrap, Nat.cast_succ]
    omega
  -- What is done with a position that was accepted.
  have hat : ∀ {pos value}, insertPos args t.arrayLen = .ok (pos, value) →
      Ends (Stopped interrupt .insert (InsertsFar args t.arrayLen)) p s (returnsNothing (t.flat.arrayInsert pos value)) (do
        checkSequenceKeys pos (max ((t.arrayLen + 1 : Nat) : Int) pos) .insert
        checkShiftDistance (saturate (((t.arrayLen + 1 : Nat) : Int) - pos)) .insert
        insertShift interrupt A p pos (((t.arrayLen + 1 : Nat) : Int) - pos).toNat
        setTableRaw A p (Val.ofInt pos) value
        return []) := by
    intro pos value hpos
    obtain ⟨h₁, h₂⟩ := insertPos_bounds hpos
    have hmaxpos : max ((t.arrayLen + 1 : Nat) : Int) pos = ((t.arrayLen + 1 : Nat) : Int) := max_eq_left (by omega)
    have hn : (((t.arrayLen + 1 : Nat) : Int) - pos).toNat = t.arrayLen + 1 - pos := by omega
    rw [hmaxpos, hn]
    exact ends_checkShift h₂ (by omega) (by omega) (ends_insertLoop hA ht h h₁ h₂ fun _ => .inl) fun hfar =>
      .inr ⟨rfl, pos, value, hpos, hfar⟩
  rw [Ends, insertThroughMetamethods, wp_bind, wp_sequenceLen ht h, hwrap]
  rcases args with _ | ⟨first, _ | ⟨second, _ | ⟨value, _ | ⟨fourth, args⟩⟩⟩⟩
  · exact .inr ⟨rfl, .refl ht h rfl⟩
  · exact .inr ⟨rfl, .refl ht h rfl⟩
  · have hpos : insertPos [first, second] t.arrayLen = .ok (t.arrayLen + 1, second) := rfl
    have := hat hpos
    simp only [insertFlat, ← hlen, hpos]
    exact this
  · dsimp only
    rw [wp_bind, wp_liftExcept]
    refine ⟨fun pos hpos => ?_, fun e he => ?_⟩
    · have hcast : castUnsigned ((t.arrayLen + 1 : Nat) : Int) = ((t.arrayLen + 1 : Nat) : Int) := by
        rw [castUnsigned]
        omega
      obtain ⟨hlo, hhi⟩ := argInteger_range hpos
      rw [hcast, castUnsigned_wrap_pred hlo hhi]
      by_cases hin : 1 ≤ pos ∧ pos ≤ (t.arrayLen : Int) + 1
      · obtain ⟨n, rfl⟩ : ∃ n : Nat, pos = n := ⟨pos.toNat, by omega⟩
        have haccept : insertPos [first, second, value] t.arrayLen = .ok (n, value) := by
          simp only [insertPos, hpos]
          rw [if_pos hin, Int.toNat_natCast]
        have := hat haccept
        rw [if_pos hin.1, if_neg (by omega)]
        simp only [insertFlat, ← hlen, haccept]
        exact this
      · have hreject : insertPos [first, second, value] t.arrayLen = argumentError 2 "insert" .positionOutOfBounds := by
          simp only [insertPos, hpos]
          rw [if_neg hin]
        rw [if_pos (by split <;> omega)]
        simp only [insertFlat, ← hlen, hreject]
        exact .inr ⟨rfl, .refl ht h rfl⟩
    · have hreject : insertPos [first, second, value] t.arrayLen = .error e := by simp only [insertPos, he]
      simp only [insertFlat, ← hlen, hreject]
      exact .inr ⟨trivial, .refl ht h rfl⟩
  · exact .inr ⟨rfl, .refl ht h rfl⟩

theorem ends_removeLoop (hA : A.Total) (ht : s.tables p = some t) (h : t.Ok) {pos : Nat} (h₁ : 1 ≤ pos ∨ t.arrayLen = 0)
    (h₂ : pos ≤ t.arrayLen + 1) {stop : LibError → Prop} (hstop : ∀ e, Interrupted interrupt e → stop e) :
    Ends stop p s (.ok [(t.flat.arrayRemove pos).1], (t.flat.arrayRemove pos).2) (do
      let removed ← getTableRaw p (Val.ofInt pos)
      let pos ← removeShift interrupt A p pos (t.arrayLen - pos)
      setTableRaw A p (Val.ofInt pos) .nil
      return [removed]) := by
  obtain ⟨hloop, hremoved⟩ := Flat.removeLoop_eq (Table.ok_iff.1 h).2 (Table.arrayLen_flat h.window).symm h₁ h₂
  rw [Flat.removeLoop] at hloop
  rw [Ends, wp_bind, wp_getTableRaw ht, Val.ofInt_natCast, Table.get_flat h (Nat.le_succ _), ← hremoved, wp_bind]
  refine wp_mono (wp_removeShift hA ht h) ?_ ?_
  · rintro _ s₁ ⟨rfl, f, hf, t₁, hok₁, rfl, hs₁⟩
    have ht₁ : s₁.tables p = some t₁ := by rw [hs₁, Function.update_self]
    have hfrom : Left p s t₁.flat s₁ := ⟨t₁, hok₁, rfl, hs₁⟩
    have hkey : Val.ofInt ((pos : Int) + ((t.arrayLen - pos : Nat) : Int)) = Val.ofNat (pos + (t.arrayLen - pos)) := by
      rw [← Nat.cast_add, Val.ofInt_natCast]
    simp only [hf] at hloop
    rw [hkey, wp_bind]
    refine wp_setTableRaw hA ht₁ hok₁ (fun g s₂ hins hleft => ?_) fun e g s₂ hins _ => ?_
    · rw [hins] at hloop
      obtain rfl : g = (t.flat.arrayRemove pos).2 := (Prod.mk.inj hloop).2
      exact ⟨rfl, hfrom.trans hleft⟩
    · rw [hins] at hloop
      cases (Prod.mk.inj hloop).1
  · rintro e s₁ (hint | ⟨e', f, rfl, hf, -⟩)
    · exact .inl (hstop e hint)
    · simp only [hf] at hloop
      cases (Prod.mk.inj hloop).1

theorem ends_removeThroughMetamethods (hA : A.Total) (ht : s.tables p = some t) (h : t.Ok) (args : List Val) :
    Ends (Stopped interrupt .remove (RemovesFar args t.arrayLen)) p s (removeFlat t.flat args)
      (removeThroughMetamethods interrupt A p args) := by
  have hlen := Table.arrayLen_flat h.window
  have hle := arrayLen_le h
  have hmax : maxArrayLen + 1 < 2 ^ 53 := by decide
  -- What is done with a position that was accepted.
  have hat : ∀ {pos}, removePos args t.arrayLen = .ok pos →
      Ends (Stopped interrupt .remove (RemovesFar args t.arrayLen)) p s
        (.ok [(t.flat.arrayRemove pos).1], (t.flat.arrayRemove pos).2) (do
          checkSequenceKeys pos (max (t.arrayLen : Int) pos) .remove
          checkShiftDistance (saturate ((t.arrayLen : Int) - pos)) .remove
          let removed ← getTableRaw p (Val.ofInt pos)
          let pos ← removeShift interrupt A p pos ((t.arrayLen : Int) - pos).toNat
          setTableRaw A p (Val.ofInt pos) .nil
          return [removed]) := by
    intro pos hpos
    obtain ⟨h₁, h₂⟩ := removePos_bounds hpos
    have hmaxpos : max (t.arrayLen : Int) pos = ((max t.arrayLen pos : Nat) : Int) := by omega
    have hn : ((t.arrayLen : Int) - pos).toNat = t.arrayLen - pos := by omega
    rw [hmaxpos, hn]
    exact ends_checkShift (by omega) (by omega) (by omega) (ends_removeLoop hA ht h h₁ h₂ fun _ => .inl) fun hfar =>
      .inr ⟨rfl, pos, hpos, hfar⟩
  rw [Ends, removeThroughMetamethods, wp_bind, wp_sequenceLen ht h, wp_bind, wp_liftExcept]
  refine ⟨fun arg harg => ?_, fun e he => ?_⟩
  · have hcast : castUnsigned (t.arrayLen : Int) = t.arrayLen := by
      rw [castUnsigned]
      omega
    obtain ⟨hlo, hhi⟩ : -2 ^ 63 ≤ arg.getD (t.arrayLen : Int) ∧ arg.getD (t.arrayLen : Int) < 2 ^ 63 := by
      cases arg with
      | none =>
        rw [Option.getD_none]
        omega
      | some pos => exact optInteger_range harg
    dsimp only
    rw [hcast, castUnsigned_wrap_pred hlo hhi]
    -- The positions that are accepted.
    by_cases hin : 1 ≤ arg.getD (t.arrayLen : Int) ∧ arg.getD (t.arrayLen : Int) ≤ (t.arrayLen : Int) + 1 ∨
        t.arrayLen = 0 ∧ arg.getD (t.arrayLen : Int) = 0
    · obtain ⟨n, hn⟩ : ∃ n : Nat, arg.getD (t.arrayLen : Int) = n := ⟨(arg.getD (t.arrayLen : Int)).toNat, by omega⟩
      have haccept : removePos args t.arrayLen = .ok n := by
        rw [removePos, harg]
        cases arg with
        | none =>
          obtain rfl : t.arrayLen = n := Int.natCast_inj.1 hn
          rfl
        | some pos =>
          obtain rfl : pos = n := hn
          rw [Option.getD_some] at hin
          simp only
          rw [if_pos hin, Int.toNat_natCast]
      rw [hn] at hin ⊢
      have := hat haccept
      rw [if_neg (by split <;> omega)]
      simp only [removeFlat, ← hlen, haccept]
      exact this
    · have hreject : removePos args t.arrayLen = argumentError 2 "remove" .positionOutOfBounds := by
        rw [removePos, harg]
        cases arg with
        | none =>
          rw [Option.getD_none] at hin
          omega
        | some pos =>
          rw [Option.getD_some] at hin
          simp only
          rw [if_neg hin]
      rw [if_pos (by split <;> omega)]
      simp only [removeFlat, ← hlen, hreject]
      exact .inr ⟨rfl, .refl ht h rfl⟩
  · have hreject : removePos args t.arrayLen = .error e := by rw [removePos, he]
    simp only [removeFlat, ← hlen, hreject]
    exact .inr ⟨trivial, .refl ht h rfl⟩

end Ends

/-! ## The two paths -/

/-- The table agrees with the table in another state, and the other tables are the same. -/
def SameTables (p : ObjectPtr) (s s' : LibState) : Prop :=
  (∃ t t', s.tables p = some t ∧ s'.tables p = some t' ∧ Table.Agree t t') ∧ ∀ q, q ≠ p → s.tables q = s'.tables q

/-- The second of two functions ends as the first one, or it is stopped. -/
def SameEnd (stop : LibError → Prop) (p : ObjectPtr) (s : LibState) (m m' : Lib (List Val)) : Prop :=
  match m s, m' s with
  | .ok vs s₁, .ok vs' s₂ => vs = vs' ∧ SameTables p s₁ s₂
  | .ok _ _, .fail e' _ => stop e'
  | .fail e s₁, .fail e' s₂ => stop e' ∨ e = e' ∧ SameTables p s₁ s₂
  | _, _ => False

theorem Left.sameTables {p : ObjectPtr} {s s₁ s₂ : LibState} {f : Flat} (h : Left p s f s₁) (h' : Left p s f s₂) :
    SameTables p s₁ s₂ := by
  obtain ⟨t₁, hok₁, hf₁, hs₁⟩ := h
  obtain ⟨t₂, hok₂, hf₂, hs₂⟩ := h'
  refine ⟨⟨t₁, t₂, by rw [hs₁, Function.update_self], by rw [hs₂, Function.update_self],
    Table.SameFlat.agree ⟨hok₁, hok₂, hf₁.trans hf₂.symm⟩⟩, fun q hq => ?_⟩
  rw [hs₁, hs₂, Function.update_of_ne hq, Function.update_of_ne hq]

/-- Functions that do the same to a flat table end alike. -/
theorem Ends.sameEnd {stop : LibError → Prop} {p : ObjectPtr} {s : LibState} {q : Except LibError (List Val) × Flat}
    {m m' : Lib (List Val)} (h : Ends (fun _ => False) p s q m) (h' : Ends stop p s q m') (hm : Settles m)
    (hm' : Settles m') : SameEnd stop p s m m' := by
  rw [Ends, wp] at h h'
  rw [SameEnd]
  cases hr : m s with
  | ok vs s₁ =>
    rw [hr] at h
    obtain ⟨hq, hleft⟩ := h
    cases hr' : m' s with
    | ok vs' s₂ =>
      rw [hr'] at h'
      exact ⟨Except.ok.inj (hq.symm.trans h'.1), hleft.sameTables h'.2⟩
    | fail e' s₂ =>
      rw [hr'] at h'
      rcases h' with hstop | ⟨hq', -⟩
      · exact hstop
      · cases hq.symm.trans hq'
    | panic => rw [hr'] at h'; exact h'.elim
    | timeout => exact absurd hr' (hm' s)
  | fail e s₁ =>
    rw [hr] at h
    obtain ⟨hq, hleft⟩ := h.resolve_left id
    cases hr' : m' s with
    | ok vs' s₂ =>
      rw [hr'] at h'
      cases hq.symm.trans h'.1
    | fail e' s₂ =>
      rw [hr'] at h'
      rcases h' with hstop | ⟨hq', hleft'⟩
      · exact .inl hstop
      · exact .inr ⟨Except.error.inj (hq.symm.trans hq'), hleft.sameTables hleft'⟩
    | panic => rw [hr'] at h'; exact h'.elim
    | timeout => exact absurd hr' (hm' s)
  | panic => rw [hr] at h; exact h.elim
  | timeout => exact absurd hr (hm s)

/-! ### Every function ends -/

section Settles

variable {interrupt : Nat → Bool} {A : Allocator} {p : ObjectPtr}

theorem settles_tableLen : Settles (tableLen p) :=
  settles_get.bind fun _ => settles_demand.bind fun _ => settles_pure

theorem settles_tableInsertAt {pos : Nat} {value : Val} : Settles (tableInsertAt A p pos value) :=
  settles_get.bind fun _ => settles_demand.bind fun _ => Settles.ite settles_fail
    (settles_demand.bind fun _ => settles_modify.bind fun _ => settles_liftExcept)

theorem settles_tableRemoveAt {pos : Nat} : Settles (tableRemoveAt A p pos) :=
  settles_get.bind fun _ => settles_demand.bind fun _ => Settles.ite settles_fail
    (settles_demand.bind fun _ => settles_modify.bind fun _ => settles_liftExcept)

theorem settles_insertShift {pos : Int} {n : Nat} : Settles (insertShift interrupt A p pos n) := by
  induction n with
  | zero => exact settles_pure
  | succ n ih =>
    exact settles_pollInterrupt.bind fun _ => settles_getTableRaw.bind fun _ => settles_setTableRaw.bind fun _ => ih

theorem settles_removeShift {pos : Int} {n : Nat} : Settles (removeShift interrupt A p pos n) := by
  induction n generalizing pos with
  | zero => exact settles_pure
  | succ n ih =>
    exact settles_pollInterrupt.bind fun _ => settles_getTableRaw.bind fun _ => settles_setTableRaw.bind fun _ => ih

theorem settles_insertInPlace {args : List Val} : Settles (insertInPlace A p args) := by
  match args with
  | [_, _] => exact settles_tableLen.bind fun _ => settles_tableInsertAt.bind fun _ => settles_pure
  | [_, _, _] =>
    exact settles_liftExcept.bind fun _ => settles_tableLen.bind fun _ => settles_require.bind fun _ =>
      Settles.ite settles_liftExcept (settles_tableInsertAt.bind fun _ => settles_pure)
  | [] | [_] | _ :: _ :: _ :: _ :: _ => exact settles_fail

theorem settles_removeInPlace {args : List Val} : Settles (removeInPlace A p args) := by
  refine settles_tableLen.bind fun _ => settles_require.bind fun _ => settles_liftExcept.bind fun pos => ?_
  cases pos with
  | none => exact settles_tableRemoveAt.bind fun _ => settles_pure
  | some pos => exact Settles.ite settles_liftExcept (settles_tableRemoveAt.bind fun _ => settles_pure)

theorem settles_insertThroughMetamethods {args : List Val} :
    Settles (insertThroughMetamethods interrupt A p args) := by
  have hinsert : ∀ (first pos : Int) (value : Val), Settles (do
      checkSequenceKeys pos (max first pos) .insert
      checkShiftDistance (saturate (first - pos)) .insert
      insertShift interrupt A p pos (first - pos).toNat
      setTableRaw A p (Val.ofInt pos) value
      return ([] : List Val)) := fun _ _ _ =>
    (Settles.ite settles_pure settles_fail).bind fun _ => (Settles.ite settles_fail settles_pure).bind fun _ =>
      settles_insertShift.bind fun _ => settles_setTableRaw.bind fun _ => settles_pure
  refine (settles_tableLen.bind fun _ => settles_pure).bind fun len => ?_
  match args with
  | [_, _] => exact hinsert _ _ _
  | [_, _, _] => exact settles_liftExcept.bind fun _ => Settles.ite settles_liftExcept (hinsert _ _ _)
  | [] | [_] | _ :: _ :: _ :: _ :: _ => exact settles_fail

theorem settles_removeThroughMetamethods {args : List Val} :
    Settles (removeThroughMetamethods interrupt A p args) :=
  (settles_tableLen.bind fun _ => settles_pure).bind fun _ => settles_liftExcept.bind fun _ =>
    Settles.ite settles_liftExcept <| (Settles.ite settles_pure settles_fail).bind fun _ =>
      (Settles.ite settles_fail settles_pure).bind fun _ => settles_getTableRaw.bind fun _ =>
        settles_removeShift.bind fun _ => settles_setTableRaw.bind fun _ => settles_pure

end Settles

/-- Shifting in place and shifting key by key accept the same positions, return the same and leave tables that
    agree, while no storage is refused. Only the loop can be interrupted, and it refuses to go too far. -/
theorem shifts_agree (interrupt : Nat → Bool) {A B : Allocator} (hA : A.Total) (hB : B.Total) {p : ObjectPtr}
    {s : LibState} {t : Table} (ht : s.tables p = some t) (h : t.Ok) (args : List Val) :
    SameEnd (Stopped interrupt .insert (InsertsFar args t.arrayLen)) p s (insertInPlace A p args)
        (insertThroughMetamethods interrupt B p args) ∧
      SameEnd (Stopped interrupt .remove (RemovesFar args t.arrayLen)) p s (removeInPlace A p args)
        (removeThroughMetamethods interrupt B p args) :=
  ⟨(ends_insertInPlace hA ht h args).sameEnd (ends_insertThroughMetamethods hB ht h args) settles_insertInPlace
      settles_insertThroughMetamethods,
    (ends_removeInPlace hA ht h args).sameEnd (ends_removeThroughMetamethods hB ht h args) settles_removeInPlace
      settles_removeThroughMetamethods⟩

/-- A table with one value, which is all that is stored of its array. -/
def lonely (len : Nat) : Table where
  array := [.bool true]
  cap := 1
  base := len - 1
  vlen := len
  lead := 0
  arrayLive := 1
  storage := .inline []
  metatable := none
  version := 1
  deadCount := 0

/-- Shifting too far is refused by the loop alone, and when storage is refused in the middle of the loop the
    values stay shifted. -/
theorem shifts_differ :
    (∃ t s₁ s₂, t.Reachable ∧
      insertInPlace .exact ⟨0, 0⟩ [.obj ⟨0, 0⟩, .ofNat 1, .nil] (only ⟨0, 0⟩ t) = .ok [] s₁ ∧
      insertThroughMetamethods (fun _ => false) .exact ⟨0, 0⟩ [.obj ⟨0, 0⟩, .ofNat 1, .nil] (only ⟨0, 0⟩ t) =
        .fail (.sequenceShiftTooLarge .insert) s₂) ∧
    ∃ A t s₁ s₂, t.Reachable ∧
      insertInPlace A ⟨0, 0⟩ [.obj ⟨0, 0⟩, .ofNat 1, .bool true] (only ⟨0, 0⟩ t) =
        .fail (.table .growthFailed) s₁ ∧
      insertThroughMetamethods (fun _ => false) A ⟨0, 0⟩ [.obj ⟨0, 0⟩, .ofNat 1, .bool true] (only ⟨0, 0⟩ t) =
        .fail (.table .growthFailed) s₂ ∧
      (s₁.tables ⟨0, 0⟩).map (·.get (.ofNat 6)) ≠ (s₂.tables ⟨0, 0⟩).map (·.get (.ofNat 6)) := by
  have h₀ : Table.Reachable _ := .withCapacity 0
  refine ⟨?_, ?_⟩
  · have h₁ : Table.Reachable (lonely (2 ^ 31)) :=
      .apply .exact (.rebuildFromSnapshot (2 ^ 31) 1 [(.ofNat (2 ^ 31), .bool true)]) h₀ .nil rfl
    exact ⟨_, _, _, h₁, rfl, rfl⟩
  · have h₁ : Table.Reachable (lonely 6) :=
      .apply .exact (.rebuildFromSnapshot 6 1 [(.ofNat 6, .bool true)]) h₀ .nil rfl
    exact ⟨⟨fun len _ additional => if len + additional ≤ 2 then some (len + additional) else none, fun h => by
      split at h <;> cases h; exact le_rfl⟩, _, _, _, h₁, rfl, rfl, by decide⟩

/-- A value is inserted before the value of a table. -/
theorem shifts_agree_lonely :
    SameEnd (Stopped (fun _ => false) .insert (InsertsFar [.obj ⟨0, 0⟩, .ofNat 1, .nil] (lonely 1).arrayLen)) ⟨0, 0⟩
        (only ⟨0, 0⟩ (lonely 1)) (insertInPlace .exact ⟨0, 0⟩ [.obj ⟨0, 0⟩, .ofNat 1, .nil])
        (insertThroughMetamethods (fun _ => false) .exact ⟨0, 0⟩ [.obj ⟨0, 0⟩, .ofNat 1, .nil]) ∧
      SameEnd (Stopped (fun _ => false) .remove (RemovesFar [.obj ⟨0, 0⟩, .ofNat 1, .nil] (lonely 1).arrayLen)) ⟨0, 0⟩
        (only ⟨0, 0⟩ (lonely 1)) (removeInPlace .exact ⟨0, 0⟩ [.obj ⟨0, 0⟩, .ofNat 1, .nil])
        (removeThroughMetamethods (fun _ => false) .exact ⟨0, 0⟩ [.obj ⟨0, 0⟩, .ofNat 1, .nil]) :=
  have hreach : Table.Reachable (lonely 1) :=
    .apply .exact (.rebuildFromSnapshot 1 1 [(.ofNat 1, .bool true)]) (.withCapacity 0) .nil rfl
  shifts_agree (fun _ => false) (fun _ _ _ => rfl) (fun _ _ _ => rfl) (s := only ⟨0, 0⟩ (lonely 1)) rfl hreach.ok _

end Dellingr.TableLib
