import Dellingr.Lib.Binary64

/-!
# Values and table keys

The values of the virtual machine, their equality, and the rule that decides
which of them may key a table. The equality is that of the source: numbers are
compared as doubles, so a NaN is not equal to itself and the two zeros are
equal, and every reference is compared by its handle.

A table key is validated and normalized by one rule (`normalizeTableKey`): two
valid keys are equal exactly when their normal forms are (`eq_iff_tableKey`).
-/

namespace Dellingr

/-- The handle of an interned string: a slot and its generation. -/
structure StringPtr where
  slot : Nat
  generation : Nat
  deriving DecidableEq, Repr

/-- The handle of a heap object: a slot and its generation. -/
structure ObjectPtr where
  slot : Nat
  generation : Nat
  deriving DecidableEq, Repr

/-- An entry of the table of Rust functions. -/
structure RustFnId where
  index : Nat
  deriving DecidableEq, Repr

/-- The values. -/
inductive Val
  | nil
  | bool (b : Bool)
  | num (n : F64)
  | str (s : StringPtr)
  | rustFn (f : RustFnId)
  | obj (o : ObjectPtr)
  deriving DecidableEq, Repr

instance : Inhabited Val := ⟨.nil⟩

namespace Val

/-- The equality of values. -/
def eq : Val → Val → Bool
  | nil, nil => true
  | bool a, bool b => a == b
  | num a, num b => a.feq b
  | rustFn a, rustFn b => a == b
  | obj a, obj b => a == b
  | str a, str b => a == b
  | _, _ => false

/-- Whether a value is not nil. -/
def isLive (v : Val) : Bool := v != .nil

/-- One for a live value, zero for nil: what it adds to a count of live slots. -/
def liveBit (v : Val) : Nat := if v.isLive then 1 else 0

/-- The number `n`, as a value. -/
def ofNat (n : Nat) : Val := .num (F64.ofNat n)

/-- The natural number a value is equal to, if it is one. -/
def toNat? : Val → Option Nat
  | num n => n.exactNat
  | _ => none

/-- The zero-based slot of a key in an array with the keys `1..=len`. -/
def slotBelow (key : Val) (len : Nat) : Option Nat :=
  match key.toNat? with
  | some (n + 1) => if n < len then some n else none
  | _ => none

@[simp] theorem isLive_nil : isLive .nil = false := rfl

theorem isLive_iff {v : Val} : v.isLive = true ↔ v ≠ .nil := by simp [isLive]

theorem isLive_eq_false {v : Val} : v.isLive = false ↔ v = .nil := by simp [isLive]

end Val

/-! ## Table keys -/

/-- The key forms rejected before hashing or equality is used. -/
inductive InvalidTableKey
  | nil
  | nan
  deriving DecidableEq, Repr

/-- A table key before applying the canonical numeric equality rule. -/
inductive TableKeyInput (S O F : Type)
  | nil
  | bool (b : Bool)
  | number (n : F64)
  | string (s : S)
  | object (o : O)
  | rustFn (f : F)

/-- A table key with negative zero canonicalized and invalid keys removed. -/
inductive NormalizedTableKey (S O F : Type)
  | bool (b : Bool)
  | number (bits : BitVec 64)
  | string (s : S)
  | object (o : O)
  | rustFn (f : F)
  deriving DecidableEq, Repr

/-- The common validity and equality rule of table keys. -/
def normalizeTableKey {S O F : Type} :
    TableKeyInput S O F → Except InvalidTableKey (NormalizedTableKey S O F)
  | .nil => .error .nil
  | .bool b => .ok (.bool b)
  | .number n =>
    if n.isNan then .error .nan
    -- Only the sign bit may differ between the two zeros.
    else .ok (.number (if n.bits <<< 1 = 0 then 0 else n.bits))
  | .string s => .ok (.string s)
  | .object o => .ok (.object o)
  | .rustFn f => .ok (.rustFn f)

namespace Val

/-- Validate and normalize a runtime table key. -/
def tableKey (v : Val) :
    Except InvalidTableKey (NormalizedTableKey StringPtr ObjectPtr RustFnId) :=
  normalizeTableKey <| match v with
    | nil => .nil
    | bool b => .bool b
    | num n => .number n
    | str s => .string s
    | obj o => .object o
    | rustFn f => .rustFn f

/-- Rejection of the only values that cannot be table keys. -/
def isValidTableKey : Val → Bool
  | nil => false
  | num n => !n.isNan
  | _ => true

/-- The quick test agrees with the normalizer. -/
theorem isValidTableKey_iff {v : Val} : v.isValidTableKey = true ↔ ∃ k, v.tableKey = .ok k := by
  cases v with
  | nil => simp [isValidTableKey, tableKey, normalizeTableKey]
  | num n => cases h : n.isNan <;> simp [isValidTableKey, tableKey, normalizeTableKey, h]
  | _ => simp [isValidTableKey, tableKey, normalizeTableKey]

/-! ### The equality of keys -/

@[simp] theorem eq_self {v : Val} (h : v.isValidTableKey = true) : v.eq v = true := by
  cases v <;> simp_all [eq, isValidTableKey]

theorem eq_comm (a b : Val) : a.eq b = b.eq a := by
  cases a <;> cases b <;> simp [eq, F64.feq_comm, Bool.beq_comm]

theorem eq_trans {a b c : Val} (hab : a.eq b = true) (hbc : b.eq c = true) : a.eq c = true := by
  cases a <;> cases b <;> simp [eq] at hab <;> cases c <;> simp [eq] at hbc ⊢
  case num.num.num => exact F64.feq_trans hab hbc
  all_goals exact hab.trans hbc

/-- Equal values have the same equalities. -/
theorem eq_congr_left {a b : Val} (h : a.eq b = true) (c : Val) : a.eq c = b.eq c := by
  rw [Bool.eq_iff_iff]
  exact ⟨fun hc => eq_trans (eq_comm a b ▸ h) hc, eq_trans h⟩

theorem eq_congr_right {a b : Val} (h : a.eq b = true) (c : Val) : c.eq a = c.eq b := by
  rw [eq_comm c, eq_comm c, eq_congr_left h]

theorem eq_nil {v : Val} : v.eq .nil = true → v = .nil := by
  cases v <;> simp [eq]

/-- A value equal to a valid key is one. -/
theorem isValidTableKey_congr {a b : Val} (h : a.eq b = true) (ha : a.isValidTableKey = true) :
    b.isValidTableKey = true := by
  cases a <;> cases b <;> simp_all [eq, isValidTableKey, F64.feq]

/-- Zeros are the doubles whose bits, shifted past the sign, vanish. -/
theorem F64_isZero_iff (x : F64) : x.bits <<< 1 = 0 ↔ x.isZero = true := by
  have hlt := x.bits.isLt
  rw [← BitVec.toNat_inj, BitVec.toNat_shiftLeft, Nat.shiftLeft_eq]
  simp only [F64.isZero, F64.exponent, F64.fraction, Bool.and_eq_true, beq_iff_eq,
    BitVec.ofNat_eq_ofNat, BitVec.toNat_ofNat]
  omega

/-- Two valid keys are equal exactly when they have the same normal form. -/
theorem eq_iff_tableKey {a b : Val} (ha : a.isValidTableKey = true)
    (hb : b.isValidTableKey = true) : a.eq b = true ↔ a.tableKey = b.tableKey := by
  cases a <;> cases b <;> simp_all [eq, tableKey, normalizeTableKey, isValidTableKey]
  case num.num x y =>
    simp only [F64.feq, ha, hb, Bool.not_false, Bool.true_and, Bool.or_eq_true, beq_iff_eq,
      Bool.and_eq_true]
    have hx := F64_isZero_iff x
    have hy := F64_isZero_iff y
    simp only [BitVec.ofNat_eq_ofNat] at hx hy
    by_cases h₁ : x.isZero = true <;> by_cases h₂ : y.isZero = true <;>
      simp only [hx, hy, h₁, h₂, if_true, if_false, or_false, and_true, or_true, Bool.false_eq_true,
        and_false]
    · refine iff_of_false (fun h => h₂ (h ▸ h₁)) fun h => h₂ ?_
      exact hy.1 (by rw [← h]; decide)
    · refine iff_of_false (fun h => h₁ (h ▸ h₂)) fun h => h₁ ?_
      exact hx.1 (by rw [h]; decide)
    · exact ⟨fun h => h ▸ rfl, fun h => by cases x; cases y; simp_all⟩

/-! ### Natural numbers as keys -/

theorem isValidTableKey_of_toNat? {v : Val} {n : Nat} (h : v.toNat? = some n) :
    v.isValidTableKey = true := by
  cases v <;> simp only [toNat?, reduceCtorEq] at h
  case num x => simp [isValidTableKey, F64.not_isNan_of_exactNat h]

theorem toNat?_congr {a b : Val} (h : a.eq b = true) : a.toNat? = b.toNat? := by
  cases a <;> cases b <;> simp [eq] at h <;> simp only [toNat?]
  exact F64.exactNat_congr h

theorem toNat?_ofNat {n : Nat} (h : n ≤ 2 ^ 53) : (ofNat n).toNat? = some n :=
  F64.exactNat_ofNat h

/-- Up to `2 ^ 53`, the values equal to the number `n` are those that are the
    natural number `n`. -/
theorem eq_ofNat_iff {v : Val} {n : Nat} (h : n ≤ 2 ^ 53) :
    v.eq (ofNat n) = true ↔ v.toNat? = some n := by
  cases v <;> simp only [eq, ofNat, toNat?, reduceCtorEq, Bool.false_eq_true]
  exact F64.feq_ofNat_iff h

theorem slotBelow_eq_some {key : Val} {len s : Nat} :
    key.slotBelow len = some s ↔ key.toNat? = some (s + 1) ∧ s < len := by
  rw [slotBelow]
  rcases key.toNat? with _ | _ | n
  · simp
  · simp
  · by_cases h : n < len
    · simp only [h, if_true, Option.some.injEq]
      omega
    · simp only [h, if_false, Option.some.injEq, reduceCtorEq, false_iff]
      omega

theorem slotBelow_ofNat {len s : Nat} (h : s < len) (hl : len ≤ 2 ^ 53) :
    (ofNat (s + 1)).slotBelow len = some s :=
  slotBelow_eq_some.2 ⟨toNat?_ofNat (by omega), h⟩

/-- Equal natural numbers are equal keys. -/
theorem eq_of_toNat? {a b : Val} {n : Nat} (ha : a.toNat? = some n) (hb : b.toNat? = some n) :
    a.eq b = true := by
  cases a <;> simp only [toNat?, reduceCtorEq] at ha
  cases b <;> simp only [toNat?, reduceCtorEq] at hb
  exact F64.feq_of_exactNat ha hb

end Val

end Dellingr
