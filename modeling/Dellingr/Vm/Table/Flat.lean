import Dellingr.Vm.Table.Contents
import Dellingr.Vm.Table.Hash
import Dellingr.Vm.Table.Window

/-!
# Flat tables

Half way between a table and its contents: the array part is stored whole, one
slot for each array key, while the hash part is the table's own, tombstones and
storage included. A flat table is what the operations of a table depend on: where
the window lies, how much of it is dead and how much is reserved is gone.

* `Table.flat` is the flat table of a table;
* the operations of this module are the naive ones on the array, and those of the
  table on the hash part;
* `Flat.Ok` is the invariant of a flat table, which every operation keeps;
* `Table.hashRemove_flat`, …: an operation on the hash part reads nothing else.
-/

namespace Dellingr

open AssocList

/-- A table whose array part is stored whole. -/
structure Flat where
  arr : List Val
  storage : TableStorage
  deadCount : Nat
  deriving DecidableEq, Repr

/-- The flat table of a table. -/
def Table.flat (t : Table) : Flat where
  arr := (List.range t.vlen).map (slotValue t.array t.base)
  storage := t.storage
  deadCount := t.deadCount

namespace Flat

variable (f : Flat)

/-- A table with this hash part, to run the operations on it. -/
def hashTable : Table := { Table.empty with storage := f.storage, deadCount := f.deadCount }

/-- The flat table with the hash part of a table. -/
def withHash (t : Table) : Flat := { f with storage := t.storage, deadCount := t.deadCount }

/-- The array slot of a key, if it is an array key. -/
def slot (key : Val) : Option Nat := key.slotBelow f.arr.length

/-- The value of a key. -/
def get (key : Val) : Val :=
  match f.slot key with
  | some i => f.arr.getD i .nil
  | none => f.hashTable.hashGet key

/-- The number of live hash slots. -/
def liveLen : Nat := f.storage.len - f.deadCount

def compact : Flat := f.withHash f.hashTable.compactDead

/-- Move the hash entries for the keys that follow the array into it. -/
def migrateLoop : Nat → Bool → Flat → Bool × Flat
  | 0, migrated, f => (migrated, f)
  | fuel + 1, migrated, f =>
    match f.hashTable.hashRemove (Val.ofNat (f.arr.length + 1)) with
    | (some v, t) => migrateLoop fuel true { f.withHash t with arr := f.arr ++ [v] }
    | (none, _) => (migrated, f)

def migrate : Flat :=
  if f.liveLen = 0 then f
  else
    let (migrated, f) := migrateLoop (f.storage.len + 1) false f
    if migrated ∧ f.liveLen ≤ f.deadCount then f.compact else f

/-- The last key of the run that would follow an append. -/
def migrationEnd : Nat → Nat → Except TableError Nat
  | 0, last => .ok last
  | fuel + 1, last =>
    if f.get (Val.ofNat (last + 1)) = .nil then .ok last
    else if last = maxArrayLen then .error .growthFailed
    else migrationEnd fuel (last + 1)

/-- How many keys an append adds to the array. -/
def growth : Except TableError Nat :=
  if maxArrayLen - f.arr.length < 1 then .error .growthFailed
  else if f.liveLen = 0 then .ok 1
  else (f.migrationEnd (maxArrayLen - f.arr.length) (f.arr.length + 1)).map (· - f.arr.length)

/-- Append a value to the array, unless the array would pass its limit. -/
def append (v : Val) : Except TableError Unit × Flat :=
  match f.growth with
  | .error e => (.error e, f)
  | .ok _ => (.ok (), migrate { f with arr := f.arr ++ [v] })

/-- Assign a key of the hash part. -/
def hashInsert (key value : Val) : Flat :=
  match f.hashTable.hashInsert key value with
  | some t => f.withHash t
  | none => f

/-- Assign a value to a key; nil deletes the key. -/
def insert (key value : Val) : Except TableError Unit × Flat :=
  match f.slot key with
  | some i => (.ok (), { f with arr := f.arr.set i value })
  | none =>
    match TableKey.new key with
    | .error e => (.error (.invalidKey e), f)
    | .ok _ =>
      if value = .nil then (.ok (), f.withHash (f.hashTable.hashRemove key).2)
      else if key.toNat? = some (f.arr.length + 1) then f.append value
      else (.ok (), f.hashInsert key value)

/-- Remove a key. -/
def remove (key : Val) : Flat :=
  match f.slot key with
  | some i => { f with arr := f.arr.set i .nil }
  | none => f.withHash (f.hashTable.hashRemove key).2

/-- Insert a value at a position of the sequence, shifting its elements up. -/
def arrayInsert (pos : Nat) (value : Val) : Except TableError Unit × Flat :=
  let len := Contents.border ⟨f.arr, []⟩
  if pos = len + 1 then f.insert (Val.ofNat pos) value
  else
    let shifted := { f with arr := Shift.up f.arr (pos - 1) len value }
    if len < f.arr.length then (.ok (), shifted)
    else match f.growth with
      | .error e => (.error e, f)
      | .ok _ => (.ok (), shifted.migrate)

/-- Remove the value at a position, shifting later elements down. -/
def arrayRemove (pos : Nat) : Val × Flat :=
  let len := Contents.border ⟨f.arr, []⟩
  if 1 ≤ pos ∧ pos ≤ len then
    (f.arr.getD (pos - 1) .nil, { f with arr := Shift.down f.arr (pos - 1) len .nil })
  else (f.get (Val.ofNat pos), f.remove (Val.ofNat pos))

/-- Store the value of one positional field. -/
def storeElement (key : Nat) (value : Val) : Except TableError Unit × Flat :=
  if key = f.arr.length + 1 then f.append value else f.insert (Val.ofNat key) value

/-- Store the positional fields of a constructor, up to the first one refused. -/
def setList (f : Flat) (first : Nat) : List Val → Except TableError Unit × Flat
  | [] => (.ok (), f)
  | v :: vs =>
    match f.storeElement first v with
    | (.error e, f) => (.error e, f)
    | (.ok (), f) => setList f (first + 1) vs

/-- The contents of a flat table: its tombstones and its storage are gone. -/
def contents : Contents := ⟨f.arr, liveEntries f.storage.slots⟩

/-- The invariant of a flat table, with no live hash key in `1..=limit`. -/
structure OkBelow (limit : Nat) : Prop where
  len_le : f.arr.length ≤ maxArrayLen
  hash : HashOk f.storage f.deadCount limit

/-- The invariant of a flat table. -/
abbrev Ok : Prop := f.OkBelow (f.arr.length + 1)

/-! ## The hash part -/

section Contents

variable {f : Flat} {limit : Nat} {key v : Val}

theorem hashGet_eq (h : f.OkBelow limit) (key : Val) :
    f.hashTable.hashGet key = f.contents.hashGet key := by
  rw [Table.hashGet_eq, Contents.hashGet]
  cases hk : key.isValidTableKey with
  | true => exact lookup_liveEntries h.hash.slots_ok
  | false =>
    -- An invalid key is equal to no key.
    rw [lookup_of_absent]
    · rfl
    · rintro ⟨k, v⟩ hm
      have hval := h.hash.slots_ok.valid k v (mem_liveEntries.1 hm).1
      by_contra hne
      rw [Bool.not_eq_false] at hne
      cases key <;> cases k <;> simp_all [Val.eq, Val.isValidTableKey, F64.feq]

/-- A flat table reads as its contents. -/
theorem get_eq (h : f.OkBelow limit) (key : Val) : f.get key = f.contents.get key := by
  rw [get, Contents.get, hashGet_eq h]
  rfl

theorem liveLen_eq (h : f.OkBelow limit) : f.liveLen = f.contents.hash.length := by
  rw [liveLen, TableStorage.len_eq, h.hash.length_eq, Nat.add_sub_cancel]
  rfl

/-- Removing a key of the hash part. -/
theorem hashRemove_spec (h : f.OkBelow limit) (key : Val) :
    (f.hashTable.hashRemove key).1 = lookup Val.eq f.contents.hash key ∧
      (f.withHash (f.hashTable.hashRemove key).2).OkBelow limit ∧
      (f.withHash (f.hashTable.hashRemove key).2).storage.policy = f.storage.policy ∧
      (f.withHash (f.hashTable.hashRemove key).2).contents =
        { f.contents with hash := erase Val.eq f.contents.hash key } := by
  obtain ⟨s, dead, he, hok, hpol, hlive⟩ :=
    Table.hashRemove_spec (t := f.hashTable) h.hash key
  rw [he]
  refine ⟨rfl, ⟨h.len_le, hok⟩, hpol, ?_⟩
  simp only [contents, withHash, hlive]
  rfl

/-- Assigning a key of the hash part. -/
theorem hashInsert_spec (h : f.OkBelow limit) (hkey : key.isValidTableKey = true)
    (hv : v.isLive = true) (hout : ∀ n, key.toNat? = some n → n = 0 ∨ limit < n) :
    (f.hashInsert key v).OkBelow limit ∧ (f.hashInsert key v).storage.policy = f.storage.policy ∧
      (f.storage.policy.reviveInPlace = false → (f.hashInsert key v).contents =
        { f.contents with hash := assign Val.eq f.contents.hash key v }) := by
  obtain ⟨s, dead, version, he, hins⟩ :=
    Table.hashInsert_spec (t := f.hashTable) h.hash hkey hv hout
  rw [hashInsert, he]
  refine ⟨⟨h.len_le, hins.ok⟩, hins.policy, fun hp => ?_⟩
  simp only [contents, withHash, hins.entries hp]
  rfl

theorem compact_spec (h : f.OkBelow limit) :
    f.compact.OkBelow limit ∧ f.compact.storage.policy = f.storage.policy ∧
      f.compact.contents = f.contents := by
  obtain ⟨s, dead, version, he, hok, hpol, hlive, -⟩ :=
    Table.compactDead_spec (t := f.hashTable) h.hash
  rw [compact, he]
  refine ⟨⟨h.len_le, hok⟩, hpol, ?_⟩
  simp only [contents, withHash, hlive]
  rfl

/-! ## Migration -/

/-- Migration of a flat table is that of its contents, as long as the array stays
    within its limit. -/
theorem migrateLoop_spec {fuel : Nat} {m : Bool} (h : f.OkBelow f.arr.length)
    (hle : (Contents.migrateLoop fuel f.contents).arr.length ≤ maxArrayLen) :
    (migrateLoop fuel m f).2.contents = Contents.migrateLoop fuel f.contents ∧
      (migrateLoop fuel m f).2.OkBelow (migrateLoop fuel m f).2.arr.length ∧
      (migrateLoop fuel m f).2.storage.policy = f.storage.policy := by
  induction fuel generalizing f m with
  | zero => exact ⟨rfl, h, rfl⟩
  | succ fuel ih =>
    obtain ⟨h₁, h₂, h₃, h₄⟩ := hashRemove_spec h (Val.ofNat (f.arr.length + 1))
    generalize hr : f.hashTable.hashRemove (Val.ofNat (f.arr.length + 1)) = r at h₁ h₂ h₃ h₄
    obtain ⟨o, t⟩ := r
    simp only [migrateLoop, Contents.migrateLoop, hr] at hle ⊢
    subst h₁
    cases hl : lookup Val.eq f.contents.hash (Val.ofNat (f.arr.length + 1)) with
    | none =>
      have hl' : lookup Val.eq f.contents.hash (Val.ofNat (f.contents.arr.length + 1)) = none := hl
      simpa only [hl', true_and, and_true] using h
    | some v =>
      have hl' : lookup Val.eq f.contents.hash (Val.ofNat (f.contents.arr.length + 1)) = some v := hl
      simp only [hl'] at hle ⊢
      have hcon : ({ f.withHash t with arr := f.arr ++ [v] } : Flat).contents =
          ⟨f.contents.arr ++ [v], erase Val.eq f.contents.hash (Val.ofNat (f.contents.arr.length + 1))⟩ := by
        have := congrArg Contents.hash h₄
        simp only [contents, withHash] at this ⊢
        rw [this]
      rw [← hcon] at hle ⊢
      have hlen : f.arr.length + 1 ≤ maxArrayLen := by
        refine Nat.le_trans ?_ hle
        refine Nat.le_trans ?_ Contents.length_le_migrateLoop
        simp [contents]
      -- The migrated key is gone from the hash part, so the limit moves up.
      have hok : ({ f.withHash t with arr := f.arr ++ [v] } : Flat).OkBelow (f.arr ++ [v]).length := by
        refine ⟨by simpa using hlen, ?_⟩
        rw [List.length_append]
        refine h₂.hash.succ (hlen.trans (by decide)) (lookup_of_absent ?_)
        have := congrArg Contents.hash h₄
        simp only [contents] at this
        rw [this]
        intro e he
        simpa [erase] using (List.mem_filter.1 he).2
      obtain ⟨i₁, i₂, i₃⟩ := ih (m := true) hok hle
      exact ⟨i₁, i₂, i₃.trans h₃⟩

theorem migrate_spec (h : f.OkBelow f.arr.length)
    (hle : f.contents.migrate.arr.length ≤ maxArrayLen) :
    f.migrate.contents = f.contents.migrate ∧ f.migrate.Ok ∧
      f.migrate.storage.policy = f.storage.policy := by
  have hlive := liveLen_eq h
  have hfuel : f.contents.hash.length < f.storage.len + 1 := by
    rw [← hlive, liveLen]
    omega
  have hle' : f.contents.hash.length ≤ f.storage.len + 1 := hfuel.le
  have hl := Contents.lookup_migrateLoop hfuel
  rw [← Contents.migrateLoop_of_le hle'] at hle ⊢
  obtain ⟨h₁, h₂, h₃⟩ := migrateLoop_spec (m := false) h hle
  rw [migrate]
  split
  · -- An empty hash part has nothing to migrate.
    rename_i hz
    have hnil : f.contents.hash = [] := List.length_eq_zero_iff.1 (hlive ▸ hz)
    have hsame : Contents.migrateLoop (f.storage.len + 1) f.contents = f.contents := by
      simp [Contents.migrateLoop, hnil, lookup]
    rw [hsame] at hl hle ⊢
    exact ⟨rfl, ⟨h.len_le, h.hash.succ (Nat.succ_le_succ hle |>.trans (by decide)) hl⟩, rfl⟩
  · generalize migrateLoop (f.storage.len + 1) false f = r at h₁ h₂ h₃
    obtain ⟨m, f'⟩ := r
    simp only at h₁ h₂ h₃ ⊢
    rw [← h₁] at hl hle ⊢
    have hok : f'.Ok :=
      ⟨h₂.len_le, h₂.hash.succ (Nat.succ_le_succ h₂.len_le |>.trans (by decide)) hl⟩
    split
    · obtain ⟨c₁, c₂, c₃⟩ := compact_spec hok
      exact ⟨c₃, c₁, c₂.trans h₃⟩
    · exact ⟨rfl, hok, h₃⟩

/-- Writing a slot of the array commutes with migration. -/
theorem migrateLoop_set {fuel i : Nat} {m : Bool} (hi : i < f.arr.length) :
    migrateLoop fuel m { f with arr := f.arr.set i v } =
      ((migrateLoop fuel m f).1,
        { (migrateLoop fuel m f).2 with arr := (migrateLoop fuel m f).2.arr.set i v }) := by
  induction fuel generalizing f m with
  | zero => rfl
  | succ fuel ih =>
    have hhash : ({ f with arr := f.arr.set i v } : Flat).hashTable = f.hashTable := rfl
    simp only [migrateLoop, hhash, List.length_set]
    generalize f.hashTable.hashRemove (Val.ofNat (f.arr.length + 1)) = r
    obtain ⟨o, t⟩ := r
    cases o with
    | none => rfl
    | some w =>
      have := ih (f := { f.withHash t with arr := f.arr ++ [w] }) (m := true)
        (hi.trans_le (by simp))
      rw [← this]
      simp only [List.set_append_left _ _ hi]
      rfl

theorem migrate_set {i : Nat} (hi : i < f.arr.length) :
    ({ f with arr := f.arr.set i v } : Flat).migrate =
      { f.migrate with arr := f.migrate.arr.set i v } := by
  have hlive : ({ f with arr := f.arr.set i v } : Flat).liveLen = f.liveLen := rfl
  rw [migrate, migrate, hlive, migrateLoop_set hi]
  split
  · rfl
  · simp only
    split
    · rename_i hc
      rw [if_pos (by exact hc)]
      rfl
    · rename_i hc
      rw [if_neg (by exact hc)]

/-! ## Appends -/

/-- The run that would follow an append ends within the limit, at an absent key. -/
theorem migrationEnd_spec {fuel last e : Nat} (hf : last + fuel = maxArrayLen + 1)
    (hle : last ≤ maxArrayLen) (he : f.migrationEnd fuel last = .ok e) :
    last ≤ e ∧ e ≤ maxArrayLen ∧ f.get (Val.ofNat (e + 1)) = .nil := by
  induction fuel generalizing last with
  | zero => omega
  | succ fuel ih =>
    rw [migrationEnd] at he
    split at he
    · obtain rfl := Except.ok.inj he
      exact ⟨Nat.le_refl _, hle, ‹_›⟩
    · split at he
      · simp at he
      · obtain ⟨h₁, h₂, h₃⟩ := ih (by omega) (by omega) he
        exact ⟨by omega, h₂, h₃⟩

theorem migrationEnd_error {fuel last : Nat} {e : TableError}
    (he : f.migrationEnd fuel last = .error e) : e = .growthFailed := by
  induction fuel generalizing last with
  | zero => simp [migrationEnd] at he
  | succ fuel ih =>
    rw [migrationEnd] at he
    split at he
    · simp at he
    · split at he
      · exact (Except.error.inj he).symm
      · exact ih he

theorem growth_error {e : TableError} (he : f.growth = .error e) : e = .growthFailed := by
  rw [growth] at he
  split at he
  · exact (Except.error.inj he).symm
  · split at he
    · simp at he
    · cases hm : f.migrationEnd (maxArrayLen - f.arr.length) (f.arr.length + 1) with
      | error e' =>
        rw [hm] at he
        exact Except.error.inj he ▸ migrationEnd_error hm
      | ok n => simp [hm, Except.map] at he

/-- A live entry is found in the hash part. -/
theorem absent_of_get_eq_nil (h : f.OkBelow limit) (hs : f.slot key = none)
    (hg : f.get key = .nil) : Absent Val.eq f.contents.hash key := by
  rw [get, hs, hashGet_eq h, Contents.hashGet] at hg
  refine absent_of_lookup_eq_none ?_
  cases hl : lookup Val.eq f.contents.hash key with
  | none => rfl
  | some v =>
    rw [hl] at hg
    obtain ⟨A, k, B, hS, -, -⟩ := exists_split_of_lookup hl
    have hm : (k, v) ∈ f.contents.hash := by simp [hS]
    exact absurd hg (Val.isLive_iff.1 (mem_liveEntries.1 hm).2)

/-- An append that is not refused stays within the limit. -/
theorem growth_spec {n : Nat} (h : f.OkBelow limit) (hg : f.growth = .ok n) :
    1 ≤ n ∧ (f.contents.push v).arr.length ≤ maxArrayLen := by
  rw [growth] at hg
  split at hg
  · simp at hg
  rename_i hlt
  split at hg
  · -- Nothing can migrate.
    rename_i hz
    obtain rfl := Except.ok.inj hg
    have hnil : f.contents.hash = [] := List.length_eq_zero_iff.1 (liveLen_eq h ▸ hz)
    refine ⟨Nat.le_refl _, ?_⟩
    rw [Contents.push, Contents.migrate, hnil]
    simp only [List.length_nil, Contents.migrateLoop, contents, List.length_append,
      List.length_singleton]
    omega
  · cases hm : f.migrationEnd (maxArrayLen - f.arr.length) (f.arr.length + 1) with
    | error e => simp [hm, Except.map] at hg
    | ok e =>
      obtain rfl : e - f.arr.length = n := by simpa [hm, Except.map] using hg
      obtain ⟨h₁, h₂, h₃⟩ := migrationEnd_spec (by omega) (by omega) hm
      have hslot : f.slot (Val.ofNat (e + 1)) = none := by
        rw [slot, Val.slotBelow, Val.toNat?_ofNat (Nat.succ_le_succ h₂ |>.trans (by decide))]
        exact if_neg (by omega)
      refine ⟨by omega, Nat.le_trans ?_ h₂⟩
      refine Contents.length_migrateLoop_le ?_ (absent_of_get_eq_nil h hslot h₃)
      simpa [contents] using h₁

theorem append_spec (h : f.Ok) :
    (∃ e, f.append v = (.error e, f) ∧ e = .growthFailed) ∨
      ∃ f', f.append v = (.ok (), f') ∧ f'.Ok ∧ f'.storage.policy = f.storage.policy ∧
        f'.contents = f.contents.push v := by
  rw [append]
  cases hg : f.growth with
  | error e => exact .inl ⟨e, rfl, growth_error hg⟩
  | ok n =>
    obtain ⟨-, hle⟩ := growth_spec (v := v) h hg
    have hpush : f.contents.push v = ({ f with arr := f.arr ++ [v] } : Flat).contents.migrate := rfl
    rw [hpush] at hle ⊢
    have hlen : (f.arr ++ [v]).length ≤ maxArrayLen :=
      (Contents.length_le_migrate (c := ({ f with arr := f.arr ++ [v] } : Flat).contents)).trans hle
    obtain ⟨h₁, h₂, h₃⟩ := migrate_spec (f := { f with arr := f.arr ++ [v] })
      ⟨hlen, by simpa using h.hash⟩ hle
    exact .inr ⟨_, rfl, h₂, h₃, h₁⟩

/-! ## Operations and contents -/

/-- An operation that is not refused does to the contents what `c` says. -/
structure Does (f : Flat) (r : Except TableError Unit × Flat) (c : Contents) : Prop where
  ok : r.2.Ok
  policy : r.2.storage.policy = f.storage.policy
  contents : f.storage.policy.reviveInPlace = false → r.1 = .ok () → r.2.contents = c

theorem append_does (h : f.Ok) : f.Does (f.append v) (f.contents.push v) := by
  obtain ⟨e, he, -⟩ | ⟨f', he, hok, hpol, hc⟩ := append_spec (v := v) h
  · rw [he]
    exact ⟨h, rfl, fun _ hr => by simp at hr⟩
  · rw [he]
    exact ⟨hok, hpol, fun _ _ => hc⟩

theorem isValidTableKey_of_new {k : TableKey} (h : TableKey.new key = .ok k) :
    key.isValidTableKey = true := by
  rw [Val.isValidTableKey_iff]
  cases ht : key.tableKey with
  | error e => simp [TableKey.new, ht, Except.map] at h
  | ok k => exact ⟨k, rfl⟩

theorem insert_does (h : f.Ok) (key v : Val) : f.Does (f.insert key v) (f.contents.insert key v) := by
  rw [insert, Contents.insert]
  have hslot : f.contents.slot key = f.slot key := rfl
  rw [hslot]
  cases hs : f.slot key with
  | some i =>
    refine ⟨⟨?_, ?_⟩, rfl, fun _ _ => rfl⟩
    · simpa using h.len_le
    · simpa using h.hash
  | none =>
    cases hk : TableKey.new key with
    | error e => exact ⟨h, rfl, fun _ hr => by simp at hr⟩
    | ok k =>
      have hkey := isValidTableKey_of_new hk
      simp only
      by_cases hv : v = .nil
      · rw [if_pos hv, if_pos hv]
        obtain ⟨-, h₂, h₃, h₄⟩ := hashRemove_spec h key
        exact ⟨h₂, h₃, fun _ _ => h₄⟩
      · rw [if_neg hv, if_neg hv]
        by_cases ha : key.toNat? = some (f.arr.length + 1)
        · rw [if_pos ha, if_pos (by exact ha)]
          exact append_does h
        · rw [if_neg ha, if_neg (by exact ha)]
          have hout : ∀ n, key.toNat? = some n → n = 0 ∨ f.arr.length + 1 < n := by
            intro n hn
            rcases n with _ | n
            · exact .inl rfl
            · refine .inr ?_
              by_contra hlt
              have hne : n ≠ f.arr.length := fun he => ha (he ▸ hn)
              have := Val.slotBelow_eq_some.2 ⟨hn, (by omega : n < f.arr.length)⟩
              rw [← slot, hs] at this
              simp at this
          obtain ⟨h₁, h₂, h₃⟩ := hashInsert_spec h hkey (Val.isLive_iff.2 hv) hout
          have hlen : (f.hashInsert key v).arr.length = f.arr.length := by
            rw [hashInsert]
            split <;> rfl
          exact ⟨⟨h₁.len_le, hlen ▸ h₁.hash⟩, h₂, fun hp _ => h₃ hp⟩

theorem border_le : Contents.border ⟨f.arr, []⟩ ≤ f.arr.length :=
  (Contents.border_isBorder (c := ⟨f.arr, []⟩)).le

theorem arrayInsert_does {pos : Nat} (h : f.Ok) (h₁ : 1 ≤ pos)
    (h₂ : pos ≤ Contents.border ⟨f.arr, []⟩ + 1) :
    f.Does (f.arrayInsert pos v) (f.contents.insertAt pos v) := by
  have hb : f.contents.border = Contents.border ⟨f.arr, []⟩ := rfl
  have hle := border_le (f := f)
  rw [arrayInsert, Contents.insertAt, hb]
  generalize Contents.border ⟨f.arr, []⟩ = len at h₂ hle
  simp only
  by_cases hpos : pos = len + 1
  · rw [if_pos hpos, if_pos hpos]
    exact insert_does h _ _
  rw [if_neg hpos, if_neg hpos]
  by_cases hlen : len < f.arr.length
  · rw [if_pos hlen, if_pos (by exact hlen)]
    have hl : (Shift.up f.arr (pos - 1) len v).length = f.arr.length :=
      Shift.length_up (by omega) hlen
    exact ⟨⟨hl ▸ h.len_le, hl ▸ h.hash⟩, rfl, fun _ _ => rfl⟩
  · rw [if_neg hlen, if_neg (by exact hlen)]
    cases hg : f.growth with
    | error e => exact ⟨h, rfl, fun _ hr => by simp at hr⟩
    | ok n =>
      obtain ⟨-, hm⟩ := growth_spec (v := v) h hg
      simp only
      generalize harr : Shift.up f.arr (pos - 1) len v = arr
      have hl : arr.length = f.arr.length + 1 := by
        rw [← harr, Shift.up]
        simp
        omega
      have hm' : ({ f with arr := arr } : Flat).contents.migrate.arr.length ≤ maxArrayLen := by
        refine Nat.le_trans (Nat.le_of_eq ?_) hm
        exact Contents.length_migrate_congr (by simpa [contents] using hl) rfl
      obtain ⟨m₁, m₂, m₃⟩ := migrate_spec (f := { f with arr := arr })
        ⟨Contents.length_le_migrate.trans hm', by simpa only [hl] using h.hash⟩ hm'
      refine ⟨m₂, m₃, fun _ _ => ?_⟩
      rw [m₁]
      simp only [contents, harr]

theorem arrayRemove_spec (h : f.Ok) (pos : Nat) :
    (f.arrayRemove pos).2.Ok ∧ (f.arrayRemove pos).2.storage.policy = f.storage.policy ∧
      (f.arrayRemove pos).1 = (f.contents.removeAt pos).1 ∧
      (f.arrayRemove pos).2.contents = (f.contents.removeAt pos).2 := by
  have hb : f.contents.border = Contents.border ⟨f.arr, []⟩ := rfl
  have hle := border_le (f := f)
  rw [arrayRemove, Contents.removeAt, hb]
  generalize Contents.border ⟨f.arr, []⟩ = len at hle
  split
  · rename_i hpos
    have hl : (Shift.down f.arr (pos - 1) len .nil).length = f.arr.length :=
      Shift.length_down (by omega) hle
    exact ⟨⟨hl ▸ h.len_le, hl ▸ h.hash⟩, rfl, rfl, rfl⟩
  · rw [get_eq h, Contents.insert, remove]
    have hslot : f.contents.slot (Val.ofNat pos) = f.slot (Val.ofNat pos) := rfl
    rw [hslot]
    cases hs : f.slot (Val.ofNat pos) with
    | some i => exact ⟨⟨by simpa using h.len_le, by simpa using h.hash⟩, rfl, rfl, rfl⟩
    | none =>
      obtain ⟨-, r₂, r₃, r₄⟩ := hashRemove_spec h (Val.ofNat pos)
      exact ⟨r₂, r₃, rfl, r₄⟩

theorem storeElement_does (h : f.Ok) (key : Nat) (v : Val) :
    f.Does (f.storeElement key v) (f.contents.storeElement key v) := by
  rw [storeElement, Contents.storeElement]
  by_cases hf : key = f.arr.length + 1
  · rw [if_pos hf, if_pos (by exact hf)]
    exact append_does h
  · rw [if_neg hf, if_neg (by exact hf)]
    exact insert_does h _ _

theorem setList_does (h : f.Ok) (first : Nat) (vs : List Val) :
    f.Does (f.setList first vs) (f.contents.storeList first vs) := by
  induction vs generalizing f first with
  | nil => exact ⟨h, rfl, fun _ _ => rfl⟩
  | cons v vs ih =>
    have hd := storeElement_does h first v
    rw [setList, Contents.storeList]
    generalize f.storeElement first v = r at hd
    obtain ⟨r, f'⟩ := r
    cases r with
    | error e => exact ⟨hd.ok, hd.policy, fun _ hr => by simp at hr⟩
    | ok _ =>
      have ih' := ih hd.ok (first + 1)
      refine ⟨ih'.ok, ih'.policy.trans hd.policy, fun hp hr => ?_⟩
      rw [← hd.contents hp rfl]
      exact ih'.contents (by rw [hd.policy]; exact hp) hr

end Contents

end Flat

end Dellingr
