import Dellingr.Vm.Table.Field
import Dellingr.Vm.Table.Growth
import Dellingr.Vm.Table.Model
import Dellingr.Vm.Table.TokenSound
import Dellingr.Vm.Table.Walk

/-!
# Tables made by constructors

A constructor does not assign its fields one by one. Its positional fields are stored by
`setList`, in one extend where it can, and its named fields are written to slots reserved
for them (`withTemplateKeys`, `initAtIndex`). Neither is observable:

* a list that fits is stored as it is one value after another (`setList_each`). The
  tables have the same flat table, so nothing tells them apart later;
* a table made from a template has slots that the plain one does not have, those of its
  nil fields. As long as slots are not revived in place, tables with the same window and
  the same contents stay so (`Twins`), and such tables look alike (`Twins.looksLike`):
  only the successor of a key that is absent can differ.
-/

namespace Dellingr

open AssocList Val

namespace Table

variable {t u t' u' : Table} {A B : Allocator} {key v : Val} {first : Nat} {vs : List Val}

/-! ## Positional fields -/

section Window

variable (t) (s : TableStorage) (dead : Nat) (version : UInt64)

/-- An outcome with another hash part. -/
def Outcome.withHash {α : Type} (o : Outcome α) : Outcome α := (o.1, o.2.withHash s dead version)

theorem writeWindow_withHash (p : Nat) (v : Val) : (t.withHash s dead version).writeWindow p v =
    (t.writeWindow p v).map (·.withHash s dead version) := by
  simp only [writeWindow, Option.bind_eq_bind, Option.pure_def]
  cases t.array[p]? with
  | none => rfl
  | some old =>
    simp only [Option.bind_some]
    cases checkedSub t.arrayLive old.liveBit with
    | none => rfl
    | some live =>
      simp only [Option.bind_some, Option.map_some, Option.some.injEq]
      split
      · simp only [notePrefixWrite]
        split
        · rfl
        · split <;> rfl
      · rfl

theorem reserveArray_withHash (A : Allocator) (n : Nat) : (t.withHash s dead version).reserveArray A n =
    Outcome.withHash s dead version (t.reserveArray A n) := by
  simp only [reserveArray]
  split
  · split <;> rfl
  · rfl

/-- Making room for the window does not touch the hash part. -/
theorem fillWindow_withHash (A : Allocator) (p : Table) :
    (if (p.withHash s dead version).base + (p.withHash s dead version).array.length <
        (p.withHash s dead version).vlen then
      match (p.withHash s dead version).reserveArray A
          ((p.withHash s dead version).vlen - (p.withHash s dead version).base) with
      | (.ok (), t) => (.ok (), t.resizeArray (t.vlen - t.base))
      | (.error e, t) => (.error e, t)
    else (.ok (), p.withHash s dead version)) =
    Outcome.withHash s dead version
      (if p.base + p.array.length < p.vlen then
        match p.reserveArray A (p.vlen - p.base) with
        | (.ok (), t) => (.ok (), t.resizeArray (t.vlen - t.base))
        | (.error e, t) => (.error e, t)
      else (.ok (), p)) := by
  split
  · rw [reserveArray_withHash]
    generalize p.reserveArray A _ = o
    obtain ⟨r, p₁⟩ := o
    cases r <;> rfl
  · rfl

theorem prepareAppendAfterLead_withHash (A : Allocator) :
    (t.withHash s dead version).prepareAppendAfterLead A =
      Outcome.withHash s dead version (t.prepareAppendAfterLead A) := by
  simp only [prepareAppendAfterLead]
  split
  · split <;> rfl
  · -- Dropping the dead prefix does not touch the hash part.
    split
    · exact fillWindow_withHash _ _ _ A t.dropDeadPrefix
    · exact fillWindow_withHash _ _ _ A t

theorem writeOutsideWindow_withHash (A : Allocator) (n : Nat) (v : Val) :
    (t.withHash s dead version).writeOutsideWindow A n v =
      (t.writeOutsideWindow A n v).map (Outcome.withHash s dead version) := by
  simp only [writeOutsideWindow, reserveOutsideWindow, reserveArray_withHash]
  generalize t.reserveArray A _ = o
  obtain ⟨r, t₁⟩ := o
  cases r with
  | error e => rfl
  | ok _ =>
    simp only [Outcome.withHash]
    split
    · rfl
    · split
      · cases checkedSub (n - 1) (min (n - 1) ((t₁.arrayLive + 1) / 2)) with
        | none => rfl
        | some base =>
          simp only [Option.bind_eq_bind, Option.bind_some]
          cases checkedSub t₁.base base with
          | none => rfl
          | some grow =>
            simp only [Option.bind_some]
            generalize (List.replicate grow nil ++ t₁.array)[min (n - 1) ((t₁.arrayLive + 1) / 2)]? = o
            cases o <;> rfl
      · cases checkedSub n t₁.base with
        | none => rfl
        | some len =>
          simp only [Option.bind_eq_bind, Option.bind_some, resizeArray]
          generalize (t₁.array ++ List.replicate (len - t₁.array.length) nil)[len - 1]? = o
          cases o <;> rfl
end Window

end Table

namespace Flat

variable {f g : Flat} {limit limit' : Nat}

/-- The contents of a flat table determine its growth. -/
theorem growth_congr (hf : f.OkBelow limit) (hg : g.OkBelow limit') (hc : g.contents = f.contents) :
    g.growth = f.growth := by
  have harr : g.arr = f.arr := congrArg Contents.arr hc
  have hlive : g.liveLen = f.liveLen := by rw [liveLen_eq hf, liveLen_eq hg, hc]
  have hend : ∀ fuel last, g.migrationEnd fuel last = f.migrationEnd fuel last := by
    intro fuel
    induction fuel with
    | zero => intro last; rfl
    | succ fuel ih =>
      intro last
      rw [migrationEnd, migrationEnd, get_eq hf, get_eq hg, hc, ih]
  rw [growth, growth, harr, hlive, hend]

end Flat

namespace Table

variable {t u t₁ u₁ p : Table} {A : Allocator} {key v : Val} {limit pos : Nat}

/-- Two tables with the same window and the same live entries. -/
structure Like (t u : Table) (limit : Nat) : Prop where
  shell : u = t.withHash u.storage u.deadCount u.version
  left : HashOk t.storage t.deadCount limit
  right : HashOk u.storage u.deadCount limit
  live : liveEntries u.storage.slots = liveEntries t.storage.slots

/-- Another window beside the same hash parts. -/
theorem Like.move (h : Like t u limit) (hs : p.storage = t.storage) (hd : p.deadCount = t.deadCount) :
    Like p (p.withHash u.storage u.deadCount u.version) limit :=
  ⟨rfl, by rw [hs, hd]; exact h.left, h.right, by rw [hs]; exact h.live⟩

theorem Like.okBelow (h : Like t u limit) (ht : t.OkBelow limit) : u.OkBelow limit := by
  have hok : (t.withHash u.storage u.deadCount u.version).OkBelow limit :=
    ⟨ht.window, ⟨ht.flat.len_le, h.right⟩⟩
  rw [← h.shell] at hok
  exact hok

theorem Like.contents (h : Like t u limit) : u.flat.contents = t.flat.contents := by
  have harr : u.flat.arr = t.flat.arr := by
    rw [h.shell]
    rfl
  exact congrArg₂ Contents.mk harr h.live

theorem Like.vlen (h : Like t u limit) : u.vlen = t.vlen := by rw [h.shell]

theorem Like.get (h : Like t u limit) (ht : t.OkBelow limit) (hl : t.vlen ≤ limit) (key : Val) :
    u.get key = t.get key := by
  have hu := h.okBelow ht
  rw [get_flat ht hl, get_flat hu (h.vlen ▸ hl), Flat.get_eq ht.flat, Flat.get_eq hu.flat, h.contents]

theorem Like.hashLiveLen (h : Like t u limit) : u.hashLiveLen = t.hashLiveLen := by
  have ht := h.left.length_eq
  have hu := h.right.length_eq
  rw [h.live] at hu
  rw [Table.hashLiveLen, Table.hashLiveLen, hashSlotCount, hashSlotCount, TableStorage.len_eq,
    TableStorage.len_eq, ht, hu, checkedSub_of_le (Nat.le_add_left _ _),
    checkedSub_of_le (Nat.le_add_left _ _), Nat.add_sub_cancel, Nat.add_sub_cancel]

theorem Like.appendGrowth (h : Like t u limit) (ht : t.OkBelow limit) (hl : t.vlen ≤ limit) :
    u.appendGrowth = t.appendGrowth := by
  have hu := h.okBelow ht
  rw [appendGrowth_flat ht hl, appendGrowth_flat hu (h.vlen ▸ hl),
    Flat.growth_congr ht.flat hu.flat h.contents]

/-! ## Migration of twins -/

theorem migrateLoop_like (t : Table) (s : TableStorage) (dead fuel fuel' : Nat) (version : UInt64)
    (m : Bool) (ht : HashOk t.storage t.deadCount limit) (hs : HashOk s dead limit)
    (hlive : liveEntries s.slots = liveEntries t.storage.slots)
    (hf : (liveEntries t.storage.slots).length < fuel)
    (hf' : (liveEntries t.storage.slots).length < fuel') :
    ∃ s' dead', migrateLoop fuel' m (t.withHash s dead version) =
      ((migrateLoop fuel m t).1, (migrateLoop fuel m t).2.withHash s' dead' version) := by
  induction fuel generalizing t s dead fuel' m with
  | zero => exact absurd hf (Nat.not_lt_zero _)
  | succ fuel ih =>
    obtain ⟨fuel', rfl⟩ := Nat.exists_eq_succ_of_ne_zero (Nat.ne_of_gt (Nat.zero_lt_of_lt hf'))
    obtain ⟨s₁, dead₁, he, hok₁, -, hlive₁⟩ := hashRemove_spec ht (Val.ofNat (t.vlen + 1))
    obtain ⟨s₂, dead₂, he', hok₂, -, hlive₂⟩ :=
      hashRemove_spec (t := t.withHash s dead version) hs (Val.ofNat (t.vlen + 1))
    rw [hlive] at he' hlive₂
    simp only [migrateLoop, he, he']
    cases hlook : lookup Val.eq (liveEntries t.storage.slots) (Val.ofNat (t.vlen + 1)) with
    | none => exact ⟨s₂, dead₂, rfl⟩
    | some value =>
      -- An entry is gone, and the rest go the same way.
      have hlt := length_erase_lt hlook
      rw [← hlive₁] at hlt
      have hlt₁ : (liveEntries s₁.slots).length < fuel := by omega
      have hlt₂ : (liveEntries s₁.slots).length < fuel' := by omega
      exact ih ({ t with vlen := t.vlen + 1, storage := s₁, deadCount := dead₁ }.pushSlot value)
        s₂ dead₂ fuel' true hok₁ hok₂ (hlive₂.trans hlive₁.symm) hlt₁ hlt₂

/-- Both tables migrate the same keys. -/
theorem Like.migrateFromHash (h : Like t u limit) (ht : t.migrateFromHash = some t₁)
    (hu : u.migrateFromHash = some u₁) : u₁ = t₁.withHash u₁.storage u₁.deadCount u₁.version := by
  rw [Table.migrateFromHash, h.hashLiveLen] at hu
  rw [Table.migrateFromHash] at ht
  obtain ⟨live, hl, ht⟩ := Option.bind_eq_some_iff.1 ht
  rw [hl, Option.bind_eq_bind, Option.bind_some] at hu
  split at ht
  · rename_i hz
    rw [if_pos hz] at hu
    cases ht
    cases hu
    exact h.shell
  · rename_i hz
    rw [if_neg hz] at hu
    have hlen := h.left.length_eq
    have hlen' := h.right.length_eq
    rw [h.live] at hlen'
    obtain ⟨s, dead, hloop⟩ := migrateLoop_like t u.storage u.deadCount (t.hashSlotCount + 1)
      (u.hashSlotCount + 1) u.version false h.left h.right h.live
      (by rw [hashSlotCount, TableStorage.len_eq]; exact Nat.lt_succ_of_le (hlen ▸ Nat.le_add_right _ _))
      (by rw [hashSlotCount, TableStorage.len_eq]; omega)
    rw [← h.shell] at hloop
    rw [hloop] at hu
    generalize migrateLoop (t.hashSlotCount + 1) false t = r at ht hu
    obtain ⟨m, w⟩ := r
    obtain ⟨_, -, ht⟩ := Option.bind_eq_some_iff.1 ht
    obtain ⟨_, -, hu⟩ := Option.bind_eq_some_iff.1 hu
    cases ht
    cases hu
    -- Compaction only touches the hash part, whether or not both compact.
    obtain ⟨s₁, dead₁, version₁, he₁, -⟩ := compactDead_flat w
    obtain ⟨s₂, dead₂, version₂, he₂, -⟩ := compactDead_flat (w.withHash s dead u.version)
    rw [he₁, he₂]
    split <;> split <;> rfl

/-! ## Operations of twins -/

/-- Two outcomes with the same result and the same window. -/
def Alike {α : Type} (o o' : Option (Outcome α)) : Prop :=
  ∀ r t₁ r' u₁, o = some (r, t₁) → o' = some (r', u₁) →
    r' = r ∧ u₁ = t₁.withHash u₁.storage u₁.deadCount u₁.version

theorem alike_map {α : Type} {o o' : Option (Outcome α)} (s : TableStorage) (dead : Nat)
    (version : UInt64) (h : o' = o.map (Outcome.withHash s dead version)) : Alike o o' := by
  rintro r t₁ r' u₁ rfl hu
  rw [h] at hu
  cases hu
  exact ⟨rfl, rfl⟩

theorem alike_refused {α : Type} {r : Except TableError α} (s : TableStorage) (dead : Nat)
    (version : UInt64) : Alike (some (r, t)) (some (r, t.withHash s dead version)) :=
  alike_map s dead version rfl

theorem Like.appendSlow (h : Like t u limit) (ht : t.OkBelow limit) (hl : t.vlen ≤ limit) :
    Alike (t.appendSlow A v) (u.appendSlow A v) := by
  obtain ⟨s, dead, version, rfl⟩ : ∃ s dead version, u = t.withHash s dead version :=
    ⟨_, _, _, h.shell⟩
  have hcheck : (t.withHash s dead version).checkVlenGrowth 1 = t.checkVlenGrowth 1 := rfl
  rw [Table.appendSlow, Table.appendSlow, hcheck, checkVlenGrowth_eq ht,
    prepareAppendAfterLead_withHash t s dead version]
  simp only [Option.bind_eq_bind, Option.bind_some]
  split
  · exact alike_refused s dead version
  · obtain ⟨res, array, cap, base, lead, live, hp, hw, hs, -⟩ :=
      prepareAppendAfterLead_spec (A := A) ht.window
    have hok := ht.withWindow cap hw hs
    rw [hp]
    cases res with
    | error e => exact alike_refused s dead version
    | ok _ =>
      generalize hpeq : t.withWindow array cap base lead live = p at hok
      have hp : Like p (p.withHash s dead version) limit := h.move (hpeq ▸ rfl) (hpeq ▸ rfl)
      have hlp : p.vlen ≤ limit := by
        rw [← hpeq]
        exact hl
      simp only [Outcome.withHash, andThen, Table.reserveAppend, hp.appendGrowth hok hlp,
        Option.bind_eq_bind]
      cases hg : p.appendGrowth with
      | none => rintro r t₁ r' u₁ ⟨⟩
      | some grown =>
        cases grown with
        | error e => exact alike_refused s dead version
        | ok n =>
          simp only [Option.bind_some, Option.pure_def, reserveArray_withHash p s dead version]
          obtain ⟨cap', hr, -⟩ | hr := reserveArray_cases p A
            (if p.arrayLive = 0 then n else p.vlen + n - p.base)
          · -- The keys that follow the appended one migrate in both.
            rw [hr]
            simp only [Outcome.withHash]
            intro r t₁ r' u₁ ht₁ hu₁
            obtain ⟨w, hw, heq⟩ := Option.map_eq_some_iff.1 ht₁
            obtain ⟨w', hw', heq'⟩ := Option.map_eq_some_iff.1 hu₁
            cases heq
            cases heq'
            have hpush : Like ({ p with cap := cap', vlen := p.vlen + 1 }.pushSlot v) _ limit :=
              hp.move rfl rfl
            exact ⟨rfl, hpush.migrateFromHash hw hw'⟩
          · rw [hr]
            exact alike_refused s dead version

theorem Like.append (h : Like t u limit) (ht : t.OkBelow limit) (hl : t.vlen ≤ limit) :
    Alike (t.append A v) (u.append A v) := by
  obtain ⟨s, dead, version, rfl⟩ : ∃ s dead version, u = t.withHash s dead version :=
    ⟨_, _, _, h.shell⟩
  obtain ⟨lead, he, hw⟩ := advanceLead_eq (t := t)
  have hok : ({ t with lead := lead } : Table).OkBelow limit := ⟨hw ht.window, ht.flat⟩
  have he' : (t.withHash s dead version).advanceLead =
      ({ t with lead := lead } : Table).withHash s dead version :=
    congrArg (fun w : Table => w.withHash s dead version) he
  have hlead : Like { t with lead := lead } _ limit := h.move rfl rfl
  rw [Table.append, Table.append, he, he']
  simp only [hlead.hashLiveLen, Option.bind_eq_bind]
  split
  · exact hlead.appendSlow hok hl
  · cases ({ t with lead := lead } : Table).hashLiveLen with
    | none => rintro r t₁ r' u₁ ⟨⟩
    | some n =>
      simp only [Option.bind_some]
      split
      · exact hlead.appendSlow hok hl
      · exact alike_map s dead version rfl

/-- A key that is neither in the array nor the next one. -/
theorem keyOutside_of_none (ht : t.Ok) (hk : t.arrayKey key = none)
    (ha : t.isArrayAppendKey key ≠ true) : t.KeyOutside key := by
  intro n hn
  rw [Ne, isArrayAppendKey_iff ht.vlen_le, hn] at ha
  rw [arrayKey_eq, Option.map_eq_none_iff] at hk
  by_contra hne
  have hslot : key.slotBelow t.vlen = some (n - 1) :=
    slotBelow_eq_some.2 ⟨by rw [hn]; congr 1; omega, by
      have : n ≠ t.vlen + 1 := fun h => ha (congrArg some h)
      omega⟩
  rw [hk] at hslot
  cases hslot

theorem Like.insert (h : Like t u (t.vlen + 1)) (ht : t.Ok) :
    Alike (t.insert A key v) (u.insert A key v) := by
  obtain ⟨s, dead, version, rfl⟩ : ∃ s dead version, u = t.withHash s dead version :=
    ⟨_, _, _, h.shell⟩
  have hslot : (t.withHash s dead version).arraySlot key = t.arraySlot key := rfl
  have hkey : (t.withHash s dead version).arrayKey key = t.arrayKey key := rfl
  have happ : (t.withHash s dead version).isArrayAppendKey key = t.isArrayAppendKey key := rfl
  rw [Table.insert, Table.insert, hslot, hkey, happ]
  cases t.arraySlot key with
  | some p =>
    simp only [writeWindow_withHash t s dead version]
    refine alike_map s dead version ?_
    cases t.writeWindow p v <;> rfl
  | none =>
    simp only
    cases hn : TableKey.new key with
    | error e => exact alike_refused s dead version
    | ok k =>
      simp only
      split
      · rintro r t₁ r' u₁ ⟨⟩ ⟨⟩
        refine ⟨rfl, ?_⟩
        obtain ⟨-, s₁, dead₁, he₁, -⟩ := hashRemove_flat t key
        obtain ⟨-, s₂, dead₂, he₂, -⟩ := hashRemove_flat (t.withHash s dead version) key
        rw [he₁, he₂]
      · rename_i hv
        split
        · exact h.append ht (Nat.le_succ _)
        · rename_i ha
          cases hak : t.arrayKey key with
          | some n => exact alike_map s dead version (writeOutsideWindow_withHash t s dead version A n v)
          | none =>
            have hval := Flat.isValidTableKey_of_new hn
            have hout := keyOutside_of_none ht hak ha
            have hlive : v.isLive = true := isLive_iff.2 hv
            obtain ⟨s₁, dead₁, version₁, he₁, -⟩ := hashInsert_spec (t := t) h.left hval hlive hout
            obtain ⟨s₂, dead₂, version₂, he₂, -⟩ :=
              hashInsert_spec (t := t.withHash s dead version) h.right hval hlive hout
            simp only [he₁, he₂, Option.map_some]
            rintro r t₁ r' u₁ ⟨⟩ ⟨⟩
            exact ⟨rfl, rfl⟩

theorem Like.arrayLen (h : Like t u limit) (ht : t.OkBelow limit) : u.arrayLen = t.arrayLen := by
  have harr : u.flat.arr = t.flat.arr := congrArg Contents.arr h.contents
  rw [arrayLen_flat ht.window, arrayLen_flat (h.okBelow ht).window, harr]

theorem Like.reserveInsert (h : Like t u limit) (ht : t.OkBelow limit) (hl : t.vlen ≤ limit)
    (len : Nat) : u.reserveInsert A pos v len =
      (t.reserveInsert A pos v len).map (Outcome.withHash u.storage u.deadCount u.version) := by
  obtain ⟨s, dead, version, rfl⟩ : ∃ s dead version, u = t.withHash s dead version :=
    ⟨_, _, _, h.shell⟩
  simp only [Table.reserveInsert, h.appendGrowth ht hl, Option.bind_eq_bind]
  generalize (if (len == t.vlen) = true then t.appendGrowth
    else some (.ok (if len = t.base + t.array.length then 1 else 0))) = grown
  cases grown with
  | none => rfl
  | some grown =>
    cases grown with
    | error e => rfl
    | ok extra =>
      simp only [Option.bind_some, reserveOutsideWindow, reserveArray_withHash t s dead version]
      generalize (if (len == t.vlen) = true then checkedSub extra 1 else some 0) = delta
      cases delta with
      | none => rfl
      | some liveDelta =>
        simp only [Option.bind_some, Option.pure_def, Option.map_some]
        split <;> rfl

/-- Both tables shift the same elements. -/
theorem Like.shiftUp (h : Like t u limit) {len : Nat} (ht : t.shiftUp pos len = some t₁)
    (hu : u.shiftUp pos len = some u₁) : u₁ = t₁.withHash u₁.storage u₁.deadCount u₁.version := by
  obtain ⟨s, dead, version, rfl⟩ : ∃ s dead version, u = t.withHash s dead version :=
    ⟨_, _, _, h.shell⟩
  by_cases hlen : len = t.vlen
  · subst hlen
    simp only [Table.shiftUp, beq_self_eq_true, if_true, Option.bind_eq_bind] at ht hu
    obtain ⟨high, hh, ht⟩ := Option.bind_eq_some_iff.1 ht
    obtain ⟨array, ha, ht⟩ := Option.bind_eq_some_iff.1 ht
    obtain ⟨high', hh', hu⟩ := Option.bind_eq_some_iff.1 hu
    obtain ⟨array', ha', hu⟩ := Option.bind_eq_some_iff.1 hu
    obtain rfl := Option.some.inj (hh.symm.trans hh')
    obtain rfl := Option.some.inj (ha.symm.trans ha')
    have hpush : Like { ({ t with vlen := t.vlen + 1 }.pushSlot .nil) with array := array } _ limit :=
      h.move rfl rfl
    exact hpush.migrateFromHash ht hu
  · have hne : (len == t.vlen) = false := beq_false_of_ne hlen
    have hmap : (t.withHash s dead version).shiftUp pos len =
        (t.shiftUp pos len).map (·.withHash s dead version) := by
      simp only [Table.shiftUp, hne, Bool.false_eq_true, if_false, Option.bind_eq_bind]
      split
      · simp only [pushSlot]
        cases checkedSub len t.base with
        | none => rfl
        | some high =>
          simp only [Option.bind_some]
          generalize rotateRight (t.array ++ [.nil]) _ high = o
          cases o <;> rfl
      · cases checkedSub len t.base with
        | none => rfl
        | some high =>
          simp only [Option.bind_some]
          generalize rotateRight t.array _ high = o
          cases o <;> rfl
    rw [hmap, ht] at hu
    cases hu
    rfl

theorem hashPart_reserveInsert {len : Nat} {r : Except TableError Unit}
    (h : t.reserveInsert A pos v len = some (r, p)) :
    p.storage = t.storage ∧ p.deadCount = t.deadCount := by
  have hcap : ∀ n, (t.reserveArray A n).2.storage = t.storage ∧
      (t.reserveArray A n).2.deadCount = t.deadCount := by
    intro n
    obtain ⟨cap, hr, -⟩ | hr := reserveArray_cases t A n
    · rw [hr]
      exact ⟨rfl, rfl⟩
    · rw [hr]
      exact ⟨rfl, rfl⟩
  rw [Table.reserveInsert] at h
  obtain ⟨grown, -, h⟩ := Option.bind_eq_some_iff.1 h
  cases grown with
  | error e =>
    cases h
    exact ⟨rfl, rfl⟩
  | ok extra =>
    obtain ⟨liveDelta, -, h⟩ := Option.bind_eq_some_iff.1 h
    have hp : p = (r, p).2 := rfl
    rw [hp, ← Option.some.inj h]
    split
    · exact hcap _
    · exact hcap _

theorem storeShifted_withHash (t : Table) (s : TableStorage) (dead : Nat) (version : UInt64)
    (A : Allocator) (pos : Nat) (v : Val) : (t.withHash s dead version).storeShifted A pos v =
      (t.storeShifted A pos v).map (Outcome.withHash s dead version) := by
  simp only [storeShifted, writeWindow_withHash t s dead version,
    writeOutsideWindow_withHash t s dead version]
  split
  · cases t.writeWindow (pos - t.base - 1) v <;> rfl
  · split <;> rfl

theorem shiftRemove_withHash (t : Table) (s : TableStorage) (dead : Nat) (version : UInt64)
    (A : Allocator) (pos len : Nat) : (t.withHash s dead version).shiftRemove A pos len =
      (t.shiftRemove A pos len).map (Outcome.withHash s dead version) := by
  have hval : (t.withHash s dead version).arrayValue pos = t.arrayValue pos := by
    cases pos <;> rfl
  simp only [shiftRemove, hval, Option.bind_eq_bind]
  cases checkedSub len t.base with
  | none => rfl
  | some last =>
    simp only [Option.bind_some]
    split
    · cases shiftDown t.array (pos - t.base - 1) last with
      | none => rfl
      | some array =>
        simp only [Option.bind_some]
        cases checkedSub t.arrayLive (t.arrayValue pos).liveBit <;> rfl
    · cases t.array[0]? with
      | none => rfl
      | some first =>
        simp only [Option.bind_some]
        cases shiftDown t.array 0 last with
        | none => rfl
        | some array =>
          simp only [Option.bind_some]
          cases checkedSub t.arrayLive first.liveBit with
          | none => rfl
          | some live =>
            simp only [Option.bind_some]
            split
            · have hwrite := writeOutsideWindow_withHash
                { t with array := array, arrayLive := live, lead := 0 } s dead version A t.base first
              rw [hwrite]
              generalize writeOutsideWindow _ A t.base first = o
              cases o with
              | none => rfl
              | some o =>
                obtain ⟨res, w⟩ := o
                cases res <;> rfl
            · rfl

theorem Like.arrayInsert (h : Like t u (t.vlen + 1)) (ht : t.Ok) :
    Alike (t.arrayInsert A pos v) (u.arrayInsert A pos v) := by
  have hlen := h.arrayLen ht
  by_cases hpos : pos = t.arrayLen + 1
  · simp only [Table.arrayInsert, hlen, hpos, if_true]
    exact h.insert ht
  · rw [arrayInsert_eq hpos, arrayInsert_eq (hlen.symm ▸ hpos), hlen,
      h.reserveInsert ht (Nat.le_succ _)]
    cases hr : t.reserveInsert A pos v t.arrayLen with
    | none => rintro r t₁ r' u₁ ⟨⟩
    | some o =>
      obtain ⟨res, p⟩ := o
      simp only [Option.map_some, Option.bind_some, Outcome.withHash, andThen]
      cases res with
      | error e => exact alike_refused u.storage u.deadCount u.version
      | ok _ =>
        -- The reservation only changed the capacity.
        obtain ⟨hs, hd⟩ := hashPart_reserveInsert hr
        have hp : Like p _ _ := h.move hs hd
        intro r t₁ r' u₁ ht₁ hu₁
        obtain ⟨w, hw, ht₁⟩ := Option.bind_eq_some_iff.1 ht₁
        obtain ⟨w', hw', hu₁⟩ := Option.bind_eq_some_iff.1 hu₁
        rw [hp.shiftUp hw hw', storeShifted_withHash] at hu₁
        exact alike_map _ _ _ rfl r t₁ r' u₁ ht₁ hu₁

theorem Like.arrayRemove (h : Like t u (t.vlen + 1)) (ht : t.Ok) :
    Alike (t.arrayRemove A pos) (u.arrayRemove A pos) := by
  have hlen := h.arrayLen ht
  have hget := h.get ht (Nat.le_succ _) (Val.ofNat pos)
  obtain ⟨s, dead, version, rfl⟩ : ∃ s dead version, u = t.withHash s dead version :=
    ⟨_, _, _, h.shell⟩
  by_cases hpos : 1 ≤ pos ∧ pos ≤ t.arrayLen
  · rw [arrayRemove_eq hpos.1 hpos.2, arrayRemove_eq hpos.1 (hlen.symm ▸ hpos.2), hlen]
    have hreserve : (t.withHash s dead version).reserveRemove A pos =
        (t.reserveRemove A pos).map (Outcome.withHash s dead version) := by
      simp only [reserveRemove, reserveArray_withHash t s dead version, Option.bind_eq_bind]
      generalize (if pos ≤ t.base then t.array[0]?.map Val.isLive else some false) = o
      cases o with
      | none => rfl
      | some live => cases live <;> rfl
    rw [hreserve]
    cases t.reserveRemove A pos with
    | none => rintro r t₁ r' u₁ ⟨⟩
    | some o =>
      obtain ⟨res, p⟩ := o
      simp only [Option.map_some, Option.bind_some, Outcome.withHash, andThen]
      cases res with
      | error e => exact alike_refused s dead version
      | ok _ => exact alike_map s dead version (shiftRemove_withHash p s dead version A pos _)
  · simp only [Table.arrayRemove, hlen, hpos, if_false, hget]
    intro r t₁ r' u₁ ht₁ hu₁
    obtain ⟨w, hw, heq⟩ := Option.map_eq_some_iff.1 ht₁
    obtain ⟨w', hw', heq'⟩ := Option.map_eq_some_iff.1 hu₁
    cases heq
    cases heq'
    refine ⟨rfl, ?_⟩
    have hslot : (t.withHash s dead version).arraySlot (Val.ofNat pos) = t.arraySlot (Val.ofNat pos) :=
      rfl
    rw [Table.remove, hslot] at hw'
    rw [Table.remove] at hw
    cases hk : t.arraySlot (Val.ofNat pos) with
    | some p =>
      rw [hk] at hw hw'
      simp only [writeWindow_withHash t s dead version] at hw'
      rw [show t.writeWindow p .nil = some t₁ from hw] at hw'
      cases hw'
      rfl
    | none =>
      rw [hk] at hw hw'
      cases hw
      cases hw'
      obtain ⟨-, s₁, dead₁, he₁, -⟩ := hashRemove_flat t (Val.ofNat pos)
      obtain ⟨-, s₂, dead₂, he₂, -⟩ := hashRemove_flat (t.withHash s dead version) (Val.ofNat pos)
      rw [he₁, he₂]

/-! ## Twins -/

/-- Two tables with the same window and the same contents that add deleted keys anew. -/
structure Twins (t u : Table) : Prop where
  left : t.Ok
  right : u.Ok
  shell : u = t.withHash u.storage u.deadCount u.version
  contents : u.flat.contents = t.flat.contents
  plain : t.Plain ∧ u.Plain

theorem Twins.vlen (h : Twins t u) : u.vlen = t.vlen := by rw [h.shell]

theorem Twins.symm (h : Twins t u) : Twins u t := by
  refine ⟨h.right, h.left, ?_, h.contents.symm, h.plain.symm⟩
  rw [h.shell]

theorem Twins.like (h : Twins t u) : Like t u (t.vlen + 1) := by
  have hok := h.right.flat.hash
  rw [h.vlen] at hok
  exact ⟨h.shell, h.left.flat.hash, hok, congrArg Contents.hash h.contents⟩

/-- The operations that assign, insert and remove. -/
def IsEdit : TableOp → Prop
  | .insert .. | .arrayInsert .. | .arrayRemove _ => True
  | _ => False

/-- What an operation leaves: nothing changes if it fails, and otherwise the contents are the
    given ones. -/
structure Leaves (t : Table) (r : Except TableError Val) (t' : Table) (c : Contents) : Prop where
  plain : t'.Plain
  done : ∀ v, r = .ok v → t'.flat.contents = c
  failed : ∀ e, r = .error e → t'.flat.contents = t.flat.contents

theorem leaves_of_sameFlat {c : Contents} {e : TableError} (hp : t.Plain) (h : SameFlat t t₁) :
    Leaves t (.error e) t₁ c := by
  have hstorage : t₁.storage = t.storage := congrArg Flat.storage h.flat.symm
  refine ⟨?_, by rintro _ ⟨⟩, fun _ _ => by rw [h.flat]⟩
  rw [Plain, hstorage]
  exact hp

theorem leaves_of_does {c : Contents} {q : Except TableError Unit × Flat} (hp : t.Plain)
    (hd : t.flat.Does q c) (hq : q.1 = .ok ()) (hf : t₁.flat = q.2) : Leaves t (.ok .nil) t₁ c := by
  have hpol : t₁.storage.policy = t.storage.policy := by
    have := hd.policy
    rw [← hf] at this
    exact this
  refine ⟨?_, fun _ _ => ?_, by rintro _ ⟨⟩⟩
  · rw [Plain, hpol]
    exact hp
  · rw [hf]
    exact hd.contents hp hq

/-- What an operation does to the contents. -/
def edited (c : Contents) : TableOp → Contents
  | .insert key value => c.insert key value
  | .arrayInsert pos value => c.insertAt pos value
  | .arrayRemove pos => (c.removeAt pos).2
  | _ => c

theorem leaves_apply {op : TableOp} {r : Except TableError Val} (h : t.Ok) (hp : t.Plain)
    (hop : IsEdit op) (ha : t.Admits op) (hs : t.apply A op = some (r, t₁)) :
    Leaves t r t₁ (edited t.flat.contents op) := by
  have hflat := (ok_iff.1 h).2
  cases op with
  | insert key v =>
    obtain ⟨⟨res, w⟩, hw, heq⟩ := Option.map_eq_some_iff.1 hs
    cases heq
    cases res with
    | error e => exact leaves_of_sameFlat hp (insert_refused h hw)
    | ok _ =>
      obtain ⟨-, hq, hf⟩ := (insert_refines h).of_ok hw
      exact leaves_of_does hp (Flat.insert_does hflat key v) hq hf
  | arrayInsert pos v =>
    obtain ⟨⟨res, w⟩, hw, heq⟩ := Option.map_eq_some_iff.1 hs
    cases heq
    cases res with
    | error e =>
      have hagree : SameFlat t w := by
        rcases Nat.lt_or_eq_of_le ha.2 with hlt | hpos
        · rw [arrayInsert_refused h ha.1 (Nat.le_of_lt_succ hlt) hw]
          exact ⟨h, h, rfl⟩
        · simp only [Table.arrayInsert, hpos, if_true] at hw
          exact insert_refused h hw
      exact leaves_of_sameFlat hp hagree
    | ok _ =>
      have hle : pos ≤ Contents.border ⟨t.flat.arr, []⟩ + 1 := arrayLen_flat h.window ▸ ha.2
      obtain ⟨-, hq, hf⟩ := (arrayInsert_refines h ha.1 ha.2).of_ok hw
      exact leaves_of_does hp (Flat.arrayInsert_does hflat ha.1 hle) hq hf
  | arrayRemove pos =>
    cases r with
    | error e =>
      rw [arrayRemove_refused h hs]
      exact leaves_of_sameFlat hp ⟨h, h, rfl⟩
    | ok removed =>
      obtain ⟨-, -, hf⟩ := (arrayRemove_refines h).of_ok hs
      obtain ⟨-, hpol, -, hc⟩ := Flat.arrayRemove_spec hflat pos
      have hpol' : t₁.storage.policy = t.storage.policy := by
        have := hpol
        rw [← hf] at this
        exact this
      refine ⟨?_, fun _ _ => ?_, by rintro _ ⟨⟩⟩
      · rw [Plain, hpol']
        exact hp
      · rw [hf, hc]
        rfl
  | _ => exact hop.elim

/-- Twins do the same, and stay twins. -/
theorem Twins.apply {op : TableOp} {r : Except TableError Val} (h : Twins t u) (hop : IsEdit op)
    (ha : t.Admits op) (hs : t.apply A op = some (r, t₁)) :
    u.Admits op ∧ ∃ u₁, u.apply A op = some (r, u₁) ∧ Twins t₁ u₁ := by
  have hlen := h.like.arrayLen h.left
  have ha' : u.Admits op := by
    cases op with
    | insert key v => trivial
    | arrayInsert pos v => exact ⟨ha.1, hlen.symm ▸ ha.2⟩
    | arrayRemove pos => trivial
    | _ => exact hop.elim
  obtain ⟨r', u₁, hu, hok'⟩ := apply_ok (A := A) h.right ha'
  obtain ⟨r'', t₂, ht, hok⟩ := apply_ok (A := A) h.left ha
  rw [hs] at ht
  cases ht
  have halike : r' = r ∧ u₁ = t₁.withHash u₁.storage u₁.deadCount u₁.version := by
    have hnil : ∀ {o o' : Option (Outcome Unit)}, Alike o o' → o.map returnNil = some (r, t₁) →
        o'.map returnNil = some (r', u₁) →
        r' = r ∧ u₁ = t₁.withHash u₁.storage u₁.deadCount u₁.version := by
      intro o o' hoo ho ho'
      obtain ⟨⟨res, w⟩, hw, heq⟩ := Option.map_eq_some_iff.1 ho
      obtain ⟨⟨res', w'⟩, hw', heq'⟩ := Option.map_eq_some_iff.1 ho'
      cases heq
      cases heq'
      obtain ⟨rfl, hshell⟩ := hoo _ _ _ _ hw hw'
      exact ⟨rfl, hshell⟩
    cases op with
    | insert key v => exact hnil (h.like.insert h.left) hs hu
    | arrayInsert pos v => exact hnil (h.like.arrayInsert h.left) hs hu
    | arrayRemove pos => exact h.like.arrayRemove h.left _ _ _ _ hs hu
    | _ => exact hop.elim
  obtain ⟨rfl, hshell⟩ := halike
  have hl := leaves_apply h.left h.plain.1 hop ha hs
  have hl' := leaves_apply h.right h.plain.2 hop ha' hu
  refine ⟨ha', u₁, hu, hok, hok', hshell, ?_, hl.plain, hl'.plain⟩
  cases r' with
  | ok v => rw [hl.done v rfl, hl'.done v rfl, h.contents]
  | error e => rw [hl.failed e rfl, hl'.failed e rfl, h.contents]

/-! ## What twins look like -/

/-- Two tables that only the successor of an absent key can tell apart. -/
structure LooksLike (t u : Table) : Prop where
  get : ∀ key, t.get key = u.get key
  arrayLen : t.arrayLen = u.arrayLen
  traverses : ∀ out, t.Traverses .nil out ↔ u.Traverses .nil out
  next : ∀ key, key = .nil ∨ t.get key ≠ .nil → t.next key = u.next key

end Table

/-- The pairs after a key in the order of a traversal. -/
def Contents.after (c : Contents) (key : Val) : List (Val × Val) :=
  (c.pairs.dropWhile fun e => !e.1.eq key).tail

namespace Flat

variable {f : Flat} {key : Val}

/-- The live slots behind that of a present key are the pairs after it. -/
theorem after_of_get (h : f.Ok) (hg : f.get key ≠ .nil) :
    ∃ p, f.position key = some p ∧ key.isValidTableKey = true ∧
      liveEntries (f.entries.drop (p + 1)) = f.contents.after key := by
  obtain ⟨p, k, w, hp, he, hw, hk⟩ := live_of_get h hg
  obtain ⟨hlt, heq⟩ := List.getElem?_eq_some_iff.1 he
  have hsplit : f.entries = f.entries.take p ++ (.live k, w) :: f.entries.drop (p + 1) := by
    conv_lhs => rw [← List.take_append_drop p f.entries, List.drop_eq_getElem_cons hlt, heq]
  obtain ⟨-, hval⟩ := position_of_live h he hw
  refine ⟨p, hp, isValidTableKey_congr hk hval, ?_⟩
  have hout : p < f.arr.length ∨ ∀ n, k.toNat? = some n → n = 0 ∨ f.arr.length + 1 < n := by
    rcases Nat.lt_or_ge p f.arr.length with hlt | hge
    · exact .inl hlt
    · obtain ⟨d, rfl⟩ := Nat.exists_eq_add_of_le hge
      rw [entries_hash] at he
      exact .inr fun n => h.hash.outside k w n (mem_liveEntries.2 ⟨List.mem_of_getElem? he, hw⟩)
  -- No live slot before it has the key.
  have hbefore : ∀ e ∈ liveEntries (f.entries.take p), (!e.1.eq key) = true := by
    rintro ⟨l, x⟩ hm
    obtain ⟨hm, hx⟩ := mem_liveEntries.1 hm
    obtain ⟨i, hi, hget⟩ := List.mem_iff_getElem.1 hm
    rw [List.length_take] at hi
    rw [List.getElem_take] at hget
    have hi' : f.keys[i]? = some (.live l) := by
      rw [keys, List.getElem?_map, List.getElem?_eq_getElem (by omega), hget]
      rfl
    have hp' : f.keys[p]? = some (.live k) := by
      rw [keys, List.getElem?_map, he]
      rfl
    have hne := keys_differ h (by omega) hi' hp' hout
    by_contra hl
    rw [Bool.not_eq_true, Bool.not_eq_false'] at hl
    rw [eq_trans hl (Val.eq_comm k key ▸ hk)] at hne
    cases hne
  rw [Contents.after, pairs_eq]
  conv_rhs => rw [hsplit, liveEntries_append, liveEntries_cons_live hw]
  rw [List.dropWhile_append_of_pos hbefore, List.dropWhile_cons_of_neg (by simpa using hk),
    List.tail_cons]

end Flat

namespace Table

variable {t u : Table} {key : Val}

theorem traverses_after (h : t.Ok) (hg : t.get key ≠ .nil) :
    t.Traverses key (t.flat.contents.after key) := by
  have hflat := (ok_iff.1 h).2
  rw [get_flat h (Nat.le_succ _)] at hg
  obtain ⟨p, hp, hval, heq⟩ := Flat.after_of_get hflat hg
  rw [← heq]
  exact traverses_from h (p + 1) (Flat.next_of_position hp hval)

/-- Tables that go on alike from a key have the same successor. -/
theorem next_of_traverses {out : List (Val × Val)} (ht : t.Traverses key out)
    (hu : u.Traverses key out) : t.next key = u.next key := by
  cases ht with
  | finished h =>
    cases hu with
    | finished h' => rw [h, h']
  | pair h _ =>
    cases hu with
    | pair h' _ => rw [h, h']

theorem Twins.looksLike (h : Twins t u) : LooksLike t u := by
  have hget : ∀ key, t.get key = u.get key := fun key =>
    (h.like.get h.left (Nat.le_succ _) key).symm
  have htrav := traverses_pairs h.left
  have htrav' := traverses_pairs h.right
  rw [h.contents] at htrav'
  refine ⟨hget, (h.like.arrayLen h.left).symm, fun out => ⟨fun ho => ?_, fun ho => ?_⟩,
    fun key hkey => ?_⟩
  · rw [ho.unique htrav]
    exact htrav'
  · rw [ho.unique htrav']
    exact htrav
  · rcases hkey with rfl | hkey
    · exact next_of_traverses htrav htrav'
    · have hafter := traverses_after h.right (hget key ▸ hkey)
      rw [h.contents] at hafter
      exact next_of_traverses (traverses_after h.left hkey) hafter

/-! ## Named fields -/

/-- Write named fields to the slots reserved for them, from the slot `i` on; whether all were
    stored. -/
def initFields (t : Table) (i : Nat) : List (StringPtr × Val) → Option (Bool × Table)
  | [] => some (true, t)
  | (k, v) :: fields => do
    let (stored, t) ← t.initAtIndex (.hash i) (.str k) v
    let (all, t) ← initFields t (i + 1) fields
    return (stored && all, t)

/-- Assign named fields one by one. -/
def insertFields (A : Allocator) (t : Table) : List (StringPtr × Val) → Option (Outcome Unit)
  | [] => some (.ok (), t)
  | (k, v) :: fields => do
    andThen (← t.insert A (.str k) v) fun _ t => insertFields A t fields

/-- Any stores to slots of a template, with any keys, in any order. -/
def initForged (t : Table) : List (SlotIndex × StringPtr × Val) → Option Table
  | [] => some t
  | (index, k, v) :: stores => do
    let (_, t) ← t.initAtIndex index (.str k) v
    initForged t stores

theorem keyOutside_str (t : Table) (k : StringPtr) : t.KeyOutside (.str k) := by
  intro n hn
  cases hn

/-- No counter underflows, whatever is stored. -/
theorem initForged_ok (h : t.Ok) (stores : List (SlotIndex × StringPtr × Val)) :
    ∃ t', t.initForged stores = some t' ∧ t'.Ok := by
  induction stores generalizing t with
  | nil => exact ⟨t, rfl, h⟩
  | cons s stores ih =>
    obtain ⟨index, k, v⟩ := s
    obtain ⟨b, t₁, he, hok⟩ : ∃ b t₁, t.initAtIndex index (.str k) v = some (b, t₁) ∧ t₁.Ok :=
      initAtIndex_ok h (fun _ => keyOutside_str t k) index
    obtain ⟨t', he', hok'⟩ := ih hok
    refine ⟨t', ?_, hok'⟩
    rw [initForged, he]
    exact he'

/-- The slot of a field that is stored. -/
def fieldSlot (e : StringPtr × Val) : TableKey × Val := (.live (.str e.1), e.2)

/-- The slot of a field that is reserved. -/
def reservedSlot (e : StringPtr × Val) : TableKey × Val := (.live (.str e.1), .nil)

/-- The live fields, in order. -/
def liveFields (fields : List (StringPtr × Val)) : List (Val × Val) :=
  liveEntries (fields.map fieldSlot)

theorem slots_template {done : List (TableKey × Val)} {fields : List (StringPtr × Val)}
    {m : IndexMap TableKey Val} (hm : m.slots = done)
    (hnodup : (fields.map Prod.fst).Nodup)
    (hnew : ∀ e ∈ fields, SlotsAbsent done (.str e.1)) :
    ((fields.map fun e => Val.str e.1).foldl (fun m k => m.insert (TableKey.live k) Val.nil) m).slots =
      done ++ fields.map reservedSlot := by
  induction fields generalizing done m with
  | nil => simp [hm]
  | cons e fields ih =>
    rw [List.map_cons, List.nodup_cons] at hnodup
    have habsent : SlotsAbsent m.slots (.str e.1) := hm ▸ hnew e List.mem_cons_self
    rw [List.map_cons, List.foldl_cons, @ih (done ++ [reservedSlot e]) _ ?_ hnodup.2 ?_]
    · simp
    · rw [slots_insert_of_absent habsent, hm]
      rfl
    · intro e' he' s hs
      rcases List.mem_append.1 hs with hs | hs
      · exact hnew e' (List.mem_cons_of_mem _ he') s hs
      · rw [List.mem_singleton.1 hs]
        have hne : e.1 ≠ e'.1 := fun heq => hnodup.1 (heq ▸ List.mem_map_of_mem he')
        simpa [reservedSlot, TableKey.lookup, Val.eq] using hne

/-- Storing the fields turns the reserved slots into live ones, in place. -/
theorem initFields_template {done : List (TableKey × Val)} {fields : List (StringPtr × Val)}
    (h : t.Ok) (hw : t = empty.withHash t.storage t.deadCount t.version) (hp : t.storage.policy = {})
    (hs : t.storage.slots = done ++ fields.map reservedSlot) :
    ∃ t', t.initFields done.length fields = some (true, t') ∧ t'.Ok ∧
      t' = empty.withHash t'.storage t'.deadCount t'.version ∧ t'.storage.policy = {} ∧
      t'.storage.slots = done ++ fields.map fieldSlot := by
  induction fields generalizing t done with
  | nil => exact ⟨t, rfl, h, hw, hp, hs⟩
  | cons e fields ih =>
    obtain ⟨k, v⟩ := e
    have hslot : t.storage.slots[done.length]? = some (.live (.str k), .nil) := by
      rw [hs, List.map_cons, List.getElem?_append_right (Nat.le_refl _), Nat.sub_self]
      rfl
    obtain ⟨b, t₁, he, hok⟩ : ∃ b t₁, t.initAtIndex (.hash done.length) (.str k) v = some (b, t₁) ∧
        t₁.Ok := initAtIndex_ok h (fun _ => keyOutside_str t k) _
    obtain ⟨rfl, hstorage, hwin⟩ : b = true ∧ t₁.storage = t.storage.setAt done.length v ∧
        t₁ = t.withHash t₁.storage t₁.deadCount t₁.version := by
      have hlookup : TableKey.lookup (.str k) (.live (.str k)) = true := by
        simp [TableKey.lookup, Val.eq]
      rw [initAtIndex, TableStorage.slotAt_eq, hslot] at he
      simp only [hlookup, Bool.not_true, Bool.false_eq_true, if_false] at he
      split at he
      · obtain ⟨dead, -, he⟩ := Option.bind_eq_some_iff.1 he
        cases he
        exact ⟨rfl, rfl, rfl⟩
      · split at he
        · cases he
          exact ⟨rfl, rfl, rfl⟩
        · cases he
          exact ⟨rfl, rfl, rfl⟩
    have hslots : t₁.storage.slots = (done ++ [fieldSlot (k, v)]) ++ fields.map reservedSlot := by
      rw [hstorage, TableStorage.slots_setAt, hs, List.map_cons, modify_split, List.append_assoc]
      rfl
    have hpol : t₁.storage.policy = {} := by
      rw [hstorage]
      cases hst : t.storage with
      | inline entries => rfl
      | map m policy =>
        rw [hst] at hp
        exact hp
    obtain ⟨t', he', hok', hw', hp', hs'⟩ := ih hok (by rw [hwin, hw]) hpol hslots
    refine ⟨t', ?_, hok', hw', hp', by rw [hs']; simp⟩
    rw [List.length_append, List.length_singleton] at he'
    simp only [initFields, he, he', Option.bind_eq_bind, Option.bind_some, Option.pure_def,
      Bool.and_self]

/-- Assigning the fields adds the live ones, in order. -/
theorem insertFields_plain {done fields : List (StringPtr × Val)} (h : t.Ok)
    (hw : t = empty.withHash t.storage t.deadCount t.version) (hp : t.storage.policy = {})
    (hnodup : ((done ++ fields).map Prod.fst).Nodup)
    (hlive : liveEntries t.storage.slots = liveFields done) :
    ∃ t', t.insertFields A fields = some (.ok (), t') ∧ t'.Ok ∧
      t' = empty.withHash t'.storage t'.deadCount t'.version ∧ t'.storage.policy = {} ∧
      liveEntries t'.storage.slots = liveFields (done ++ fields) := by
  induction fields generalizing t done with
  | nil => exact ⟨t, rfl, h, hw, hp, by rw [List.append_nil]; exact hlive⟩
  | cons e fields ih =>
    obtain ⟨k, v⟩ := e
    have habsent : Absent Val.eq (liveEntries t.storage.slots) (.str k) := by
      rw [hlive]
      rintro ⟨l, w⟩ hm
      obtain ⟨e, he, heq⟩ := List.mem_map.1 (mem_liveEntries.1 hm).1
      cases heq
      have hne : e.1 ≠ k := by
        rw [List.map_append, List.map_cons, List.nodup_append] at hnodup
        exact hnodup.2.2 e.1 (List.mem_map_of_mem he) k List.mem_cons_self
      simpa [Val.eq] using hne
    obtain ⟨t₁, he, hok, hw₁, hp₁, hlive₁⟩ : ∃ t₁, t.insert A (.str k) v = some (.ok (), t₁) ∧ t₁.Ok ∧
        t₁ = empty.withHash t₁.storage t₁.deadCount t₁.version ∧ t₁.storage.policy = {} ∧
        liveEntries t₁.storage.slots = liveFields (done ++ [(k, v)]) := by
      have hfields : liveFields (done ++ [(k, v)]) = liveFields done ++ liveFields [(k, v)] := by
        simp only [liveFields, List.map_append, liveEntries_append]
      rw [insert_str, hfields, ← hlive]
      by_cases hv : v = .nil
      · subst hv
        obtain ⟨s, dead, hr, hs, hpol, hl⟩ := hashRemove_spec h.flat.hash (.str k)
        rw [if_pos rfl, hr]
        refine ⟨_, rfl, ⟨h.window, ⟨h.flat.len_le, hs⟩⟩, by rw [hw], hpol.trans hp, ?_⟩
        have hnil : liveFields [(k, .nil)] = [] := rfl
        rw [hnil, List.append_nil]
        exact hl.trans (erase_of_absent habsent)
      · have hvlive : v.isLive = true := isLive_iff.2 hv
        obtain ⟨s, dead, version, hi, hins⟩ := hashInsert_spec (t := t) h.flat.hash rfl hvlive
          (keyOutside_str t k)
        rw [if_neg hv, hi]
        have hplain : t.storage.policy.reviveInPlace = false := by rw [hp]
        refine ⟨_, rfl, ⟨h.window, ⟨h.flat.len_le, hins.ok⟩⟩, by rw [hw], hins.policy.trans hp, ?_⟩
        have hone : liveFields [(k, v)] = [(.str k, v)] := liveEntries_cons_live hvlive
        rw [hone]
        exact (hins.entries hplain).trans (assign_of_absent habsent)
    obtain ⟨t', he', hok', hw', hp', hlive'⟩ := ih hok hw₁ hp₁ (by simpa using hnodup) hlive₁
    refine ⟨t', ?_, hok', hw', hp', by rw [hlive']; simp⟩
    simp only [insertFields, he, Option.bind_eq_bind, Option.bind_some, andThen, he']

/-- A run of edits, each with an allocator of its own, and their results. -/
inductive Edited : Table → List (Allocator × TableOp × Except TableError Val) → Table → Prop
  | nil (t : Table) : Edited t [] t
  | cons {A : Allocator} {t t₁ t₂ : Table} {op : TableOp} {r : Except TableError Val}
    {trace : List (Allocator × TableOp × Except TableError Val)} (hop : IsEdit op)
    (ha : t.Admits op) (hs : t.apply A op = some (r, t₁)) (hr : Edited t₁ trace t₂) :
    Edited t ((A, op, r) :: trace) t₂

theorem Twins.edited {trace : List (Allocator × TableOp × Except TableError Val)} (h : Twins t u)
    (hr : Edited t trace t₁) : ∃ u₁, Edited u trace u₁ ∧ Twins t₁ u₁ := by
  induction hr generalizing u with
  | nil t => exact ⟨u, .nil u, h⟩
  | cons hop ha hs _ ih =>
    obtain ⟨ha', u', hu, htwins⟩ := h.apply hop ha hs
    obtain ⟨u₁, hrun, hend⟩ := ih htwins
    exact ⟨u₁, .cons hop ha' hu hrun, hend⟩

theorem template_ok (fields : List (StringPtr × Val)) :
    (withTemplateKeys (fields.map fun e => .str e.1)).Ok := by
  refine withTemplateKeys_ok fun k hk => ?_
  obtain ⟨e, -, rfl⟩ := List.mem_map.1 hk
  rfl

/-- Fields stored in the slots of a template and fields assigned one by one make twins. -/
theorem template_twins {fields : List (StringPtr × Val)} (hnodup : (fields.map Prod.fst).Nodup)
    (A : Allocator) :
    ∃ t u, (withTemplateKeys (fields.map fun e => .str e.1)).initFields 0 fields = some (true, t) ∧
      empty.insertFields A fields = some (.ok (), u) ∧ Twins t u := by
  have hok := template_ok fields
  have hslots : (withTemplateKeys (fields.map fun e => .str e.1)).storage.slots =
      [] ++ fields.map reservedSlot := slots_template rfl hnodup fun _ _ _ hs => by cases hs
  obtain ⟨t, he, htok, hw, hp, hs⟩ := initFields_template hok rfl rfl hslots
  obtain ⟨u, he', huok, hw', hp', hs'⟩ := @insertFields_plain empty A [] fields empty_ok rfl rfl hnodup
    rfl
  refine ⟨t, u, he, he', htok, huok, ?_, ?_, by rw [Plain, hp], by rw [Plain, hp']⟩
  · rw [hw, hw']
  · have hlive : liveEntries u.storage.slots = liveEntries t.storage.slots := by
      rw [hs', hs]
      rfl
    have harr : u.flat.arr = t.flat.arr := by
      rw [hw, hw']
      rfl
    exact congrArg₂ Contents.mk harr hlive

/-- A table made from a template looks like one whose fields were assigned one by one, and
    goes on looking like it through every run of assignments, insertions and removals, however
    storage is granted. Forged stores to the slots of a template never underflow its count of
    dead slots. -/
theorem template_like_plain (fields : List (StringPtr × Val)) (hnodup : (fields.map Prod.fst).Nodup)
    (A : Allocator) :
    (∃ t u, (withTemplateKeys (fields.map fun e => .str e.1)).initFields 0 fields = some (true, t) ∧
      empty.insertFields A fields = some (.ok (), u) ∧ LooksLike t u ∧
      (∀ trace t', Edited t trace t' → ∃ u', Edited u trace u' ∧ LooksLike t' u') ∧
      ∀ trace u', Edited u trace u' → ∃ t', Edited t trace t' ∧ LooksLike t' u') ∧
    ∀ stores, ∃ t', (withTemplateKeys (fields.map fun e => .str e.1)).initForged stores = some t' ∧
      t'.deadCount = t'.storage.slots.countP fun e => !e.2.isLive := by
  obtain ⟨t, u, ht, hu, htwins⟩ := template_twins hnodup A
  refine ⟨⟨t, u, ht, hu, htwins.looksLike, fun trace t' hr => ?_, fun trace u' hr => ?_⟩,
    fun stores => ?_⟩
  · obtain ⟨u', hr', hend⟩ := htwins.edited hr
    exact ⟨u', hr', hend.looksLike⟩
  · obtain ⟨t', hr', hend⟩ := htwins.symm.edited hr
    exact ⟨t', hr', hend.symm.looksLike⟩
  · obtain ⟨t', he, hok⟩ := initForged_ok (template_ok fields) stores
    exact ⟨t', he, hok.flat.hash.dead_eq⟩

/-- A template with a nil field. -/
theorem template_like_plain_nil : ∃ t u,
    (withTemplateKeys [.str ⟨0, 0⟩, .str ⟨1, 0⟩]).initFields 0
      [(⟨0, 0⟩, .nil), (⟨1, 0⟩, .bool true)] = some (true, t) ∧
    empty.insertFields .exact [(⟨0, 0⟩, .nil), (⟨1, 0⟩, .bool true)] = some (.ok (), u) ∧
    t.storage.slots.length = 2 ∧ u.storage.slots.length = 1 ∧ LooksLike t u := by
  obtain ⟨⟨t, u, ht, hu, hlike, -⟩, -⟩ := template_like_plain
    [(⟨0, 0⟩, .nil), (⟨1, 0⟩, .bool true)] (by decide) .exact
  cases ht
  cases hu
  exact ⟨_, _, rfl, rfl, rfl, rfl, hlike⟩


end Table

end Dellingr
