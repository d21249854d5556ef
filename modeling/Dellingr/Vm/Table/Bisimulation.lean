import Dellingr.Vm.Table.Operation

/-!
# A rebuilt table

What a table does next depends on its flat table only: two tables with the same
flat table answer every later operation alike, whatever their windows are
(`SameFlat.apply`, for one operation, and `SameFlat.run`). A snapshot determines
the flat table up to the slot policy, which a rebuild resets and the owner of the
table sets again. So a table and its rebuilt copy cannot be told apart
(`rebuild_bisimilar`).

This is as long as storage is granted: the storage an operation asks for depends
on the window, and so does how much of a list is stored when the array would grow
past its limit.
-/

namespace Dellingr

open Val

namespace Table

variable {A B : Allocator} {t t' u : Table} {op : TableOp} {r : Except TableError Val}

/-! ## Observations -/

/-- Two tables look the same: by the values of keys, by the length operator, and to
    a traversal. -/
structure Agree (t u : Table) : Prop where
  get : ∀ key, t.get key = u.get key
  arrayLen : t.arrayLen = u.arrayLen
  next : ∀ key, t.next key = u.next key

/-- Two tables with the same flat table. -/
structure SameFlat (t u : Table) : Prop where
  left : t.Ok
  right : u.Ok
  flat : t.flat = u.flat

theorem SameFlat.agree (h : SameFlat t u) : Agree t u where
  get key := by
    rw [get_flat h.left (Nat.le_succ _) key, get_flat h.right (Nat.le_succ _) key, h.flat]
  arrayLen := by rw [arrayLen_flat h.left.window, arrayLen_flat h.right.window, h.flat]
  next key := by rw [next_flat h.left, next_flat h.right, h.flat]

/-! ## Runs -/

/-- The operations of a run, with their results. A list is stored whole. -/
def RunOp : TableOp → Except TableError Val → Prop
  | .insert .., _ => True
  | .arrayInsert .., _ => True
  | .arrayRemove .., _ => True
  | .setList .., r => ∃ v, r = .ok v
  | _, _ => False

/-- A run of operations, with the results they return. -/
inductive Run (A : Allocator) : Table → List (TableOp × Except TableError Val) → Table → Prop
  | nil (t : Table) : Run A t [] t
  | cons {t t₁ t₂ : Table} {op : TableOp} {r : Except TableError Val}
    {trace : List (TableOp × Except TableError Val)} (ho : RunOp op r) (ha : t.Admits op)
    (hs : t.apply A op = some (r, t₁)) (hr : Run A t₁ trace t₂) : Run A t ((op, r) :: trace) t₂

/-- With storage granted, an operation does what it does to the flat table. -/
theorem Refines.of_total {α : Type} {P : Flat → Prop} {o : Option (Outcome α)}
    {q : Except TableError α × Flat} (h : Refines A P o q) (hA : A.Total) :
    ∃ t', o = some (q.1, t') ∧ t'.WindowOk ∧ t'.flat = q.2 := by
  obtain ⟨res, t', he, hw, hr⟩ := h
  rcases hr with ⟨rfl, hf⟩ | ⟨-, hT, -⟩
  · exact ⟨t', he, hw, hf⟩
  · exact absurd hA hT

/-- Two refinements of one operation of flat tables. -/
theorem SameFlat.of_refines {α : Type} {P Q : Flat → Prop} {o o' : Option (Outcome α)}
    {q : Except TableError α × Flat} (hA : A.Total) (hB : B.Total) (ho : Refines A P o q)
    (ho' : Refines B Q o' q) (hq : q.2.Ok) :
    ∃ t₁ u₁, o = some (q.1, t₁) ∧ o' = some (q.1, u₁) ∧ SameFlat t₁ u₁ := by
  obtain ⟨t₁, he₁, hw₁, hf₁⟩ := ho.of_total hA
  obtain ⟨u₁, he₂, hw₂, hf₂⟩ := ho'.of_total hB
  exact ⟨t₁, u₁, he₁, he₂, ok_iff.2 ⟨hw₁, hf₁ ▸ hq⟩, ok_iff.2 ⟨hw₂, hf₂ ▸ hq⟩, hf₁.trans hf₂.symm⟩

/-- Tables with the same flat table do the same, and have it afterwards. -/
theorem SameFlat.apply (h : SameFlat t u) (hA : A.Total) (hB : B.Total) (ho : RunOp op r)
    (ha : t.Admits op) (hs : t.apply A op = some (r, t')) :
    u.Admits op ∧ ∃ u', u.apply B op = some (r, u') ∧ SameFlat t' u' := by
  have hflat := (ok_iff.1 h.left).2
  cases op with
  | insert key v =>
    have hu : Refines B (· = u.flat) (u.insert B key v) (u.flat.insert key v) :=
      insert_refines h.right
    rw [← h.flat] at hu
    obtain ⟨t₁, u₁, he₁, he₂, hsame⟩ := SameFlat.of_refines hA hB (insert_refines h.left) hu
      (Flat.insert_does hflat key v).ok
    simp only [Table.apply, he₁, Option.map_some] at hs
    cases hs
    exact ⟨trivial, u₁, by simp only [Table.apply, he₂, Option.map_some]; rfl, hsame⟩
  | arrayInsert pos v =>
    have hle : pos ≤ u.arrayLen + 1 := h.agree.arrayLen ▸ ha.2
    have hb : pos ≤ Contents.border ⟨t.flat.arr, []⟩ + 1 := arrayLen_flat h.left.window ▸ ha.2
    have hu : Refines B Flat.Ok (u.arrayInsert B pos v) (u.flat.arrayInsert pos v) :=
      arrayInsert_refines h.right ha.1 hle
    rw [← h.flat] at hu
    obtain ⟨t₁, u₁, he₁, he₂, hsame⟩ := SameFlat.of_refines hA hB
      (arrayInsert_refines h.left ha.1 ha.2) hu (Flat.arrayInsert_does hflat ha.1 hb).ok
    simp only [Table.apply, he₁, Option.map_some] at hs
    cases hs
    exact ⟨⟨ha.1, hle⟩, u₁, by simp only [Table.apply, he₂, Option.map_some]; rfl, hsame⟩
  | arrayRemove pos =>
    have hu : Refines B Flat.Ok (u.arrayRemove B pos)
        (.ok (u.flat.arrayRemove pos).1, (u.flat.arrayRemove pos).2) := arrayRemove_refines h.right
    rw [← h.flat] at hu
    obtain ⟨t₁, u₁, he₁, he₂, hsame⟩ := SameFlat.of_refines hA hB (arrayRemove_refines h.left) hu
      (Flat.arrayRemove_spec hflat pos).1
    rw [Table.apply, he₁] at hs
    cases hs
    exact ⟨trivial, u₁, he₂, hsame⟩
  | setList first vs =>
    obtain ⟨v, rfl⟩ := ho
    obtain ⟨res, t₁, he, hset⟩ := setList_spec (A := A) h.left first vs
    obtain ⟨res', u₁, he', hset'⟩ := setList_spec (A := B) h.right first vs
    simp only [Table.apply, he, Option.map_some, returnNil, Option.some.injEq, Prod.mk.injEq] at hs
    obtain ⟨hres, rfl⟩ := hs
    cases res with
    | error e => cases hres
    | ok _ =>
      have hst := hset.stored rfl
      -- The list is stored in the other table too, which has the same flat table.
      have hok : res' = .ok () := by
        cases res' with
        | ok _ => rfl
        | error e =>
          rcases hset'.refused e rfl with hT | ⟨e', he⟩
          · exact absurd hB hT
          · rw [← h.flat, hst] at he
            cases he
      subst hok
      refine ⟨trivial, u₁, ?_, hset.ok, hset'.ok, ?_⟩
      · simp only [Table.apply, he', Option.map_some, returnNil]
        rw [← hres]
      · have hst' := hset'.stored rfl
        rw [← h.flat, hst] at hst'
        exact (Prod.mk.inj hst').2
  | _ => exact ho.elim

theorem SameFlat.run {trace : List (TableOp × Except TableError Val)} {t₁ : Table} (h : SameFlat t u)
    (hA : A.Total) (hB : B.Total) (hr : Run A t trace t₁) : ∃ u₁, Run B u trace u₁ ∧ SameFlat t₁ u₁ := by
  induction hr generalizing u with
  | nil t => exact ⟨u, .nil u, h⟩
  | cons ho ha hs _ ih =>
    obtain ⟨ha', u', hu, hsame⟩ := h.apply hA hB ho ha hs
    obtain ⟨u₁, hrun, hend⟩ := ih hsame
    exact ⟨u₁, .cons ho ha' hu hrun, hend⟩

/-! ## Rebuilding -/

/-- The owner of a table sets the slot policy of a rebuilt copy again. -/
def restorePolicy (t rebuilt : Table) : Table :=
  if t.storage.policy = {} then rebuilt else rebuilt.setSlotPolicy t.storage.policy

theorem restorePolicy_sameFlat (h : t.Ok) (hw : t'.WindowOk)
    (hf : t'.flat = { t.flat with storage := t.storage.withPolicy {} }) :
    SameFlat t (restorePolicy t t') := by
  have hstorage : t'.storage = t.storage.withPolicy {} := congrArg Flat.storage hf
  have hrest : (restorePolicy t t').WindowOk ∧ (restorePolicy t t').flat = t.flat := by
    cases hs : t.storage with
    | inline entries =>
      have hpol : t.storage.policy = {} := by rw [hs]; rfl
      rw [restorePolicy, if_pos hpol]
      refine ⟨hw, hf.trans ?_⟩
      rw [hs, TableStorage.withPolicy, ← hs]
      rfl
    | map m policy =>
      rw [hs, TableStorage.withPolicy] at hstorage hf
      rw [restorePolicy]
      split
      · rename_i hpol
        rw [hs] at hpol
        obtain rfl : policy = {} := hpol
        exact ⟨hw, hf.trans (by rw [← hs]; rfl)⟩
      · rw [setSlotPolicy, hstorage]
        refine ⟨hw, ?_⟩
        have harr := congrArg Flat.arr hf
        have hdead := congrArg Flat.deadCount hf
        simp only [flat, hs, Flat.mk.injEq] at harr hdead ⊢
        exact ⟨harr, by rw [TableStorage.policy], hdead⟩
  exact ⟨h, ok_iff.2 ⟨hrest.1, hrest.2 ▸ (ok_iff.1 h).2⟩, hrest.2.symm⟩

/-- A table and the copy rebuilt from its snapshot, with its slot policy set again,
    return the same results and look the same after every run in which storage is
    granted. -/
theorem rebuild_bisimilar (h : t.Reachable) (fresh : Table) :
    ∃ t', fresh.rebuildFromSnapshot t.snapshotEntries.1 t.snapshotEntries.2.1
        t.snapshotEntries.2.2 = (.ok (), t') ∧
      ∀ A B : Allocator, A.Total → B.Total → ∀ trace t₁, Run A t trace t₁ →
        ∃ u₁, Run B (restorePolicy t t') trace u₁ ∧ Agree t₁ u₁ := by
  obtain ⟨t', he, hw, hf⟩ := rebuild_snapshot h.ok fresh
  refine ⟨t', he, fun A B hA hB trace t₁ hr => ?_⟩
  obtain ⟨u₁, hrun, hsame⟩ := (restorePolicy_sameFlat h.ok hw hf).run hA hB hr
  exact ⟨u₁, hrun, hsame.agree⟩

/-- A table with a window that starts after its first key, a tombstone and a slot
    policy of its own, and the removal of an element from both copies. -/
theorem rebuild_bisimilar_remove : ∃ t t' t₁ u₁ : Table, t.base = 1 ∧ t.deadCount = 1 ∧
    t.storage.policy = ⟨true, false⟩ ∧
    empty.rebuildFromSnapshot t.snapshotEntries.1 t.snapshotEntries.2.1 t.snapshotEntries.2.2 =
      (.ok (), t') ∧
    Run .exact t [(.arrayRemove 1, .ok .nil)] t₁ ∧
    Run .exact (restorePolicy t t') [(.arrayRemove 1, .ok .nil)] u₁ ∧ Agree t₁ u₁ := by
  have h₀ : Reachable _ := .withCapacity 0
  have h₁ : Reachable _ := .apply .exact (.setSlotPolicy ⟨true, false⟩) h₀ trivial rfl
  have h₂ : Reachable _ := .apply .exact (.insert (.bool true) (.bool true)) h₁ trivial rfl
  have h₃ : Reachable _ := .apply .exact (.insert (.bool true) .nil) h₂ trivial rfl
  have h₄ : Reachable _ := .apply .exact (.setList 1 [.nil, .bool true]) h₃ trivial rfl
  have h₅ : Reachable _ := .apply .exact (.append (.bool true)) h₄ trivial rfl
  have hA : Allocator.exact.Total := fun _ _ _ => rfl
  obtain ⟨t', he, hb⟩ := rebuild_bisimilar h₅ empty
  obtain ⟨u₁, hu, ha⟩ := hb .exact .exact hA hA [(.arrayRemove 1, .ok .nil)] _
    (.cons trivial trivial rfl (.nil _))
  exact ⟨_, t', _, u₁, rfl, rfl, rfl, he, .cons trivial trivial rfl (.nil _), hu, ha⟩

/-- What a rebuilt copy shows without the provisos: a cleared key that is added
    again takes its old place only under the slot policy it had; a list that does
    not fit below the limit is stored in part or not at all; and an append that
    needs no storage in one copy is refused in the other. -/
theorem rebuild_observable :
    (∃ t t' t₁ u₁ : Table, t.Reachable ∧
      empty.rebuildFromSnapshot t.snapshotEntries.1 t.snapshotEntries.2.1 t.snapshotEntries.2.2 =
        (.ok (), t') ∧
      t.apply .exact (.insert (.bool true) (.bool true)) = some (.ok .nil, t₁) ∧
      t'.apply .exact (.insert (.bool true) (.bool true)) = some (.ok .nil, u₁) ∧
      t₁.next .nil ≠ u₁.next .nil) ∧
    (∃ t t' t₁ u₁ : Table, t.Reachable ∧
      empty.rebuildFromSnapshot t.snapshotEntries.1 t.snapshotEntries.2.1 t.snapshotEntries.2.2 =
        (.ok (), t') ∧
      t.apply .exact (.setList maxArrayLen [.bool true, .bool true]) =
        some (.error .growthFailed, t₁) ∧
      t'.apply .exact (.setList maxArrayLen [.bool true, .bool true]) =
        some (.error .growthFailed, u₁) ∧
      t₁.get (Val.ofNat maxArrayLen) ≠ u₁.get (Val.ofNat maxArrayLen)) ∧
    (∃ (A : Allocator) (t t' t₁ u₁ : Table), t.Reachable ∧
      empty.rebuildFromSnapshot t.snapshotEntries.1 t.snapshotEntries.2.1 t.snapshotEntries.2.2 =
        (.ok (), t') ∧
      t.apply A (.insert (Val.ofNat 2) (.bool true)) = some (.ok .nil, t₁) ∧
      t'.apply A (.insert (Val.ofNat 2) (.bool true)) = some (.error .growthFailed, u₁) ∧
      t₁.get (Val.ofNat 2) ≠ u₁.get (Val.ofNat 2)) := by
  have h₀ : Reachable _ := .withCapacity 0
  refine ⟨?_, ?_, ?_⟩
  · have h₁ : Reachable _ := .apply .exact (.setSlotPolicy ⟨true, false⟩) h₀ trivial rfl
    have h₂ : Reachable _ := .apply .exact (.insert (.bool true) (.bool true)) h₁ trivial rfl
    have h₃ : Reachable _ := .apply .exact (.insert (.bool false) (.bool true)) h₂ trivial rfl
    have h₄ : Reachable _ := .apply .exact (.insert (.bool true) .nil) h₃ trivial rfl
    exact ⟨_, _, _, _, h₄, rfl, rfl, rfl, by decide⟩
  · -- A window that ends below its array, once the nil slot at its end is saved.
    have h₁ : Reachable _ := .apply .exact (.rebuildFromSnapshot (maxArrayLen - 1) 2
      [(.ofNat (maxArrayLen - 2), .bool true), (.ofNat (maxArrayLen - 1), .nil)]) h₀ .nil rfl
    exact ⟨_, _, _, _, h₁, rfl, rfl, rfl, by decide⟩
  · have h₁ : Reachable _ := .apply
      ⟨fun len _ additional => some (len + additional + 1), fun h => by cases h; omega⟩
      (.append (.bool true)) h₀ trivial rfl
    exact ⟨⟨fun _ _ _ => none, fun h => by cases h⟩, _, _, _, _, h₁, rfl, rfl, rfl, by decide⟩

end Table

end Dellingr
