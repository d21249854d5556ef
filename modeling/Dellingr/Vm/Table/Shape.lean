import Dellingr.Lib.Stamp
import Dellingr.Vm.Table.Operation

/-!
# The shape version

The rule every slot token rests on: while the version of a table is unchanged,
every hash slot keeps its key. The shape of a table is the list of the keys of its
hash slots, tombstones and vacant ones included; an operation that does more to it
than append slots moves the version.

* `MovesLe b t t'`: the version moved at most `b` times from `t` to `t'`, and the
  shape has only grown if it did not move (`Dellingr.Lib.Stamp`);
* `Edits b t t'`: the same, and the slot policy and the metatable are kept;
* `hashRemove_edits`, `compactDead_edits`, …: each step of an operation;
* `apply_edits`: each operation on the entries of a table;
* `apply_moves`: each operation; a swap may carry the version anywhere.

The version has 64 bits and wraps. `TableOp.versionMoves` says how far an operation
moves it and `Table.VersionRun` adds that up along a run, so that a token is sound until
the version has gone all the way round (`VersionRun.moves`).
-/

namespace Dellingr

namespace Table

open Stamp

/-- The keys of the hash slots, in order. -/
def shape (t : Table) : List TableKey := t.storage.slots.map Prod.fst

/-- The version moved at most `b` times; without a move, the shape has only grown. -/
abbrev MovesLe (b : Nat) (t t' : Table) : Prop := Stamp.MovesLe Table.version Table.shape b t t'

variable {t t' u : Table} {A : Allocator} {key v : Val} {b c : Nat}

/-- A change of the entries of a table: the version moved at most `b` times, without a
    move the shape has only grown, and the slot policy and the metatable are kept. -/
structure Edits (b : Nat) (t t' : Table) : Prop where
  moves : MovesLe b t t'
  policy : t'.storage.policy = t.storage.policy
  metatable : t'.metatable = t.metatable

namespace Edits

theorem refl (t : Table) : Edits b t t := ⟨Stamp.MovesLe.refl t, rfl, rfl⟩

theorem mono (h : Edits b t t') (hb : b ≤ c) : Edits c t t' := ⟨h.moves.mono hb, h.policy, h.metatable⟩

theorem trans (h : Edits b t t') (h' : Edits c t' u) : Edits (b + c) t u :=
  ⟨h.moves.trans h'.moves, h'.policy.trans h.policy, h'.metatable.trans h.metatable⟩

theorem of_grows (hv : t'.version = t.version) (hg : t.shape <+: t'.shape)
    (hp : t'.storage.policy = t.storage.policy) (hm : t'.metatable = t.metatable) : Edits b t t' :=
  ⟨MovesLe.of_grows hv hg, hp, hm⟩

theorem of_move (hv : t'.version = t.version + 1) (hp : t'.storage.policy = t.storage.policy)
    (hm : t'.metatable = t.metatable) : Edits (b + 1) t t' :=
  ⟨MovesLe.of_move hv, hp, hm⟩

end Edits

/-- Nothing of the hash part changed but values. -/
theorem edits_of_shape (hv : t'.version = t.version) (hs : t'.shape = t.shape)
    (hp : t'.storage.policy = t.storage.policy) (hm : t'.metatable = t.metatable) : Edits b t t' :=
  .of_grows hv (hs ▸ List.prefix_rfl) hp hm

/-- The hash part is the same. -/
theorem edits_of_storage (hv : t'.version = t.version) (hs : t'.storage = t.storage)
    (hm : t'.metatable = t.metatable) : Edits b t t' :=
  edits_of_shape hv (by rw [shape, hs, shape]) (by rw [hs]) hm

theorem map_fst_setAt (s : TableStorage) (i : Nat) (v : Val) :
    (s.setAt i v).slots.map Prod.fst = s.slots.map Prod.fst := by
  rw [TableStorage.slots_setAt, IndexMap.map_fst_modify]

theorem policy_setAt (s : TableStorage) (i : Nat) (v : Val) : (s.setAt i v).policy = s.policy := by
  cases s <;> rfl

/-- The value of one slot changed. -/
theorem edits_of_setAt {i : Nat} (hv : t'.version = t.version) (hs : t'.storage = t.storage.setAt i v)
    (hm : t'.metatable = t.metatable) : Edits b t t' :=
  edits_of_shape hv (by rw [shape, hs, map_fst_setAt, shape]) (by rw [hs, policy_setAt]) hm

/-- Continue an operation that moved the version at most `b` times. -/
theorem andThen_edits {α β : Type} {o : Outcome α} {f : α → Table → Option (Outcome β)}
    {r : Except TableError β} (h : andThen o f = some (r, u)) (ho : Edits b t o.2)
    (hf : ∀ a t', o = (.ok a, t') → f a t' = some (r, u) → Edits c t' u) :
    Edits (b + c) t u := by
  obtain ⟨res, t'⟩ := o
  cases res with
  | error e =>
    cases h
    exact ho.mono (Nat.le_add_right _ _)
  | ok a => exact ho.trans (hf a t' rfl h)

/-! ## The window -/

theorem reserveArray_edits (n : Nat) : Edits b t (t.reserveArray A n).2 := by
  rw [reserveArray]
  split
  · split <;> exact edits_of_storage rfl rfl rfl
  · exact Edits.refl t

theorem writeWindow_edits {p : Nat} (h : t.writeWindow p v = some t') : Edits b t t' := by
  obtain ⟨old, -, h⟩ := Option.bind_eq_some_iff.1 h
  obtain ⟨live, -, h⟩ := Option.bind_eq_some_iff.1 h
  obtain rfl := Option.some.inj h
  simp only [notePrefixWrite]
  split
  · split
    · exact edits_of_storage rfl rfl rfl
    · split <;> exact edits_of_storage rfl rfl rfl
  · exact edits_of_storage rfl rfl rfl

theorem prepareAppendAfterLead_edits : Edits b t (t.prepareAppendAfterLead A).2 := by
  have hdrop : Edits 0 t (if t.array.length ≤ t.lead * 2 then t.dropDeadPrefix else t) := by
    split <;> exact edits_of_storage rfl rfl rfl
  rw [prepareAppendAfterLead]
  split
  · split <;> exact edits_of_storage rfl rfl rfl
  · generalize (if t.array.length ≤ t.lead * 2 then t.dropDeadPrefix else t) = t₁ at hdrop
    simp only
    split
    · have hres : Edits b t₁ (t₁.reserveArray A (t₁.vlen - t₁.base)).2 := reserveArray_edits _
      generalize t₁.reserveArray A (t₁.vlen - t₁.base) = o at hres
      have hboth : Edits b t o.2 := (hdrop.trans hres).mono (by omega)
      obtain ⟨_ | _, t₂⟩ := o
      · exact hboth
      · exact hboth.trans (c := 0) (edits_of_storage rfl rfl rfl)
    · exact hdrop.mono (Nat.zero_le _)

theorem reserveAppend_edits {r : Except TableError Unit} (h : t.reserveAppend A = some (r, t')) :
    Edits b t t' := by
  obtain ⟨g, -, h⟩ := Option.bind_eq_some_iff.1 h
  cases g with
  | error e =>
    cases h
    exact Edits.refl _
  | ok n =>
    obtain rfl : _ = t' := congrArg Prod.snd (Option.some.inj h)
    exact reserveArray_edits _

theorem writeOutsideWindow_edits {n : Nat} {r : Except TableError Unit}
    (h : t.writeOutsideWindow A n v = some (r, t')) : Edits b t t' := by
  have hres : Edits b t (t.reserveOutsideWindow A n 0 0).2 := reserveArray_edits _
  rw [writeOutsideWindow] at h
  generalize t.reserveOutsideWindow A n 0 0 = o at h hres
  obtain ⟨_ | _, t₁⟩ := o
  · cases h
    exact hres
  · have hwin : t'.version = t₁.version ∧ t'.storage = t₁.storage ∧ t'.metatable = t₁.metatable := by
      simp only at h
      split at h
      · cases h
        exact ⟨rfl, rfl, rfl⟩
      · split at h
        · obtain ⟨base, -, h⟩ := Option.bind_eq_some_iff.1 h
          obtain ⟨grow, -, h⟩ := Option.bind_eq_some_iff.1 h
          obtain ⟨_, -, h⟩ := Option.bind_eq_some_iff.1 h
          cases h
          exact ⟨rfl, rfl, rfl⟩
        · obtain ⟨len, -, h⟩ := Option.bind_eq_some_iff.1 h
          obtain ⟨_, -, h⟩ := Option.bind_eq_some_iff.1 h
          cases h
          exact ⟨rfl, rfl, rfl⟩
    exact (hres.trans (edits_of_storage (b := 0) hwin.1 hwin.2.1 hwin.2.2)).mono (Nat.le_refl _)

theorem prepareListAppend_edits {n : Nat} {r : Except TableError Unit}
    (h : t.prepareListAppend A n = some (r, t')) : Edits 0 t t' := by
  obtain ⟨plain, -, h⟩ := Option.bind_eq_some_iff.1 h
  split at h
  · obtain rfl : _ = t' := congrArg Prod.snd (Option.some.inj h)
    exact reserveArray_edits _
  · have hlead : Edits 0 t t.advanceLead := edits_of_storage rfl rfl rfl
    have hprep : Edits 0 t (t.prepareAppend A).2 := hlead.trans (c := 0) prepareAppendAfterLead_edits
    refine andThen_edits (c := 0) h hprep fun _ t₁ _ h => ?_
    obtain rfl : _ = t' := congrArg Prod.snd (Option.some.inj h)
    exact reserveArray_edits _

/-! ## The hash part -/

/-- A removal leaves a tombstone under the same key. -/
theorem hashRemove_edits : Edits b t (t.hashRemove key).2 := by
  rw [hashRemove]
  split
  · exact Edits.refl t
  · split
    · exact Edits.refl t
    · split
      · exact edits_of_setAt rfl rfl rfl
      · exact Edits.refl t

theorem compactDead_edits : Edits 1 t t.compactDead := by
  rw [compactDead]
  split
  · exact Edits.refl t
  · refine Edits.of_move rfl ?_ rfl
    cases t.storage <;> rfl

/-- The version of a table that compacts, wherever there is a dead slot. -/
theorem compactDead_version (hd : t.deadCount ≠ 0) (hr : t.retainsDead = false) :
    t.compactDead.version = t.version + 1 := by
  rw [compactDead, if_neg (by simp [hd, hr])]
  rfl

theorem pushInline_version (h : t.pushInline key v = some t') : t'.version = t.version ∧
    t'.storage.policy = t.storage.policy ∧ t'.metatable = t.metatable := by
  rw [pushInline] at h
  cases hs : t.storage with
  | inline entries =>
    simp only [hs] at h
    split at h
    · cases h
      exact ⟨rfl, rfl, rfl⟩
    · cases h
      simp only [promoteToMap, hs]
      trivial
  | map m policy =>
    simp only [hs, reduceCtorEq] at h

theorem promoteToMap_edits (h : SlotsOk t.storage.slots) (k : TableKey) :
    Edits b t (t.promoteToMap k v) := by
  cases hs : t.storage with
  | inline entries =>
    rw [hs] at h
    have hslots := slots_foldl_insert (m := ⟨[]⟩) h
    simp only [promoteToMap, hs]
    refine Edits.of_grows rfl ?_ (by rw [hs]; rfl) rfl
    simp only [shape, hs, TableStorage.slots_map]
    rw [List.nil_append] at hslots
    rw [← hslots]
    exact IndexMap.prefix_insert _ _ _
  | map m policy =>
    rw [promoteToMap, hs]
    exact Edits.refl t

theorem insertWithoutTombstones_edits (h : SlotsOk t.storage.slots) :
    Edits b t (t.insertWithoutTombstones key v) := by
  cases hs : t.storage with
  | inline entries =>
    simp only [insertWithoutTombstones, hs]
    split
    · exact edits_of_setAt rfl (by rw [hs]; rfl) rfl
    · split
      · refine Edits.of_grows rfl ?_ (by rw [hs]; rfl) rfl
        simp [shape, hs, TableStorage.slots]
      · exact promoteToMap_edits h _
  | map m policy =>
    simp only [insertWithoutTombstones, hs]
    refine Edits.of_grows rfl ?_ (by rw [hs]; rfl) rfl
    simp only [shape, hs, TableStorage.slots_map]
    exact IndexMap.prefix_insert _ _ _

theorem insertInlineWithTombstones_edits {entries : List (Val × Val)} (hs : t.storage = .inline entries)
    (hok : SlotsOk t.storage.slots) (hd : t.deadCount ≠ 0) (h : t.insertInlineWithTombstones entries key v = some t') :
    Edits 1 t t' := by
  rw [insertInlineWithTombstones] at h
  split at h
  · cases h
    exact edits_of_setAt rfl (by rw [hs]; rfl) rfl
  · split at h
    · -- The tombstone of the key is shifted out.
      obtain ⟨dead, -, h⟩ := Option.bind_eq_some_iff.1 h
      obtain ⟨hv, hp, hm⟩ := pushInline_version h
      exact Edits.of_move hv (by rw [hp, hs]; rfl) hm
    · obtain ⟨live, -, h⟩ := Option.bind_eq_some_iff.1 h
      by_cases hc : live ≤ t.deadCount ∨ entries.length = inlineCapacity
      · rw [if_pos hc] at h
        have hr : t.retainsDead = false := by rw [retainsDead, hs]
        obtain ⟨hv, hp, hm⟩ := pushInline_version h
        have hcd := compactDead_edits (t := t)
        exact Edits.of_move (hv.trans (compactDead_version hd hr)) (hp.trans hcd.policy)
          (hm.trans hcd.metatable)
      · rw [if_neg hc, pushInline, hs] at h
        simp only at h
        split at h
        · cases h
          exact Edits.of_grows rfl (by simp [shape, hs, TableStorage.slots]) (by rw [hs]; rfl) rfl
        · cases h
          exact promoteToMap_edits hok _

theorem pushMap_edits {k : TableKey} (h : t.pushMap k v = some t') : Edits 1 t t' := by
  obtain ⟨live, -, h⟩ := Option.bind_eq_some_iff.1 h
  have hc : Edits 1 t (if live ≤ t.deadCount then t.compactDead else t) := by
    split
    · exact compactDead_edits
    · exact Edits.refl t
  generalize (if live ≤ t.deadCount then t.compactDead else t) = t₁ at h hc
  cases hs : t₁.storage with
  | inline entries => simp [hs] at h
  | map m policy =>
    simp only [hs, Option.pure_def, Option.some.injEq] at h
    subst h
    refine hc.trans (c := 0) (Edits.of_grows rfl ?_ (by rw [hs]; rfl) rfl)
    simp only [shape, hs, TableStorage.slots_map]
    exact IndexMap.prefix_insert _ _ _

/-- A tombstoned key is revived in place, or its slot is vacated. -/
theorem insertIntoMapWithTombstones_edits {m : IndexMap TableKey Val} {policy : SlotPolicy}
    (hs : t.storage = .map m policy) (h : t.insertIntoMapWithTombstones m policy key v = some t') :
    Edits 2 t t' := by
  rw [insertIntoMapWithTombstones] at h
  split at h
  · rename_i i _ existing _
    split at h
    · cases h
      exact edits_of_setAt (i := i) rfl (by rw [hs]; rfl) rfl
    · split at h
      · obtain ⟨dead, -, h⟩ := Option.bind_eq_some_iff.1 h
        cases h
        exact edits_of_setAt (i := i) rfl (by rw [hs]; rfl) rfl
      · obtain ⟨m', -, h⟩ := Option.bind_eq_some_iff.1 h
        have hbump : Edits 1 t (Table.bumpVersion { t with storage := .map m' policy }) :=
          .of_move rfl (by rw [hs]; rfl) rfl
        exact hbump.trans (pushMap_edits h)
  · exact (pushMap_edits h).mono (by omega)

theorem hashInsert_edits (hok : SlotsOk t.storage.slots) (h : t.hashInsert key v = some t') :
    Edits 2 t t' := by
  rw [hashInsert] at h
  split at h
  · cases h
    exact insertWithoutTombstones_edits hok
  · rename_i hd
    split at h
    · rename_i entries hs
      exact (insertInlineWithTombstones_edits hs hok hd h).mono (by omega)
    · rename_i m policy hs
      exact insertIntoMapWithTombstones_edits hs h

/-- A migrated entry leaves a tombstone under its key. -/
theorem migrateLoop_edits {fuel : Nat} {m : Bool} : Edits 0 t (migrateLoop fuel m t).2 := by
  induction fuel generalizing t m with
  | zero => exact Edits.refl t
  | succ fuel ih =>
    have hrem : Edits 0 t (t.hashRemove (Val.ofNat (t.vlen + 1))).2 := hashRemove_edits
    rw [migrateLoop]
    generalize t.hashRemove (Val.ofNat (t.vlen + 1)) = r at hrem
    obtain ⟨_ | value, t₁⟩ := r
    · exact hrem
    · have hpush : Edits 0 t₁ ({ t₁ with vlen := t₁.vlen + 1 }.pushSlot value) :=
        edits_of_storage rfl rfl rfl
      exact (hrem.trans hpush).trans ih

theorem migrateFromHash_edits (h : t.migrateFromHash = some t') : Edits 1 t t' := by
  obtain ⟨live, -, h⟩ := Option.bind_eq_some_iff.1 h
  split at h
  · cases h
    exact Edits.refl _
  · have hloop : Edits 0 t (migrateLoop (t.hashSlotCount + 1) false t).2 := migrateLoop_edits
    generalize migrateLoop (t.hashSlotCount + 1) false t = r at h hloop
    obtain ⟨m, t₁⟩ := r
    obtain ⟨live, -, h⟩ := Option.bind_eq_some_iff.1 h
    obtain rfl := Option.some.inj h
    split
    · exact Edits.trans hloop compactDead_edits
    · exact hloop.mono (by omega)

/-! ## Appends and insertions -/

theorem appendSlow_edits {r : Except TableError Unit} (h : t.appendSlow A v = some (r, t')) :
    Edits 1 t t' := by
  obtain ⟨g, -, h⟩ := Option.bind_eq_some_iff.1 h
  cases g with
  | error e =>
    cases h
    exact Edits.refl _
  | ok _ =>
    have hprep : Edits 0 t (t.prepareAppendAfterLead A).2 := prepareAppendAfterLead_edits
    refine (andThen_edits (c := 1) h hprep fun _ t₁ _ h => ?_).mono (by omega)
    obtain ⟨⟨res, t₂⟩, hres, h⟩ := Option.bind_eq_some_iff.1 h
    refine (andThen_edits (c := 1) h (reserveAppend_edits (b := 0) hres) fun _ t₃ _ h => ?_).mono
      (by omega)
    obtain ⟨t₄, hmig, heq⟩ := Option.map_eq_some_iff.1 h
    cases heq
    have hpush : Edits 0 t₃ ({ t₃ with vlen := t₃.vlen + 1 }.pushSlot v) := edits_of_storage rfl rfl rfl
    exact (hpush.trans (migrateFromHash_edits hmig)).mono (by omega)

theorem append_edits {r : Except TableError Unit} (h : t.append A v = some (r, t')) :
    Edits 1 t t' := by
  have hlead : Edits 0 t t.advanceLead := edits_of_storage rfl rfl rfl
  rw [append] at h
  split at h
  · exact (hlead.trans (appendSlow_edits h)).mono (by omega)
  · obtain ⟨live, -, h⟩ := Option.bind_eq_some_iff.1 h
    split at h
    · exact (hlead.trans (appendSlow_edits h)).mono (by omega)
    · cases Option.some.inj h
      exact edits_of_storage rfl rfl rfl

theorem insert_edits {r : Except TableError Unit} (hok : SlotsOk t.storage.slots)
    (h : t.insert A key v = some (r, t')) : Edits 2 t t' := by
  rw [insert] at h
  split at h
  · obtain ⟨t₁, hw, heq⟩ := Option.map_eq_some_iff.1 h
    cases heq
    exact writeWindow_edits hw
  · split at h
    · cases h
      exact Edits.refl _
    · split at h
      · cases h
        exact hashRemove_edits
      · split at h
        · exact (append_edits h).mono (by omega)
        · split at h
          · exact writeOutsideWindow_edits h
          · obtain ⟨t₁, hi, heq⟩ := Option.map_eq_some_iff.1 h
            cases heq
            exact hashInsert_edits hok hi

theorem remove_edits (h : t.remove key = some t') : Edits b t t' := by
  rw [remove] at h
  split at h
  · exact writeWindow_edits h
  · cases h
    exact hashRemove_edits

/-! ## Lists and sequences -/

theorem setListElement_edits {n : Nat} {r : Except TableError Unit} (hok : SlotsOk t.storage.slots)
    (h : t.setListElement A n v = some (r, t')) : Edits 2 t t' := by
  rw [setListElement] at h
  split at h
  · exact (append_edits h).mono (by omega)
  · exact insert_edits hok h

/-- Storing an element keeps the invariant. -/
theorem setListElement_ok {n : Nat} {r : Except TableError Unit} (hok : t.Ok)
    (h : t.setListElement A n v = some (r, t')) : t'.Ok := by
  have hflat := (ok_iff.1 hok).2
  obtain ⟨res, u, he, hu⟩ := ((setListElement_refines (A := A) hok n v).mono
    fun f hf => (hf ▸ hflat : f.Ok)).ok (Flat.storeElement_does hflat n v).ok
  rw [h] at he
  cases he
  exact hu

theorem setListLoop_edits {vs : List Val} {n : Nat} {reserved hashMayMigrate : Bool}
    {r : Except TableError Unit} (hok : t.Ok)
    (h : setListLoop A vs n reserved hashMayMigrate t = some (r, t')) :
    Edits (2 * vs.length) t t' := by
  induction vs generalizing t n reserved hashMayMigrate with
  | nil =>
    cases h
    exact Edits.refl _
  | cons v vs ih =>
    obtain ⟨candidate, -, h⟩ := Option.bind_eq_some_iff.1 h
    obtain ⟨bulk, -, h⟩ := Option.bind_eq_some_iff.1 h
    split at h
    · obtain ⟨g, -, h⟩ := Option.bind_eq_some_iff.1 h
      cases g with
      | error e =>
        cases h
        exact Edits.refl _
      | ok _ =>
        refine (andThen_edits (c := 0) h (reserveArray_edits (b := 0) _) fun _ t₁ _ h => ?_).mono
          (by omega)
        cases h
        exact edits_of_storage rfl rfl rfl
    · obtain ⟨⟨res, t₁⟩, hprep, h⟩ := Option.bind_eq_some_iff.1 h
      have hp : Edits 0 t t₁ ∧ t₁.Ok := by
        split at hprep
        · obtain ⟨_, _, he, hok₁, -⟩ := @prepareListAppend_flat t A hok (1 + vs.length)
          rw [hprep] at he
          cases he
          exact ⟨prepareListAppend_edits hprep, hok₁⟩
        · cases hprep
          exact ⟨Edits.refl _, hok⟩
      refine (andThen_edits (c := 2 + 2 * vs.length) h hp.1 fun _ t₁' ho h => ?_).mono
        (by simp only [List.length_cons]; omega)
      cases ho
      obtain ⟨⟨res, t₂⟩, helem, h⟩ := Option.bind_eq_some_iff.1 h
      have hm := setListElement_edits hp.2.flat.hash.slots_ok helem
      refine andThen_edits h hm fun _ t₃ ho h => ?_
      cases ho
      exact ih (setListElement_ok hp.2 helem) h

theorem arrayInsert_edits {pos : Nat} {r : Except TableError Unit} (hok : SlotsOk t.storage.slots)
    (h : t.arrayInsert A pos v = some (r, t')) : Edits 2 t t' := by
  rw [arrayInsert] at h
  simp only at h
  split at h
  · exact insert_edits hok h
  · obtain ⟨g, -, h⟩ := Option.bind_eq_some_iff.1 h
    cases g with
    | error e =>
      cases h
      exact Edits.refl _
    | ok extra =>
      obtain ⟨liveDelta, -, h⟩ := Option.bind_eq_some_iff.1 h
      refine (andThen_edits (b := 0) (c := 1) h ?_ fun _ t₁ _ h => ?_).mono (by omega)
      · split
        · exact reserveArray_edits _
        · exact reserveArray_edits _
      · -- The slot the rotation consumes, the rotation, the migration, the write.
        have hgrow : Edits 0 t₁ (if (t.arrayLen == t.vlen) = true then
            ({ t₁ with vlen := t₁.vlen + 1 } : Table).pushSlot .nil
            else if t.arrayLen = t₁.base + t₁.array.length then t₁.pushSlot .nil else t₁) := by
          split
          · exact edits_of_storage rfl rfl rfl
          · split <;> exact edits_of_storage rfl rfl rfl
        generalize (if (t.arrayLen == t.vlen) = true then
            ({ t₁ with vlen := t₁.vlen + 1 } : Table).pushSlot .nil
            else if t.arrayLen = t₁.base + t₁.array.length then t₁.pushSlot .nil else t₁) = t₂
          at hgrow h
        obtain ⟨high, -, h⟩ := Option.bind_eq_some_iff.1 h
        obtain ⟨array, -, h⟩ := Option.bind_eq_some_iff.1 h
        obtain ⟨t₃, hmig, h⟩ := Option.bind_eq_some_iff.1 h
        have hrot : Edits 0 t₂ { t₂ with array := array } := edits_of_storage rfl rfl rfl
        have hm : Edits 1 ({ t₂ with array := array } : Table) t₃ := by
          split at hmig
          · exact migrateFromHash_edits hmig
          · cases hmig
            exact Edits.refl _
        have hw : Edits 0 t₃ t' := by
          split at h
          · obtain ⟨t₄, hw, heq⟩ := Option.map_eq_some_iff.1 h
            cases heq
            exact writeWindow_edits hw
          · split at h
            · exact writeOutsideWindow_edits h
            · cases h
              exact Edits.refl _
        exact (((hgrow.trans hrot).trans hm).trans hw).mono (by omega)

theorem arrayRemove_edits {pos : Nat} {r : Except TableError Val}
    (h : t.arrayRemove A pos = some (r, t')) : Edits 0 t t' := by
  rw [arrayRemove] at h
  simp only at h
  split at h
  · obtain ⟨firstLive, -, h⟩ := Option.bind_eq_some_iff.1 h
    refine andThen_edits (b := 0) (c := 0) h ?_ fun _ t₁ _ h => ?_
    · split
      · exact reserveArray_edits _
      · exact Edits.refl _
    · obtain ⟨last, -, h⟩ := Option.bind_eq_some_iff.1 h
      split at h
      · obtain ⟨array, -, h⟩ := Option.bind_eq_some_iff.1 h
        obtain ⟨live, -, h⟩ := Option.bind_eq_some_iff.1 h
        cases Option.some.inj h
        exact edits_of_storage rfl rfl rfl
      · obtain ⟨first, -, h⟩ := Option.bind_eq_some_iff.1 h
        obtain ⟨array, -, h⟩ := Option.bind_eq_some_iff.1 h
        obtain ⟨live, -, h⟩ := Option.bind_eq_some_iff.1 h
        have hshift : Edits 0 t₁ { t₁ with array := array, arrayLive := live, lead := 0 } :=
          edits_of_storage rfl rfl rfl
        split at h
        · obtain ⟨⟨res, t₂⟩, hw, h⟩ := Option.bind_eq_some_iff.1 h
          refine andThen_edits (c := 0) h (hshift.trans (writeOutsideWindow_edits (b := 0) hw))
            fun _ t₃ ho h => ?_
          cases ho
          cases h
          exact Edits.refl _
        · cases Option.some.inj h
          exact hshift
  · obtain ⟨t₁, hr, heq⟩ := Option.map_eq_some_iff.1 h
    cases heq
    exact remove_edits hr

/-! ## Slots by index -/

theorem writeSlot_edits {i : Nat} {f : Bool} (h : t.writeSlot i v = some (f, t')) :
    Edits b t t' := by
  rw [writeSlot] at h
  split at h
  · obtain ⟨dead, -, h⟩ := Option.bind_eq_some_iff.1 h
    cases Option.some.inj h
    exact edits_of_setAt rfl rfl rfl
  · cases h
    exact Edits.refl _

theorem setAtIndex_edits {index : SlotIndex} : Edits b t (t.setAtIndex index v).2 := by
  unfold setAtIndex
  split
  · split
    · split <;> exact edits_of_storage rfl rfl rfl
    · exact Edits.refl _
  · split
    · split
      · exact edits_of_setAt rfl rfl rfl
      · exact Edits.refl _
    · exact Edits.refl _

theorem removeAtIndex_edits {index : SlotIndex} {f : Bool} (h : t.removeAtIndex index = some (f, t')) :
    Edits b t t' := by
  unfold removeAtIndex at h
  split at h
  · split at h
    · split at h
      · obtain ⟨t₁, hw, heq⟩ := Option.map_eq_some_iff.1 h
        cases heq
        exact writeWindow_edits hw
      · cases h
        exact Edits.refl _
    · cases h
      exact Edits.refl _
  · split at h
    · split at h
      · cases h
        exact edits_of_setAt rfl rfl rfl
      · cases h
        exact Edits.refl _
    · cases h
      exact Edits.refl _

theorem initAtIndex_edits {index : SlotIndex} {f : Bool}
    (h : t.initAtIndex index key v = some (f, t')) : Edits b t t' := by
  unfold initAtIndex at h
  split at h
  · cases h
    exact Edits.refl _
  · split at h
    · split at h
      · cases h
        exact Edits.refl _
      · simp only at h
        split at h
        · obtain ⟨dead, -, h⟩ := Option.bind_eq_some_iff.1 h
          cases Option.some.inj h
          exact edits_of_setAt rfl rfl rfl
        · split at h <;> cases h <;> exact edits_of_setAt rfl rfl rfl
    · cases h
      exact Edits.refl _

/-! ## Snapshots, swaps and the slot policy -/

theorem rebuildFromSnapshot_moves (vlen arraySlots : Nat) (entries : List (Val × Val)) :
    MovesLe 1 t (t.rebuildFromSnapshot vlen arraySlots entries).2 := by
  rw [rebuildFromSnapshot]
  split
  · exact MovesLe.refl _
  · split
    · exact MovesLe.refl _
    · split
      · exact MovesLe.refl _
      · simp only
        split
        · exact MovesLe.refl _
        · split
          · exact MovesLe.refl _
          · exact MovesLe.of_move rfl

theorem policy_setSlotPolicy (t : Table) (policy : SlotPolicy) :
    (t.setSlotPolicy policy).storage.policy = policy := by
  rw [setSlotPolicy]
  split <;> rfl

theorem version_setSlotPolicy (t : Table) (policy : SlotPolicy) :
    (t.setSlotPolicy policy).version = t.version := by
  rw [setSlotPolicy]
  split <;> rfl

theorem setSlotPolicy_moves (h : t.Ok) (policy : SlotPolicy) : MovesLe b t (t.setSlotPolicy policy) := by
  have hs : (t.setSlotPolicy policy).shape = t.shape := by rw [shape, shape, setSlotPolicy_slots h]
  exact MovesLe.of_grows (version_setSlotPolicy t policy) (hs ▸ List.prefix_rfl)

end Table

/-! ## Every operation -/

/-- An operation on the entries of a table. The others replace the contents of the
    table, or set its slot policy, and are left to its owner. -/
def TableOp.IsRaw : TableOp → Prop
  | .rebuildFromSnapshot .. | .swapContents _ | .setSlotPolicy _ => False
  | _ => True

/-- How often an operation may move the version; a slice of values is shorter than
    the address space, so this is far from a whole round. -/
def TableOp.movesBound : TableOp → Nat
  | .setList _ values => 2 * values.length
  | _ => 2

/-- The operand fits the address space, which has no room for more than `2 ^ 59`
    values of 16 bytes each in one slice. -/
def TableOp.Fits : TableOp → Prop
  | .setList _ values => values.length < 2 ^ 59
  | _ => True

theorem TableOp.Fits.movesBound_lt {op : TableOp} (h : op.Fits) : op.movesBound < 2 ^ 64 := by
  cases op with
  | setList first values =>
    have hlt : values.length < 2 ^ 59 := h
    simp only [movesBound]
    omega
  | _ => exact (by decide : 2 < 2 ^ 64)

/-- How far an operation moves the version. The contents swapped in bring a version
    of their own, which may carry it all the way round. -/
def TableOp.versionMoves (op : TableOp) (t t' : Table) : Nat :=
  match op with
  | .swapContents incoming => (max incoming.version t.version).toNat + 1 - t.version.toNat
  | _ => (t'.version - t.version).toNat

namespace Table

variable {t t' u : Table} {A : Allocator} {op : TableOp} {n : Nat} {r : Except TableError Val}

/-- An operation on the entries keeps the rule, and moves the version a few times only. -/
theorem apply_edits (h : t.Ok) (hraw : op.IsRaw) (ha : t.apply A op = some (r, t')) :
    Edits op.movesBound t t' := by
  -- The table an operation leaves behind does not depend on how its result is read.
  have hunit : ∀ {o : Option (Outcome Unit)} {b : Nat},
      (∀ res t₁, o = some (res, t₁) → Edits b t t₁) →
      o.map returnNil = some (r, t') → Edits b t t' := by
    intro o b ho hm
    obtain ⟨⟨res, t₁⟩, rfl, heq⟩ := Option.map_eq_some_iff.1 hm
    cases heq
    exact ho res t₁ rfl
  have hflag : ∀ {o : Option (Bool × Table)} {b : Nat}, (∀ f t₁, o = some (f, t₁) → Edits b t t₁) →
      o.map returnFlag = some (r, t') → Edits b t t' := by
    intro o b ho hm
    obtain ⟨⟨f, t₁⟩, rfl, heq⟩ := Option.map_eq_some_iff.1 hm
    cases heq
    exact ho f t₁ rfl
  have hslots := h.flat.hash.slots_ok
  cases op with
  | insert key v => exact hunit (fun _ _ hi => insert_edits hslots hi) ha
  | append v => exact hunit (fun _ _ hi => (append_edits hi).mono (Nat.le_succ 1)) ha
  | writeSlot i v => exact hflag (fun _ _ hi => writeSlot_edits hi) ha
  | setAtIndex index v =>
    cases ha
    exact setAtIndex_edits
  | removeAtIndex index => exact hflag (fun _ _ hi => removeAtIndex_edits hi) ha
  | initAtIndex index key v => exact hflag (fun _ _ hi => initAtIndex_edits hi) ha
  | setList first vs => exact hunit (fun _ _ hi => setListLoop_edits h hi) ha
  | arrayInsert pos v => exact hunit (fun _ _ hi => arrayInsert_edits hslots hi) ha
  | arrayRemove pos => exact (arrayRemove_edits ha).mono (Nat.zero_le _)
  | compactDead =>
    cases ha
    exact compactDead_edits.mono (Nat.le_succ 1)
  | rebuildFromSnapshot vlen arraySlots entries => exact absurd hraw id
  | swapContents incoming => exact absurd hraw id
  | setSlotPolicy policy => exact absurd hraw id

/-- Every operation but a swap keeps the rule, and moves the version a few times only. -/
theorem apply_movesLe (h : t.Ok) (hs : ∀ incoming, op ≠ .swapContents incoming)
    (ha : t.apply A op = some (r, t')) : MovesLe op.movesBound t t' := by
  cases op with
  | rebuildFromSnapshot vlen arraySlots entries =>
    cases ha
    exact (rebuildFromSnapshot_moves _ _ _).mono (Nat.le_succ 1)
  | swapContents incoming => exact absurd rfl (hs incoming)
  | setSlotPolicy policy =>
    cases ha
    exact setSlotPolicy_moves h policy
  | _ => exact (apply_edits h (by trivial) ha).moves

theorem toNat_le_max (a b : UInt64) : b.toNat ≤ (max a b).toNat := by
  change b.toNat ≤ (if a ≤ b then b else a).toNat
  split
  · exact Nat.le_refl _
  · rename_i h
    rw [UInt64.le_iff_toNat_le] at h
    omega

/-- The version moves as `versionMoves` says; without a move, every hash slot keeps
    its key. -/
theorem apply_moves (h : t.Ok) (hf : op.Fits) (ha : t.apply A op = some (r, t')) :
    Stamp.Moves Table.version Table.shape (op.versionMoves t t') t t' := by
  by_cases hs : ∃ incoming, op = .swapContents incoming
  · obtain ⟨incoming, rfl⟩ := hs
    cases ha
    have hle := toNat_le_max incoming.version t.version
    refine ⟨?_, fun hz => absurd hz (Nat.ne_of_gt (Nat.sub_pos_of_lt (Nat.lt_succ_of_le hle)))⟩
    have hadd : UInt64.ofNat (t.version.toNat + ((max incoming.version t.version).toNat + 1 -
        t.version.toNat)) = max incoming.version t.version + 1 := by
      rw [Nat.add_sub_cancel' (by omega), UInt64.ofNat_add, UInt64.ofNat_toNat]
      rfl
    rw [UInt64.ofNat_add, UInt64.ofNat_toNat] at hadd
    exact hadd.symm
  · have hm := (apply_movesLe h (fun incoming he => hs ⟨incoming, he⟩) ha).moves hf.movesBound_lt
    have hd : op.versionMoves t t' = (t'.version - t.version).toNat := by
      cases op <;> first | rfl | exact absurd ⟨_, rfl⟩ hs
    rwa [hd]

/-! ## Runs -/

/-- A run of admitted operations, with how far it moved the version. -/
inductive VersionRun (t : Table) : Nat → Table → Prop
  | refl : VersionRun t 0 t
  | apply (A : Allocator) (op : TableOp) {n : Nat} {u u' : Table} {r : Except TableError Val}
    (h : VersionRun t n u) (ha : u.Admits op) (hf : op.Fits) (hs : u.apply A op = some (r, u')) :
    VersionRun t (n + op.versionMoves u u') u'

theorem VersionRun.ok (h : VersionRun t n u) (ht : t.Ok) : u.Ok := by
  induction h with
  | refl => exact ht
  | apply A op _ ha _ hs ih =>
    obtain ⟨_, _, he, hok⟩ := apply_ok (A := A) ih ha
    rw [hs] at he
    cases he
    exact hok

/-- Along a run, every hash slot keeps its key until the version moves. -/
theorem VersionRun.moves (h : VersionRun t n u) (ht : t.Ok) : Stamp.Moves Table.version Table.shape n t u := by
  induction h with
  | refl => exact .refl t
  | apply A op hr _ hf hs ih => exact ih.trans (apply_moves (hr.ok ht) hf hs)

end Table

end Dellingr
