import Dellingr.Vm.Table.Bisimulation

/-!
# Refused growth

Storage for a table may be refused at any reservation. An operation that is refused leaves
the table as it was, to every observer:

* a single assignment or append reserves before it changes anything but the window
  (`insert_refused`, `append_refused`);
* an insertion or a removal that shifts elements reserves first, for everything that
  follows (`reserveInsert`, `reserveRemove`). The shift itself (`shiftUp`, `storeShifted`,
  `shiftRemove`) then fits into that capacity and asks for no more, whatever the
  allocator would say (`storeShifted_fits`, `shiftRemove_fits`);
* a list is stored up to the element that is refused (`setList_refused`).
-/

namespace Dellingr

open AssocList Val

/-! ## Refusals of flat tables -/

namespace Flat

variable {f : Flat} {key v : Val} {e : TableError}

theorem append_error (h : (f.append v).1 = .error e) : (f.append v).2 = f := by
  rw [append] at h ⊢
  cases hg : f.growth with
  | error e => rfl
  | ok n => simp [hg] at h

theorem insert_error (h : (f.insert key v).1 = .error e) : (f.insert key v).2 = f := by
  rw [insert] at h ⊢
  cases hs : f.slot key with
  | some i => simp [hs] at h
  | none =>
    simp only [hs] at h ⊢
    cases hk : TableKey.new key with
    | error e => rfl
    | ok k =>
      simp only [hk] at h ⊢
      split at h
      · cases h
      · rename_i hv
        rw [if_neg hv]
        split at h
        · rename_i hn
          rw [if_pos hn]
          exact append_error h
        · cases h

theorem storeElement_error {n : Nat} (h : (f.storeElement n v).1 = .error e) :
    (f.storeElement n v).2 = f := by
  rw [storeElement] at h ⊢
  split at h
  · rename_i hn
    rw [if_pos hn]
    exact append_error h
  · rename_i hn
    rw [if_neg hn]
    exact insert_error h

/-- An append adds no more keys than it counts. -/
theorem length_push_le {n limit : Nat} (h : f.OkBelow limit) (hg : f.growth = .ok n) :
    (f.contents.push v).arr.length ≤ f.arr.length + n := by
  rw [growth] at hg
  split at hg
  · cases hg
  rename_i hlt
  split at hg
  · rename_i hz
    obtain rfl := Except.ok.inj hg
    have hnil : f.contents.hash = [] := List.length_eq_zero_iff.1 (liveLen_eq h ▸ hz)
    rw [Contents.push, Contents.migrate, hnil]
    simp [Contents.migrateLoop, contents]
  · cases hm : f.migrationEnd (maxArrayLen - f.arr.length) (f.arr.length + 1) with
    | error e => simp [hm, Except.map] at hg
    | ok e =>
      obtain rfl : e - f.arr.length = n := by simpa [hm, Except.map] using hg
      obtain ⟨h₁, h₂, h₃⟩ := migrationEnd_spec (by omega) (by omega) hm
      have hslot : f.slot (Val.ofNat (e + 1)) = none := by
        rw [slot, Val.slotBelow, Val.toNat?_ofNat (Nat.succ_le_succ h₂ |>.trans (by decide))]
        exact if_neg (by omega)
      have hle : (f.contents.push v).arr.length ≤ e :=
        Contents.length_migrateLoop_le (by simpa [contents] using h₁)
          (absent_of_get_eq_nil h hslot h₃)
      omega

/-- Nor does an insertion that grows the array by a key. -/
theorem length_migrate_le {n : Nat} {arr : List Val} (h : f.Ok) (hg : f.growth = .ok n)
    (hl : arr.length = f.arr.length + 1) :
    ({ f with arr := arr } : Flat).migrate.arr.length ≤ f.arr.length + n := by
  have heq : ({ f with arr := arr } : Flat).contents.migrate.arr.length =
      (f.contents.push .nil).arr.length :=
    Contents.length_migrate_congr (by simpa [contents] using hl) rfl
  have hmax := (growth_spec (v := .nil) h hg).2
  rw [← heq] at hmax
  obtain ⟨hc, -, -⟩ := migrate_spec (f := { f with arr := arr })
    ⟨Contents.length_le_migrate.trans hmax, by simpa only [hl] using h.hash⟩ hmax
  calc ({ f with arr := arr } : Flat).migrate.arr.length
      = ({ f with arr := arr } : Flat).contents.migrate.arr.length :=
        congrArg (fun c => c.arr.length) hc
    _ = (f.contents.push .nil).arr.length := heq
    _ ≤ f.arr.length + n := length_push_le h hg

end Flat

namespace Table

variable {t u : Table} {A B : Allocator} {key v : Val} {pos len : Nat} {e : TableError}

/-! ## Single elements -/

theorem sameFlat_of_flat (h : t.Ok) (hw : u.WindowOk) (hf : u.flat = t.flat) : SameFlat t u :=
  ⟨h, ok_iff.2 ⟨hw, hf ▸ (ok_iff.1 h).2⟩, hf.symm⟩

/-- An operation that changes nothing when it is refused. -/
theorem Refines.sameFlat_of_error {α : Type} {o : Option (Outcome α)}
    {q : Except TableError α × Flat} (h : t.Ok) (hr : Refines A (· = t.flat) o q)
    (hq : ∀ e, q.1 = .error e → q.2 = t.flat) (ho : o = some (.error e, u)) : SameFlat t u := by
  obtain ⟨res, t', he, hw, hres⟩ := hr
  rw [he] at ho
  cases ho
  rcases hres with ⟨h₁, h₂⟩ | ⟨-, -, h₂⟩
  · exact sameFlat_of_flat h hw (h₂.trans (hq e h₁.symm))
  · exact sameFlat_of_flat h hw h₂

theorem insert_refused (h : t.Ok) (ho : t.insert A key v = some (.error e, u)) : SameFlat t u :=
  (insert_refines h).sameFlat_of_error h (fun _ => Flat.insert_error) ho

theorem append_refused (h : t.Ok) (ho : t.append A v = some (.error e, u)) : SameFlat t u :=
  (append_refines h).sameFlat_of_error h (fun _ => Flat.append_error) ho

theorem setListElement_refused {n : Nat} (h : t.Ok)
    (ho : t.setListElement A n v = some (.error e, u)) : SameFlat t u :=
  (setListElement_refines h n v).sameFlat_of_error h (fun _ => Flat.storeElement_error) ho

/-! ## The parts of an insertion -/

/-- What an insertion before the border reserves: the slot the border gives up, the keys
    that then migrate, and the slots below the window. -/
def reserveInsert (t : Table) (A : Allocator) (pos : Nat) (value : Val) (len : Nat) :
    Option (Outcome Unit) := do
  let grown ← (if len == t.vlen then t.appendGrowth
    else some (.ok (if len = t.base + t.array.length then 1 else 0)))
  match grown with
  | .error e => return (.error e, t)
  | .ok extra =>
    let liveDelta ← (if len == t.vlen then checkedSub extra 1 else some 0)
    return if pos ≤ t.base ∧ value.isLive then t.reserveOutsideWindow A pos extra liveDelta
      else t.reserveArray A (t.array.length + extra)

/-- The elements from a position on move up by one, and the keys that follow migrate. -/
def shiftUp (t : Table) (pos len : Nat) : Option Table := do
  let structural := len == t.vlen
  let t :=
    if structural then { t with vlen := t.vlen + 1 }.pushSlot .nil
    else if len = t.base + t.array.length then t.pushSlot .nil
    else t
  let low := max pos (t.base + 1) - t.base - 1
  let high ← checkedSub len t.base
  let array ← rotateRight t.array low high
  let t := { t with array := array }
  if structural then t.migrateFromHash else some t

/-- The inserted value is stored. -/
def storeShifted (t : Table) (A : Allocator) (pos : Nat) (value : Val) : Option (Outcome Unit) :=
  if t.base < pos then (t.writeWindow (pos - t.base - 1) value).map fun t => (.ok (), t)
  else if value.isLive then t.writeOutsideWindow A pos value
  else some (.ok (), t)

/-- A reservation only changes the capacity, and then there is room. -/
theorem reserveArray_cases (t : Table) (A : Allocator) (n : Nat) :
    (∃ cap, t.reserveArray A n = (.ok (), { t with cap := cap }) ∧ n ≤ cap) ∨
      t.reserveArray A n = (.error .growthFailed, t) := by
  rw [reserveArray]
  split
  · split
    · rename_i c hc
      have := A.enough hc
      exact .inl ⟨c, rfl, by omega⟩
    · exact .inr rfl
  · rename_i hle
    exact .inl ⟨t.cap, rfl, Nat.le_of_not_lt hle⟩

theorem andThen_reserveArray_congr {n : Nat} {f g : Unit → Table → Option (Outcome Unit)}
    (h : ∀ cap, f () { t with cap := cap } = g () { t with cap := cap }) :
    andThen (t.reserveArray A n) f = andThen (t.reserveArray A n) g := by
  obtain ⟨cap, hr, -⟩ | hr := reserveArray_cases t A n
  · rw [hr]
    exact h cap
  · rw [hr]
    rfl

/-- An insertion before the border reserves, shifts and stores. -/
theorem arrayInsert_eq (hpos : pos ≠ t.arrayLen + 1) :
    t.arrayInsert A pos v =
      (t.reserveInsert A pos v t.arrayLen).bind fun o => andThen o fun _ t₁ =>
        (t₁.shiftUp pos t.arrayLen).bind fun t₂ => t₂.storeShifted A pos v := by
  rw [arrayInsert, reserveInsert]
  simp only [hpos, if_false]
  generalize t.arrayLen = len
  simp only [Option.bind_eq_bind, Option.bind_assoc]
  congr 1
  funext grown
  cases grown with
  | error e => rfl
  | ok extra =>
    simp only [Option.bind_assoc]
    congr 1
    funext liveDelta
    simp only [Option.pure_def, Option.bind_some]
    obtain ⟨n, hn⟩ : ∃ n, (if pos ≤ t.base ∧ v.isLive = true then
        t.reserveOutsideWindow A pos extra liveDelta
        else t.reserveArray A (t.array.length + extra)) = t.reserveArray A n := by
      split <;> exact ⟨_, rfl⟩
    rw [hn]
    refine andThen_reserveArray_congr fun cap => ?_
    simp only [shiftUp, storeShifted, Option.bind_eq_bind, Option.bind_assoc]

/-! ## The room an insertion needs -/

/-- A table whose window another one extends by pushing slots. -/
structure Extends (t u : Table) : Prop where
  base : u.base = t.base
  vlen : t.vlen ≤ u.vlen
  length : u.array.length + t.vlen = t.array.length + u.vlen
  live : u.arrayLive + t.vlen ≤ t.arrayLive + u.vlen
  cap_le : t.cap ≤ u.cap
  cap : u.cap ≤ max t.cap u.array.length

theorem Extends.refl (t : Table) : Extends t t :=
  ⟨rfl, Nat.le_refl _, rfl, Nat.le_refl _, Nat.le_refl _, Nat.le_max_left _ _⟩

theorem Extends.trans {w : Table} (h : Extends t u) (h' : Extends u w) : Extends t w := by
  obtain ⟨h₁, h₂, h₃, h₄, h₅, h₆⟩ := h
  obtain ⟨i₁, i₂, i₃, i₄, i₅, i₆⟩ := h'
  refine ⟨i₁.trans h₁, h₂.trans i₂, ?_, ?_, h₅.trans i₅, ?_⟩ <;> omega

theorem extends_pushSlot (t : Table) (v : Val) :
    Extends t ({ t with vlen := t.vlen + 1 }.pushSlot v) := by
  have hbit : v.liveBit ≤ 1 := by rw [liveBit]; split <;> simp
  refine ⟨rfl, Nat.le_succ _, ?_, ?_, Nat.le_max_left _ _, ?_⟩
  · simp only [pushSlot, List.length_append, List.length_singleton]
    omega
  · simp only [pushSlot]
    omega
  · simp [pushSlot]

/-- Another hash part does not matter. -/
theorem extends_withHash (t : Table) (s : TableStorage) (dead : Nat) (version : UInt64) :
    Extends t (t.withHash s dead version) :=
  ⟨rfl, Nat.le_refl _, rfl, Nat.le_refl _, Nat.le_refl _, Nat.le_max_left _ _⟩

theorem extends_migrateLoop (fuel : Nat) (m : Bool) (t : Table) :
    Extends t (migrateLoop fuel m t).2 := by
  induction fuel generalizing t m with
  | zero => exact .refl t
  | succ fuel ih =>
    obtain ⟨-, s, dead, he, -⟩ := hashRemove_flat t (Val.ofNat (t.vlen + 1))
    rw [migrateLoop]
    generalize t.hashRemove (Val.ofNat (t.vlen + 1)) = r at he
    obtain ⟨o, t₁⟩ := r
    simp only at he
    subst he
    cases o with
    | none => exact extends_withHash t s dead t.version
    | some value =>
      exact (extends_withHash t s dead t.version).trans
        ((extends_pushSlot _ value).trans (ih _ _))

theorem extends_migrateFromHash (h : t.migrateFromHash = some u) : Extends t u := by
  rw [migrateFromHash] at h
  obtain ⟨live, -, h⟩ := Option.bind_eq_some_iff.1 h
  split at h
  · cases h
    exact .refl t
  · have hloop := extends_migrateLoop (t.hashSlotCount + 1) false t
    generalize migrateLoop (t.hashSlotCount + 1) false t = r at h hloop
    obtain ⟨migrated, t₁⟩ := r
    obtain ⟨live, -, h⟩ := Option.bind_eq_some_iff.1 h
    cases h
    split
    · obtain ⟨s, dead, version, he, -⟩ := compactDead_flat t₁
      rw [he]
      exact hloop.trans (extends_withHash t₁ s dead version)
    · exact hloop

theorem length_rotateRight {array array' : List Val} {low high : Nat}
    (h : rotateRight array low high = some array') : array'.length = array.length := by
  rw [rotateRight] at h
  split at h
  · obtain ⟨last, hlast, h⟩ := Option.bind_eq_some_iff.1 h
    have hlt := (List.getElem?_eq_some_iff.1 hlast).1
    cases h
    split
    · simp only [List.length_append, List.length_cons, List.length_take, List.length_drop]
      omega
    · rfl
  · cases h

/-- The shift of an insertion pushes a slot, if the border has none, and one for each key
    that migrates. -/
theorem shiftUp_sizes (h : t.shiftUp pos len = some u) :
    u.base = t.base ∧ t.cap ≤ u.cap ∧ u.cap ≤ max t.cap u.array.length ∧
      if len = t.vlen then t.vlen + 1 ≤ u.vlen ∧ u.array.length + t.vlen = t.array.length + u.vlen ∧
        u.arrayLive + (t.vlen + 1) ≤ t.arrayLive + u.vlen
      else u.array.length = t.array.length + (if len = t.base + t.array.length then 1 else 0) ∧
        u.arrayLive = t.arrayLive := by
  rw [shiftUp] at h
  simp only [Option.bind_eq_bind] at h
  obtain ⟨high, -, h⟩ := Option.bind_eq_some_iff.1 h
  obtain ⟨array, hr, h⟩ := Option.bind_eq_some_iff.1 h
  have hlen := length_rotateRight hr
  by_cases hs : len = t.vlen
  · simp only [hs, beq_self_eq_true, if_true] at h hlen ⊢
    obtain ⟨h₁, h₂, h₃, h₄, h₅, h₆⟩ := extends_migrateFromHash h
    simp only [pushSlot, List.length_append, List.length_singleton] at h₁ h₂ h₃ h₄ h₅ h₆ hlen
    have hnil : Val.nil.liveBit = 0 := rfl
    refine ⟨h₁, ?_, ?_, ?_, ?_, ?_⟩ <;> omega
  · have hne : (len == t.vlen) = false := beq_false_of_ne hs
    simp only [hne, Bool.false_eq_true, if_false, Option.some.injEq] at h hlen
    rw [if_neg hs]
    subst h
    split
    · rename_i hb
      simp only [hb, if_true, pushSlot, List.length_append, List.length_singleton] at hlen ⊢
      have hnil : Val.nil.liveBit = 0 := rfl
      refine ⟨trivial, Nat.le_max_left _ _, ?_, hlen, ?_⟩ <;> omega
    · rename_i hb
      simp only [hb, if_false] at hlen ⊢
      exact ⟨trivial, Nat.le_refl _, Nat.le_max_left _ _, hlen, trivial⟩

/-- The slots a value outside the window needs. -/
def outsideNeed (t : Table) (key : Nat) : Nat :=
  if t.arrayLive = 0 then 1
  else if key ≤ t.base then
    t.array.length + (t.base - (key - 1 - min (key - 1) ((t.arrayLive + 1) / 2)))
  else key - t.base

theorem reserveOutsideWindow_fits (h : t.outsideNeed pos ≤ t.cap) :
    t.reserveOutsideWindow A pos 0 0 = (.ok (), t) := by
  rw [reserveOutsideWindow, reserveArray]
  simp only [Nat.add_zero]
  exact if_neg (Nat.not_lt.2 h)

/-- With enough room, a write outside the window does not ask for storage, and takes none. -/
theorem writeOutsideWindow_fits (h : t.outsideNeed pos ≤ t.cap) :
    (∀ A B, t.writeOutsideWindow A pos v = t.writeOutsideWindow B pos v) ∧
      ∀ A r u, t.writeOutsideWindow A pos v = some (r, u) → u.cap ≤ t.cap := by
  refine ⟨fun A B => ?_, fun A r u hu => ?_⟩
  · simp only [writeOutsideWindow, reserveOutsideWindow_fits h]
  · simp only [writeOutsideWindow, reserveOutsideWindow_fits h] at hu
    rw [outsideNeed] at h
    split at hu
    · rename_i hz
      rw [if_pos hz] at h
      cases hu
      simp only [resetWindow]
      omega
    · rename_i hz
      rw [if_neg hz] at h
      split at hu
      · rename_i hb
        rw [if_pos hb] at h
        obtain ⟨base, hbase, hu⟩ := Option.bind_eq_some_iff.1 hu
        obtain ⟨grow, hgrow, hu⟩ := Option.bind_eq_some_iff.1 hu
        obtain ⟨_, -, hu⟩ := Option.bind_eq_some_iff.1 hu
        obtain ⟨-, rfl⟩ := checkedSub_eq_some.1 hbase
        obtain ⟨-, rfl⟩ := checkedSub_eq_some.1 hgrow
        cases hu
        simp only [List.length_append, List.length_replicate]
        omega
      · rename_i hb
        rw [if_neg hb] at h
        obtain ⟨n, hn, hu⟩ := Option.bind_eq_some_iff.1 hu
        obtain ⟨_, -, hu⟩ := Option.bind_eq_some_iff.1 hu
        obtain ⟨-, rfl⟩ := checkedSub_eq_some.1 hn
        cases hu
        simp only [resizeArray]
        omega

theorem writeOutsideWindow_vlen {r : Except TableError Unit}
    (h : t.writeOutsideWindow A pos v = some (r, u)) : u.vlen = t.vlen := by
  rw [writeOutsideWindow, reserveOutsideWindow] at h
  generalize (if t.arrayLive + 0 = 0 then 1 else if pos ≤ t.base then _ else _ : Nat) = n at h
  obtain ⟨cap, hr, -⟩ | hr := reserveArray_cases t A n
  · simp only [hr] at h
    split at h
    · cases h
      rfl
    · split at h
      · obtain ⟨_, -, h⟩ := Option.bind_eq_some_iff.1 h
        obtain ⟨_, -, h⟩ := Option.bind_eq_some_iff.1 h
        obtain ⟨_, -, h⟩ := Option.bind_eq_some_iff.1 h
        cases h
        rfl
      · obtain ⟨_, -, h⟩ := Option.bind_eq_some_iff.1 h
        obtain ⟨_, -, h⟩ := Option.bind_eq_some_iff.1 h
        cases h
        rfl
  · simp only [hr] at h
    cases h
    rfl

theorem writeWindow_sizes {p : Nat} (h : t.writeWindow p v = some u) :
    u.vlen = t.vlen ∧ u.cap = t.cap := by
  rw [writeWindow] at h
  obtain ⟨old, -, h⟩ := Option.bind_eq_some_iff.1 h
  obtain ⟨live, -, h⟩ := Option.bind_eq_some_iff.1 h
  cases h
  split
  · rw [notePrefixWrite]
    split
    · exact ⟨rfl, rfl⟩
    · split <;> exact ⟨rfl, rfl⟩
  · exact ⟨rfl, rfl⟩

theorem storeShifted_vlen {r : Except TableError Unit}
    (h : t.storeShifted A pos v = some (r, u)) : u.vlen = t.vlen := by
  rw [storeShifted] at h
  split at h
  · obtain ⟨w, hw, heq⟩ := Option.map_eq_some_iff.1 h
    cases heq
    exact (writeWindow_sizes hw).1
  · split at h
    · exact writeOutsideWindow_vlen h
    · cases h
      rfl

/-- What an insertion before the border relies on: the border, and room for the keys that
    migrate and for the slots below the window. -/
structure InsertFits (t : Table) (pos len : Nat) (v : Val) (extra liveDelta : Nat) : Prop where
  border : Contents.IsBorder t.flat.arr len
  inside : 1 ≤ pos ∧ pos ≤ len
  grown : if len = t.vlen then t.flat.growth = .ok extra ∧ liveDelta = extra - 1
    else extra = (if len = t.base + t.array.length then 1 else 0) ∧ liveDelta = 0
  room : t.array.length + extra ≤ t.cap
  below : pos ≤ t.base → v.isLive = true →
    t.array.length + extra +
      (t.base - (pos - 1 - min (pos - 1) ((t.arrayLive + liveDelta + 1) / 2))) ≤ t.cap

/-- Once there is room, an insertion before the border succeeds, whatever storage an
    allocator would grant, and takes no more. -/
theorem storeShifted_fits {extra liveDelta : Nat} (h : t.Ok)
    (hf : t.InsertFits pos len v extra liveDelta) :
    ∃ u t', t.shiftUp pos len = some u ∧ u.cap = t.cap ∧
      (∀ B, u.storeShifted B pos v = some (.ok (), t')) ∧ t'.cap ≤ t.cap := by
  obtain ⟨hb, ⟨h₁, h₂⟩, hgrown, hroom, hbelow⟩ := hf
  -- With an allocator that grants everything it does what it does to the flat table.
  have hg : len = t.vlen → t.flat.growth = .ok extra := fun hlen => by
    rw [if_pos hlen] at hgrown
    exact hgrown.1
  have hexact : Refines .exact Flat.Ok ((t.shiftUp pos len).bind fun u => u.storeShifted .exact pos v)
      (.ok (), if len < t.vlen then { t.flat with arr := Shift.up t.flat.arr (pos - 1) len v }
        else ({ t.flat with arr := Shift.up t.flat.arr (pos - 1) len v } : Flat).migrate) := by
    have := arrayInsert_shift (A := .exact) (v := v) h h₁ h₂ hb hg
    simp only [shiftUp, storeShifted, Option.bind_eq_bind, Option.bind_assoc]
    exact this
  obtain ⟨t', he, -, hflat⟩ := hexact.of_total fun _ _ _ => rfl
  obtain ⟨u, hu, hstore⟩ := Option.bind_eq_some_iff.1 he
  have hble : len ≤ t.vlen := flat_arr_length (t := t) ▸ hb.le
  obtain ⟨hbase, hcap₁, hcap₂, hsizes⟩ := shiftUp_sizes hu
  have hvlen : t'.vlen = u.vlen := storeShifted_vlen hstore
  -- No more slots are pushed, and no more values become live, than were counted.
  obtain ⟨hlength, hlive⟩ : u.array.length ≤ t.array.length + extra ∧
      u.arrayLive ≤ t.arrayLive + liveDelta := by
    rcases Nat.lt_or_eq_of_le hble with hlt | rfl
    · rw [if_neg hlt.ne] at hgrown hsizes
      exact ⟨hgrown.1 ▸ hsizes.1.le, hsizes.2 ▸ Nat.le_add_right _ _⟩
    · rw [if_pos rfl] at hgrown hsizes
      have hup : (Shift.up t.flat.arr (pos - 1) t.vlen v).length = t.flat.arr.length + 1 := by
        rw [Shift.up]
        simp
        omega
      have hle := Flat.length_migrate_le (ok_iff.1 h).2 (hg rfl) hup
      have hflat' : t'.flat =
          ({ t.flat with arr := Shift.up t.flat.arr (pos - 1) t.vlen v } : Flat).migrate :=
        hflat.trans (if_neg (Nat.lt_irrefl _))
      rw [← hflat', flat_arr_length, flat_arr_length, hvlen] at hle
      omega
  have hcap : u.cap = t.cap := by omega
  by_cases hpos : u.base < pos
  · have hwrite : ∀ B, u.storeShifted B pos v =
        (u.writeWindow (pos - u.base - 1) v).map fun t => (.ok (), t) := fun B => if_pos hpos
    rw [hwrite] at hstore
    refine ⟨u, t', hu, hcap, fun B => (hwrite B).trans hstore, ?_⟩
    obtain ⟨w, hw, heq⟩ := Option.map_eq_some_iff.1 hstore
    cases heq
    rw [(writeWindow_sizes hw).2, hcap]
  · by_cases hv : v.isLive = true
    · have hwrite : ∀ B, u.storeShifted B pos v = u.writeOutsideWindow B pos v := fun B => by
        rw [storeShifted, if_neg hpos, if_pos hv]
      have hneed : u.outsideNeed pos ≤ u.cap := by
        have hroom' := hbelow (by omega) hv
        rw [outsideNeed, hbase, hcap]
        split
        · omega
        · rw [if_pos (by omega)]
          omega
      obtain ⟨hany, hless⟩ := writeOutsideWindow_fits (v := v) hneed
      rw [hwrite] at hstore
      refine ⟨u, t', hu, hcap, fun B => ?_, ?_⟩
      · rw [hwrite, hany B .exact, hstore]
      · rw [← hcap]
        exact hless _ _ _ hstore
    · have hskip : ∀ B, u.storeShifted B pos v = some (.ok (), u) := fun B => by
        rw [storeShifted, if_neg hpos, if_neg hv]
      rw [hskip] at hstore
      cases hstore
      exact ⟨_, _, hu, hcap, hskip, hcap.le⟩

/-- The reservation of an insertion gives it room, or changes nothing. -/
theorem reserveInsert_cases (h : t.Ok) (hb : Contents.IsBorder t.flat.arr len) (h₁ : 1 ≤ pos)
    (h₂ : pos ≤ len) :
    (∃ cap extra liveDelta, t.reserveInsert A pos v len = some (.ok (), { t with cap := cap }) ∧
      InsertFits { t with cap := cap } pos len v extra liveDelta) ∨
    ∃ e, t.reserveInsert A pos v len = some (.error e, t) := by
  -- What is reserved once the keys that migrate are counted.
  have hreserve : ∀ extra liveDelta,
      (if len = t.vlen then t.flat.growth = .ok extra ∧ liveDelta = extra - 1
        else extra = (if len = t.base + t.array.length then 1 else 0) ∧ liveDelta = 0) →
      (∃ cap, (if pos ≤ t.base ∧ v.isLive = true then t.reserveOutsideWindow A pos extra liveDelta
        else t.reserveArray A (t.array.length + extra)) = (.ok (), { t with cap := cap }) ∧
        InsertFits { t with cap := cap } pos len v extra liveDelta) ∨
      (if pos ≤ t.base ∧ v.isLive = true then t.reserveOutsideWindow A pos extra liveDelta
        else t.reserveArray A (t.array.length + extra)) = (.error .growthFailed, t) := by
    intro extra liveDelta hgrown
    have hlive : t.arrayLive ≠ 0 := by
      have hin := hb.live.resolve_left (by omega)
      rw [flat_arr_getD h.window] at hin
      intro hz
      exact hin (slotValue_of_all_nil (h.window.live_eq ▸ hz))
    split
    · rename_i hc
      rw [reserveOutsideWindow, if_neg (by omega), if_pos hc.1]
      obtain ⟨cap, hr, hle⟩ | hr := reserveArray_cases t A (t.array.length + extra +
        (t.base - (pos - 1 - min (pos - 1) ((t.arrayLive + liveDelta + 1) / 2))))
      · exact .inl ⟨cap, hr, hb, ⟨h₁, h₂⟩, hgrown, by dsimp only; omega, fun _ _ => hle⟩
      · exact .inr hr
    · rename_i hc
      obtain ⟨cap, hr, hle⟩ | hr := reserveArray_cases t A (t.array.length + extra)
      · exact .inl ⟨cap, hr, hb, ⟨h₁, h₂⟩, hgrown, hle, fun hp hv => absurd ⟨hp, hv⟩ hc⟩
      · exact .inr hr
  rw [reserveInsert]
  simp only [Option.bind_eq_bind]
  by_cases hlen : len = t.vlen
  · subst hlen
    simp only [beq_self_eq_true, if_true, appendGrowth_flat h (Nat.le_succ _), Option.bind_some]
    cases hg : t.flat.growth with
    | error e => exact .inr ⟨e, rfl⟩
    | ok n =>
      have hn := (Flat.growth_spec (v := v) h.flat hg).1
      simp only [checkedSub_of_le hn, Option.bind_some, Option.pure_def, Option.some.injEq]
      obtain ⟨cap, hr, hf⟩ | hr := hreserve n (n - 1) (by rw [if_pos rfl]; exact ⟨hg, rfl⟩)
      · exact .inl ⟨cap, n, n - 1, hr, hf⟩
      · exact .inr ⟨_, hr⟩
  · have hne : (len == t.vlen) = false := beq_false_of_ne hlen
    simp only [hne, Bool.false_eq_true, if_false, Option.bind_some, Option.pure_def,
      Option.some.injEq]
    obtain ⟨cap, hr, hf⟩ | hr := hreserve _ 0 (by rw [if_neg hlen]; exact ⟨rfl, rfl⟩)
    · exact .inl ⟨cap, _, 0, hr, hf⟩
    · exact .inr ⟨_, hr⟩

/-- An insertion before the border that is refused changes nothing. -/
theorem arrayInsert_refused (h : t.Ok) (h₁ : 1 ≤ pos) (h₂ : pos ≤ t.arrayLen)
    (ho : t.arrayInsert A pos v = some (.error e, u)) : u = t := by
  have hb := Contents.border_isBorder (c := ⟨t.flat.arr, []⟩)
  rw [← arrayLen_flat h.window] at hb
  rw [arrayInsert_eq (by omega)] at ho
  obtain ⟨cap, extra, liveDelta, hr, hf⟩ | ⟨e', hr⟩ :=
    reserveInsert_cases (A := A) (v := v) h hb h₁ h₂
  · obtain ⟨w, t', hw, -, hstore, -⟩ := storeShifted_fits (h.withCap cap) hf
    rw [hr, Option.bind_some, andThen, hw, Option.bind_some, hstore A] at ho
    cases ho
  · rw [hr, Option.bind_some, andThen] at ho
    cases ho
    rfl

/-! ## The parts of a removal -/

/-- What a removal before the border reserves: the slots below the window, for its first
    value. -/
def reserveRemove (t : Table) (A : Allocator) (pos : Nat) : Option (Outcome Unit) := do
  let firstLive ← (if pos ≤ t.base then t.array[0]?.map Val.isLive else some false)
  return if firstLive then
      t.reserveArray A (t.array.length + 1 + min (t.base - 1) ((t.array.length + 1) / 2))
    else (.ok (), t)

/-- The elements after a position move down by one. -/
def shiftRemove (t : Table) (A : Allocator) (pos len : Nat) : Option (Outcome Val) := do
  let removed := t.arrayValue pos
  let last ← checkedSub len t.base
  if t.base < pos then
    let position := pos - t.base - 1
    let array ← shiftDown t.array position last
    let live ← checkedSub t.arrayLive removed.liveBit
    return (.ok removed, { t with array := array, arrayLive := live, lead := min t.lead position })
  else
    let first ← t.array[0]?
    let array ← shiftDown t.array 0 last
    let live ← checkedSub t.arrayLive first.liveBit
    let t := { t with array := array, arrayLive := live, lead := 0 }
    if first.isLive then
      andThen (← t.writeOutsideWindow A t.base first) fun _ t => some (.ok removed, t)
    else return (.ok removed, t)

/-- A removal before the border reserves and shifts. -/
theorem arrayRemove_eq (h₁ : 1 ≤ pos) (h₂ : pos ≤ t.arrayLen) :
    t.arrayRemove A pos = (t.reserveRemove A pos).bind fun o => andThen o fun _ t₁ =>
      t₁.shiftRemove A pos t.arrayLen := by
  rw [arrayRemove, reserveRemove]
  simp only [h₁, h₂, and_self, if_true, Option.bind_eq_bind, Option.bind_assoc, Option.pure_def,
    Option.bind_some, shiftRemove]

theorem length_shiftDown {array array' : List Val} {p last : Nat}
    (h : shiftDown array p last = some array') : array'.length = array.length := by
  rw [shiftDown] at h
  split at h
  · cases h
    simp only [List.length_set, List.length_append, List.length_take, List.length_drop]
    omega
  · cases h

/-- What a removal relies on: room below the window for its first value. -/
def RemoveFits (t : Table) (pos : Nat) : Prop :=
  pos ≤ t.base → t.array[0]?.map Val.isLive = some true →
    t.array.length + 1 + min (t.base - 1) ((t.array.length + 1) / 2) ≤ t.cap

/-- The reservation of a removal gives it room, or changes nothing. -/
theorem reserveRemove_cases (hne : t.array ≠ []) :
    (∃ cap, t.reserveRemove A pos = some (.ok (), { t with cap := cap }) ∧
      RemoveFits { t with cap := cap } pos) ∨
    t.reserveRemove A pos = some (.error .growthFailed, t) := by
  rw [reserveRemove]
  simp only [Option.bind_eq_bind, Option.pure_def]
  by_cases hpos : pos ≤ t.base
  · obtain ⟨first, hfirst⟩ : ∃ first, t.array[0]? = some first := by
      cases ha : t.array with
      | nil => exact absurd ha hne
      | cons first rest => exact ⟨first, rfl⟩
    rw [if_pos hpos, hfirst, Option.map_some, Option.bind_some]
    by_cases hlive : first.isLive = true
    · rw [if_pos hlive]
      obtain ⟨cap, hr, hle⟩ | hr := reserveArray_cases t A
        (t.array.length + 1 + min (t.base - 1) ((t.array.length + 1) / 2))
      · exact .inl ⟨cap, congrArg some hr, fun _ _ => hle⟩
      · exact .inr (congrArg some hr)
    · rw [if_neg hlive]
      refine .inl ⟨t.cap, rfl, fun _ hf => ?_⟩
      rw [hfirst, Option.map_some, Option.some.injEq] at hf
      exact absurd hf hlive
  · rw [if_neg hpos]
    exact .inl ⟨t.cap, rfl, fun hp => absurd hp hpos⟩

/-- With room, a removal reserves nothing. -/
theorem reserveRemove_fits (h : t.RemoveFits pos) (hne : t.array ≠ []) :
    t.reserveRemove A pos = some (.ok (), t) := by
  rw [reserveRemove]
  simp only [Option.bind_eq_bind, Option.pure_def]
  by_cases hpos : pos ≤ t.base
  · cases hf : t.array[0]?.map Val.isLive with
    | none =>
      cases ha : t.array with
      | nil => exact absurd ha hne
      | cons first rest => simp [ha] at hf
    | some live =>
      rw [if_pos hpos, Option.bind_some]
      cases live with
      | true =>
        rw [if_pos rfl, reserveArray, if_neg (Nat.not_lt.2 (h hpos hf))]
      | false => rfl
  · rw [if_neg hpos]
    rfl

/-- The border of a sequence that is not empty lies in the window. -/
theorem array_ne_nil (h : t.Ok) (hlen : 1 ≤ t.arrayLen) : t.array ≠ [] := by
  have hb := Contents.border_isBorder (c := ⟨t.flat.arr, []⟩)
  rw [← arrayLen_flat h.window] at hb
  have hlive := hb.live.resolve_left (by omega)
  rw [flat_arr_getD h.window] at hlive
  intro hnil
  rw [hnil] at hlive
  exact hlive (slotValue_of_all_nil rfl)

theorem arrayLen_withCap (h : t.Ok) (cap : Nat) :
    ({ t with cap := cap } : Table).arrayLen = t.arrayLen := by
  rw [arrayLen_flat h.window, arrayLen_flat (h.withCap cap).window]
  rfl

/-- With room, the shift of a removal does not ask for storage, and takes none. -/
theorem shiftRemove_any {r : Except TableError Val} (hlive : t.arrayLive ≤ t.array.length)
    (h₁ : 1 ≤ pos) (hf : t.RemoveFits pos) (he : t.shiftRemove A pos len = some (r, u)) :
    (∀ B, t.shiftRemove B pos len = some (r, u)) ∧ u.cap ≤ t.cap := by
  simp only [shiftRemove, Option.bind_eq_bind] at he ⊢
  obtain ⟨last, hlast, he⟩ := Option.bind_eq_some_iff.1 he
  simp only [hlast, Option.bind_some]
  by_cases hpos : t.base < pos
  · simp only [hpos, if_true] at he ⊢
    refine ⟨fun _ => he, ?_⟩
    obtain ⟨array, -, he⟩ := Option.bind_eq_some_iff.1 he
    obtain ⟨live, -, he⟩ := Option.bind_eq_some_iff.1 he
    cases he
    exact Nat.le_refl _
  · simp only [hpos, if_false] at he ⊢
    obtain ⟨first, hfirst, he⟩ := Option.bind_eq_some_iff.1 he
    obtain ⟨array, harray, he⟩ := Option.bind_eq_some_iff.1 he
    obtain ⟨live, hsub, he⟩ := Option.bind_eq_some_iff.1 he
    simp only [hfirst, harray, hsub, Option.bind_some]
    by_cases hfl : first.isLive = true
    · simp only [hfl, if_true] at he ⊢
      have hroom := hf (by omega) (by rw [hfirst, Option.map_some, hfl])
      obtain ⟨-, hless⟩ := checkedSub_eq_some.1 hsub
      -- The first value stays live, so it is one of fewer than there are slots.
      have hneed : outsideNeed { t with array := array, arrayLive := live, lead := 0 } t.base ≤
          t.cap := by
        rw [outsideNeed]
        dsimp only
        rw [length_shiftDown harray]
        split
        · omega
        · rw [if_pos (Nat.le_refl _)]
          omega
      obtain ⟨hany, hcap⟩ := writeOutsideWindow_fits (v := first) hneed
      obtain ⟨⟨res, w⟩, hw, he⟩ := Option.bind_eq_some_iff.1 he
      refine ⟨fun B => ?_, ?_⟩
      · rw [hany B A, hw]
        exact he
      · have hle := hcap A res w hw
        cases res with
        | error e =>
          cases he
          exact hle
        | ok _ =>
          cases he
          exact hle
    · simp only [hfl, Bool.false_eq_true, if_false] at he ⊢
      refine ⟨fun _ => he, ?_⟩
      cases he
      exact Nat.le_refl _

/-- Once there is room, a removal succeeds, whatever storage an allocator would grant, and
    takes no more. -/
theorem shiftRemove_fits (h : t.Ok) (h₁ : 1 ≤ pos) (h₂ : pos ≤ t.arrayLen) (hf : t.RemoveFits pos) :
    ∃ removed t', (∀ B, t.shiftRemove B pos t.arrayLen = some (.ok removed, t')) ∧ t'.cap ≤ t.cap := by
  have hne := array_ne_nil h (h₁.trans h₂)
  have hlive : t.arrayLive ≤ t.array.length := h.window.live_eq ▸ List.countP_le_length
  -- With an allocator that grants everything it does what it does to the flat table.
  have href : Refines .exact Flat.Ok (t.arrayRemove .exact pos)
      (.ok (t.flat.arrayRemove pos).1, (t.flat.arrayRemove pos).2) := arrayRemove_refines h
  obtain ⟨t', he, -, -⟩ := href.of_total fun _ _ _ => rfl
  rw [arrayRemove_eq h₁ h₂, reserveRemove_fits hf hne, Option.bind_some, andThen] at he
  exact ⟨_, t', shiftRemove_any hlive h₁ hf he⟩

/-- A removal before the border that is refused changes nothing. -/
theorem arrayRemove_refused (h : t.Ok) (ho : t.arrayRemove A pos = some (.error e, u)) : u = t := by
  by_cases hpos : 1 ≤ pos ∧ pos ≤ t.arrayLen
  · obtain ⟨h₁, h₂⟩ := hpos
    have hne := array_ne_nil h (h₁.trans h₂)
    rw [arrayRemove_eq h₁ h₂] at ho
    obtain ⟨cap, hr, hf⟩ | hr :
        (∃ cap, t.reserveRemove A pos = some (.ok (), { t with cap := cap }) ∧
          RemoveFits { t with cap := cap } pos) ∨
        t.reserveRemove A pos = some (.error .growthFailed, t) := reserveRemove_cases hne
    · have hlen := arrayLen_withCap h cap
      obtain ⟨removed, t', hshift, -⟩ := shiftRemove_fits (h.withCap cap) h₁ (hlen ▸ h₂) hf
      rw [hr, Option.bind_some, andThen] at ho
      rw [← hlen, hshift A] at ho
      cases ho
    · rw [hr, Option.bind_some, andThen] at ho
      cases ho
      rfl
  · -- Clearing a key needs no storage.
    simp only [arrayRemove, hpos, if_false] at ho
    obtain ⟨w, -, heq⟩ := Option.map_eq_some_iff.1 ho
    cases heq

/-! ## Lists -/

/-- Store the values of a list one by one: at the append key a value is appended, nil
    included, and elsewhere it is assigned. -/
def setListEach (A : Allocator) (t : Table) (key : Nat) : List Val → Option (Outcome Unit)
  | [] => some (.ok (), t)
  | value :: values => do
    andThen (← t.setListElement A key value) fun _ t => setListEach A t (key + 1) values

/-- With storage granted, the loop does what it does to the flat table. -/
theorem setListEach_flat (hA : A.Total) (h : t.Ok) (first : Nat) (vs : List Val) :
    ∃ t', t.setListEach A first vs = some ((t.flat.setList first vs).1, t') ∧ t'.Ok ∧
      t'.flat = (t.flat.setList first vs).2 := by
  induction vs generalizing t first with
  | nil => exact ⟨t, rfl, h, rfl⟩
  | cons v vs ih =>
    obtain ⟨t₁, he, hw, hf⟩ := (setListElement_refines h first v).of_total hA
    have hok : t₁.Ok := ok_iff.2 ⟨hw, hf ▸ (Flat.storeElement_does (ok_iff.1 h).2 first v).ok⟩
    simp only [setListEach, he, Option.bind_eq_bind, Option.bind_some, Flat.setList]
    generalize t.flat.storeElement first v = q at hf
    obtain ⟨r, f⟩ := q
    simp only at hf
    subst hf
    cases r with
    | error e => exact ⟨t₁, rfl, hok, rfl⟩
    | ok _ => exact ih hok (first + 1)

/-- A list that is refused is stored up to some element. -/
theorem setListLoop_refused {vs : List Val} {key : Nat} {reserved hashMayMigrate : Bool} (h : t.Ok)
    (ho : setListLoop A vs key reserved hashMayMigrate t = some (.error e, u)) :
    u.Ok ∧ ∃ k < vs.length, t.flat.setList key (vs.take k) = (.ok (), u.flat) := by
  induction vs generalizing t key reserved hashMayMigrate with
  | nil => cases ho
  | cons v vs ih =>
    have hstart : ∀ {w : Table}, w.Ok → w.flat = t.flat → w.Ok ∧ ∃ k < (v :: vs).length,
        t.flat.setList key ((v :: vs).take k) = (.ok (), w.flat) := fun hw hf =>
      ⟨hw, 0, by simp, by rw [hf]; rfl⟩
    obtain ⟨b, hb, -⟩ := bulkCandidate_spec h key v hashMayMigrate
    obtain ⟨c, hc, -⟩ := listHashCannotMigrate_spec h (1 + vs.length)
    simp only [setListLoop, hb, hc, Option.bind_eq_bind, Option.bind_some] at ho
    obtain ⟨bulk, hbulk, ho⟩ := Option.bind_eq_some_iff.1 ho
    cases bulk with
    | true =>
      -- The rest of the list is refused as a whole.
      simp only [if_true, checkVlenGrowth_eq h, Option.bind_some] at ho
      split at ho
      · cases ho
        exact hstart h rfl
      · obtain ⟨cap, hr, -⟩ | hr := reserveArray_cases t A (t.array.length + (1 + vs.length))
        · rw [hr, andThen] at ho
          cases ho
        · rw [hr, andThen] at ho
          cases ho
          exact hstart h rfl
    | false =>
      simp only [Bool.false_eq_true, if_false] at ho
      obtain ⟨⟨res, t₁⟩, hp, ho⟩ := Option.bind_eq_some_iff.1 ho
      obtain ⟨hok₁, hf₁⟩ : t₁.Ok ∧ t₁.flat = t.flat := by
        split at hp
        · obtain ⟨res', t₂, hp', hok, hf, -⟩ := prepareListAppend_flat h
          cases hp'.symm.trans hp
          exact ⟨hok, hf⟩
        · cases hp
          exact ⟨h, rfl⟩
      cases res with
      | error e' =>
        cases ho
        exact hstart hok₁ hf₁
      | ok _ =>
        simp only [andThen] at ho
        obtain ⟨⟨res, t₂⟩, hs, ho⟩ := Option.bind_eq_some_iff.1 ho
        cases res with
        | error e' =>
          cases ho
          have hsame := setListElement_refused hok₁ hs
          exact hstart hsame.right (hsame.flat.symm.trans hf₁)
        | ok _ =>
          -- The first value is stored, and some of the rest.
          obtain ⟨hw, hq, hf⟩ := (setListElement_refines hok₁ key v).of_ok hs
          rw [hf₁] at hq hf
          have hok₂ : t₂.Ok :=
            ok_iff.2 ⟨hw, hf ▸ (Flat.storeElement_does (ok_iff.1 h).2 key v).ok⟩
          obtain ⟨hok, k, hk, hlist⟩ := ih hok₂ ho
          refine ⟨hok, k + 1, Nat.succ_lt_succ hk, ?_⟩
          rw [List.take_succ_cons, Flat.setList]
          generalize t.flat.storeElement key v = q at hq hf
          obtain ⟨r, f⟩ := q
          simp only at hq hf
          subst hq hf
          exact hlist

/-- A list that is refused is stored up to some element, as by storing its values one by one. -/
theorem setList_refused {first : Nat} {vs : List Val} (h : t.Ok)
    (ho : t.setList A first vs = some (.error e, u)) :
    ∃ k < vs.length, ∃ w, t.setListEach .exact first (vs.take k) = some (.ok (), w) ∧ SameFlat w u := by
  obtain ⟨hok, k, hk, hlist⟩ := setListLoop_refused h ho
  obtain ⟨w, hw, hwok, hf⟩ := setListEach_flat (A := .exact) (fun _ _ _ => rfl) h first (vs.take k)
  rw [hlist] at hw hf
  exact ⟨k, hk, w, hw, hwok, hok, hf⟩

/-! ## Refused operations -/

/-- The operations that are refused as a whole. -/
def Whole : TableOp → Prop
  | .insert .. | .append _ | .arrayInsert .. | .arrayRemove _ | .rebuildFromSnapshot .. => True
  | _ => False

theorem Agree.refl (t : Table) : Agree t t := ⟨fun _ => rfl, rfl, fun _ => rfl⟩

theorem rebuildFromSnapshot_refused {vlen arraySlots : Nat} {entries : List (Val × Val)}
    (ho : t.rebuildFromSnapshot vlen arraySlots entries = (.error e, u)) : u = t := by
  rw [rebuildFromSnapshot] at ho
  split at ho
  · cases ho
    rfl
  split at ho
  · cases ho
    rfl
  split at ho
  · cases ho
    rfl
  · simp only at ho
    split at ho
    · cases ho
      rfl
    split at ho
    · cases ho
      rfl
    · cases ho

theorem agree_of_refused {op : TableOp} (h : t.Ok) (hop : Whole op) (ha : t.Admits op)
    (ho : t.apply A op = some (.error e, u)) : Agree t u := by
  have herror : ∀ {o : Option (Outcome Unit)}, o.map returnNil = some (.error e, u) →
      o = some (.error e, u) := by
    rintro (_ | ⟨res, w⟩) hmap
    · cases hmap
    · cases res with
      | ok _ => cases hmap
      | error e' =>
        cases hmap
        rfl
  cases op with
  | insert key v => exact (insert_refused h (herror ho)).agree
  | append v => exact (append_refused h (herror ho)).agree
  | arrayInsert pos v =>
    have ho := herror ho
    rcases Nat.lt_or_eq_of_le ha.2 with hlt | heq
    · rw [arrayInsert_refused h ha.1 (Nat.le_of_lt_succ hlt) ho]
      exact .refl t
    · -- Nothing shifts.
      simp only [arrayInsert, heq, if_true] at ho
      exact (insert_refused h ho).agree
  | arrayRemove pos =>
    rw [arrayRemove_refused h ho]
    exact .refl t
  | rebuildFromSnapshot vlen arraySlots entries =>
    have ho := herror (o := some _) ho
    rw [rebuildFromSnapshot_refused (Option.some.inj ho)]
    exact .refl t
  | _ => exact hop.elim

/-- However storage is granted and refused, an operation that fails leaves the table as it was to
    every observer; a list that fails is stored up to some element. And an insertion or a removal
    that shifts elements reserves first, for everything it does then: whatever an allocator would
    answer, the rest succeeds, in the capacity that was reserved. -/
theorem growth_refused_unobserved (h : t.Reachable) (A : Allocator) :
    (∀ op e u, Whole op → t.Admits op → t.apply A op = some (.error e, u) → Agree t u) ∧
    (∀ key v e u, t.setListElement A key v = some (.error e, u) → Agree t u) ∧
    (∀ first vs e u, t.setList A first vs = some (.error e, u) →
      ∃ k < vs.length, ∃ w, t.setListEach .exact first (vs.take k) = some (.ok (), w) ∧ Agree w u) ∧
    (∀ pos v, 1 ≤ pos → pos ≤ t.arrayLen →
      t.arrayInsert A pos v =
        ((t.reserveInsert A pos v t.arrayLen).bind fun o => andThen o fun _ t₁ =>
          (t₁.shiftUp pos t.arrayLen).bind fun t₂ => t₂.storeShifted A pos v) ∧
      ∀ t₁, t.reserveInsert A pos v t.arrayLen = some (.ok (), t₁) →
        ∃ t₂ t', t₁.shiftUp pos t.arrayLen = some t₂ ∧ t₂.cap = t₁.cap ∧
          (∀ B, t₂.storeShifted B pos v = some (.ok (), t')) ∧ t'.cap ≤ t₁.cap) ∧
    (∀ pos, 1 ≤ pos → pos ≤ t.arrayLen →
      t.arrayRemove A pos = ((t.reserveRemove A pos).bind fun o => andThen o fun _ t₁ =>
        t₁.shiftRemove A pos t.arrayLen) ∧
      ∀ t₁, t.reserveRemove A pos = some (.ok (), t₁) →
        ∃ removed t', (∀ B, t₁.shiftRemove B pos t.arrayLen = some (.ok removed, t')) ∧
          t'.cap ≤ t₁.cap) := by
  have hok := h.ok
  refine ⟨fun op e u => agree_of_refused hok, fun key v e u ho => ?_, fun first vs e u ho => ?_,
    fun pos v h₁ h₂ => ⟨arrayInsert_eq (by omega), fun t₁ ht₁ => ?_⟩,
    fun pos h₁ h₂ => ⟨arrayRemove_eq h₁ h₂, fun t₁ ht₁ => ?_⟩⟩
  · exact (setListElement_refused hok ho).agree
  · obtain ⟨k, hk, w, hw, hsame⟩ := setList_refused hok ho
    exact ⟨k, hk, w, hw, hsame.agree⟩
  · have hb := Contents.border_isBorder (c := ⟨t.flat.arr, []⟩)
    rw [← arrayLen_flat hok.window] at hb
    obtain ⟨cap, extra, liveDelta, hr, hf⟩ | ⟨e, hr⟩ :=
      reserveInsert_cases (A := A) (v := v) hok hb h₁ h₂
    · rw [hr] at ht₁
      cases ht₁
      exact storeShifted_fits (hok.withCap cap) hf
    · rw [hr] at ht₁
      cases ht₁
  · obtain ⟨cap, hr, hf⟩ | hr := reserveRemove_cases (array_ne_nil hok (h₁.trans h₂))
    · rw [hr] at ht₁
      cases ht₁
      have hlen := arrayLen_withCap hok cap
      rw [← hlen]
      exact shiftRemove_fits (hok.withCap cap) h₁ (hlen ▸ h₂) hf
    · rw [hr] at ht₁
      cases ht₁

/-- An insertion below the window that is refused. -/
theorem growth_refused_below : ∃ (A : Allocator) (t u : Table), t.base = 1 ∧ t.arrayLen = 2 ∧
    t.apply A (.arrayInsert 1 (.bool false)) = some (.error .growthFailed, u) ∧ Agree t u := by
  have h₀ : Reachable _ := .withCapacity 0
  have h₁ : Reachable _ := .apply .exact (.rebuildFromSnapshot 2 1 [(.ofNat 2, .bool true)])
    h₀ .nil rfl
  have hA := growth_refused_unobserved h₁ ⟨fun _ _ _ => none, fun h => by cases h⟩
  exact ⟨⟨fun _ _ _ => none, fun h => by cases h⟩, _, _, rfl, by decide, rfl,
    hA.1 (.arrayInsert 1 (.bool false)) _ _ trivial ⟨by decide, by decide⟩ rfl⟩

end Table

end Dellingr
