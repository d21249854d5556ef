import Dellingr.Vm.Table.Refinement

/-!
# Sequence operations

The operations that move several array slots at once refine those of the flat
table too: `arrayInsert` and `arrayRemove`, which shift the stored part of a
sequence with one move of the window's slots, and `setList`, which stores the
positional fields of a constructor, all at once where it can.
-/

namespace Dellingr

open AssocList Val

namespace Table

variable {t : Table} {A : Allocator} {v : Val} {low high base p len s : Nat} {array : List Val}

/-! ## Shifts of the window -/

theorem slotValue_up (h₁ : low ≤ high) (h₂ : high ≤ array.length) :
    slotValue (Shift.up array low high v) base s =
      if s = base + low then v
      else if base + low < s ∧ s ≤ base + high then slotValue array base (s - 1)
      else slotValue array base s := by
  simp only [slotValue, Shift.getElem?_up h₁ h₂]
  by_cases hs : base ≤ s
  · obtain ⟨d, rfl⟩ := Nat.exists_eq_add_of_le hs
    simp only [Nat.add_sub_cancel_left]
    split_ifs <;> first | rfl | omega | skip
    rw [Nat.sub_right_comm, Nat.add_sub_cancel_left]
  · split_ifs <;> first | rfl | omega

theorem slotValue_down (h₁ : low < high) (h₂ : high ≤ array.length) :
    slotValue (Shift.down array low high v) base s =
      if s + 1 = base + high then v
      else if base + low ≤ s ∧ s + 1 < base + high then slotValue array base (s + 1)
      else slotValue array base s := by
  simp only [slotValue, Shift.getElem?_down h₁ h₂]
  by_cases hs : base ≤ s
  · obtain ⟨d, rfl⟩ := Nat.exists_eq_add_of_le hs
    simp only [Nat.add_assoc, Nat.add_sub_cancel_left]
    split_ifs <;> first | rfl | omega
  · split_ifs <;> first | rfl | omega

theorem rotateRight_eq (h₁ : low ≤ high) (h₂ : high < array.length) :
    rotateRight array low high = some (Shift.up array low high array[high]) := by
  rw [rotateRight, if_pos (by omega), List.getElem?_eq_getElem h₂]
  simp only [Option.bind_eq_bind, Option.bind_some, h₁, if_true, Option.pure_def]
  rfl

theorem shiftDown_eq (h₁ : low < high) (h₂ : high ≤ array.length) :
    shiftDown array low high = some (Shift.down array low high .nil) := by
  rw [shiftDown, if_pos ⟨h₁, h₂⟩, Shift.set_down h₁ h₂]

/-! ## Insertion -/

/-- Making the shift of an insertion in the window: the keys below the window are
    nil, so nothing has to move there. The slot at the border is given up. -/
theorem rotate_flat {pos : Nat} (h : t.WindowOk) (h₁ : 1 ≤ pos) (h₂ : pos ≤ len) (h₃ : t.base < len)
    (h₄ : len < t.base + t.array.length) (hnil : slotValue t.array t.base len = .nil) :
    ∃ array, rotateRight t.array (max pos (t.base + 1) - t.base - 1) (len - t.base) = some array ∧
      array.length = t.array.length ∧ ({ t with array := array } : Table).WindowOk ∧
      ({ t with array := array } : Table).flat =
        { t.flat with arr := Shift.up t.flat.arr (pos - 1) len .nil } := by
  have hw := h.window_le
  generalize hlow : max pos (t.base + 1) - t.base - 1 = low
  generalize hhigh : len - t.base = high
  have hle : low ≤ high := by omega
  have hlt : high < t.array.length := by omega
  have hget : t.array[high] = .nil := by
    rw [slotValue, if_pos (by omega), hhigh, List.getElem?_eq_getElem hlt] at hnil
    exact hnil
  refine ⟨_, rotateRight_eq hle hlt, Shift.length_up hle hlt, ⟨?_, ?_, fun i hi => ?_, ?_⟩, ?_⟩
  · simpa only [Shift.length_up hle hlt] using hw
  · simpa only [Shift.length_up hle hlt] using h.lead_le
  · -- The dead prefix only takes nils from itself and from the border.
    rw [Shift.getElem?_up hle hlt.le, hget]
    have hp := h.prefix_nil
    split_ifs
    · exact hp i hi
    · rfl
    · exact hp (i - 1) (Nat.lt_of_le_of_lt (Nat.sub_le _ _) hi)
    · exact hp i hi
  · have hc := Shift.countP_up (q := isLive) (v := t.array[high]) hle hlt
    dsimp only
    rw [h.live_eq]
    omega
  · rw [hget]
    refine Flat.mk.injEq .. ▸ ⟨flat_arr_eq ?_ fun s hs => ?_, rfl, rfl⟩
    · rw [Shift.length_up (by omega) (by rw [flat_arr_length]; omega), flat_arr_length]
    · rw [List.getD_eq_getElem?_getD, Shift.getElem?_up (by omega) (by rw [flat_arr_length]; omega)]
      have hval : ∀ s, t.flat.arr[s]?.getD .nil = slotValue t.array t.base s := by
        intro s
        rw [← List.getD_eq_getElem?_getD, flat_arr_getD h]
      have hbelow : ∀ s < t.base, slotValue t.array t.base s = .nil := fun s hs => by
        rw [slotValue, if_neg (by omega)]
      dsimp only at hs ⊢
      rw [slotValue_up hle hlt.le]
      split_ifs <;> simp only [hval, Option.getD_some] <;> first | rfl | omega | skip
      · rw [hbelow (s - 1) (by omega)]
      · rw [hbelow s (by omega)]
      · rw [hbelow s (by omega), hbelow (s - 1) (by omega)]

/-- The last step of an insertion: its value is written, stored or not. -/
theorem writeAt_refines {pos : Nat} (h : t.WindowOk) (h₁ : 1 ≤ pos)
    (h₂ : pos ≤ t.base + t.array.length) :
    Refines A (· = t.flat)
      (if t.base < pos then (t.writeWindow (pos - t.base - 1) v).map fun t => (.ok (), t)
        else if v.isLive then t.writeOutsideWindow A pos v else some (.ok (), t))
      (.ok (), { t.flat with arr := t.flat.arr.set (pos - 1) v }) := by
  have hw := h.window_le
  by_cases hb : t.base < pos
  · obtain ⟨t', he, hw', hf⟩ := writeWindow_flat (v := v) (p := pos - t.base - 1) h (by omega)
    rw [if_pos hb, he]
    refine ⟨_, _, rfl, hw', .inl ⟨rfl, ?_⟩⟩
    rw [hf, show t.base + (pos - t.base - 1) = pos - 1 by omega]
  · rw [if_neg hb]
    obtain ⟨s, rfl⟩ := Nat.exists_eq_add_of_le' h₁
    cases hv : v.isLive with
    | true => exact writeOutsideWindow_refines h (by omega) (.inl (by omega)) hv
    | false =>
      -- A nil below the window is there already.
      obtain rfl := isLive_eq_false.1 hv
      have hnil : slotValue t.array t.base s = .nil := by rw [slotValue, if_neg (by omega)]
      have harr : t.flat.arr.set s .nil = t.flat.arr :=
        (map_range_set fun i => by split <;> simp_all).symm
      simp only [Bool.false_eq_true, if_false, Nat.add_sub_cancel, harr]
      exact .done h

/-- An insertion that shifts, once the storage is reserved. -/
theorem arrayInsert_shift {pos : Nat} (h : t.Ok) (h₁ : 1 ≤ pos) (h₂ : pos ≤ len)
    (hb : Contents.IsBorder t.flat.arr len) {n : Nat}
    (hg : len = t.vlen → t.flat.growth = .ok n) :
    Refines A Flat.Ok
      (do
        let t₁ :=
          if len == t.vlen then { t with vlen := t.vlen + 1 }.pushSlot .nil
          else if len = t.base + t.array.length then t.pushSlot .nil
          else t
        let low := max pos (t₁.base + 1) - t₁.base - 1
        let high ← checkedSub len t₁.base
        let array ← rotateRight t₁.array low high
        let t₂ := { t₁ with array := array }
        let t₃ ← (if len == t.vlen then t₂.migrateFromHash else some t₂)
        if t₃.base < pos then
          (t₃.writeWindow (pos - t₃.base - 1) v).map fun t => (.ok (), t)
        else if v.isLive then t₃.writeOutsideWindow A pos v
        else return (.ok (), t₃))
      (.ok (), if len < t.vlen then { t.flat with arr := Shift.up t.flat.arr (pos - 1) len v }
        else ({ t.flat with arr := Shift.up t.flat.arr (pos - 1) len v } : Flat).migrate) := by
  have hw := h.window.window_le
  have hble := hb.le
  rw [flat_arr_length] at hble
  -- The border is live, so it lies in the window.
  obtain ⟨hin₁, hin₂⟩ : t.base ≤ len - 1 ∧ len - 1 < t.base + t.array.length := by
    refine lt_of_slotValue_ne_nil ?_
    rw [← flat_arr_getD h.window]
    exact hb.live.resolve_left (by omega)
  have hnil : slotValue t.array t.base len = .nil := by
    rw [← flat_arr_getD h.window]
    exact hb.dead
  rcases Nat.lt_or_eq_of_le hble with hlt | rfl
  · -- The sequence ends inside the array.
    have hne : (len == t.vlen) = false := beq_false_of_ne hlt.ne
    obtain ⟨t₁, ht₁, hflat₁, hw₁, hbase, hlen⟩ : ∃ t₁,
        (if len = t.base + t.array.length then t.pushSlot .nil else t) = t₁ ∧
        t₁.flat = t.flat ∧ t₁.WindowOk ∧ t₁.base = t.base ∧ len < t.base + t₁.array.length := by
      split
      · rename_i he
        refine ⟨_, rfl, ?_, ?_, rfl, ?_⟩
        · simp only [flat, pushSlot, Flat.mk.injEq, and_true]
          exact List.map_congr_left fun s _ => slotValue_append_nil (n := 1)
        · exact h.window.extendNil (n := 1) (by omega)
        · simp only [pushSlot, List.length_append, List.length_singleton]
          omega
      · exact ⟨t, rfl, rfl, h.window, rfl, by omega⟩
    have hnil₁ : slotValue t₁.array t₁.base len = .nil := by
      rw [← flat_arr_getD hw₁, hflat₁, flat_arr_getD h.window]
      exact hnil
    rw [← hbase] at hin₁ hlen
    obtain ⟨array, hr, hal, hw₂, hf₂⟩ := rotate_flat hw₁ h₁ h₂ (by omega) hlen hnil₁
    have hup : (Shift.up t.flat.arr (pos - 1) len .nil).length = t.vlen := by
      rw [Shift.length_up (by omega) (by rw [flat_arr_length]; exact hlt), flat_arr_length]
    have hset : (Shift.up t.flat.arr (pos - 1) len .nil).set (pos - 1) v =
        Shift.up t.flat.arr (pos - 1) len v := Shift.set_up (by omega) hb.le
    simp only [hne, Bool.false_eq_true, if_false, ht₁, checkedSub_of_le (show t₁.base ≤ len by omega),
      hr, Option.bind_eq_bind, Option.bind_some, hlt, if_true]
    have hfin := writeAt_refines (A := A) (v := v) hw₂ h₁ (by dsimp only; omega)
    rw [hf₂, hflat₁] at hfin
    simp only [hset] at hfin
    refine hfin.mono fun f hf => ?_
    rw [hf]
    exact ⟨by rw [hup]; exact h.vlen_le, by rw [hup]; exact h.flat.hash⟩
  · -- The sequence fills the array, which grows by a key.
    have hg := hg rfl
    have hend : t.WindowEnds := by
      rw [WindowEnds]
      omega
    have hflat₁ := flat_pushSlot (v := .nil) hend
    have hw₁ := windowOk_pushSlot (v := .nil) h.window hend
    generalize ht₁ : ({ t with vlen := t.vlen + 1 } : Table).pushSlot .nil = t₁ at hflat₁ hw₁
    have hbase : t₁.base = t.base := by rw [← ht₁]; rfl
    have hvlen : t₁.vlen = t.vlen + 1 := by rw [← ht₁]; rfl
    have hend₁ : t₁.WindowEnds := ht₁ ▸ windowEnds_pushSlot hend
    have hend₂ := hend₁
    rw [WindowEnds] at hend hend₁
    have hnil₁ : slotValue t₁.array t₁.base t.vlen = .nil := by
      rw [← flat_arr_getD hw₁, hflat₁]
      simp
    obtain ⟨array, hr, hal, hw₂, hf₂⟩ := rotate_flat hw₁ h₁ h₂ (by omega) (by omega) hnil₁
    have harr : Shift.up (t.flat.arr ++ [Val.nil]) (pos - 1) t.vlen Val.nil =
        Shift.up t.flat.arr (pos - 1) t.vlen Val.nil := by
      have := Shift.up_append (l := t.flat.arr) (v := Val.nil) (w := Val.nil) (p := pos - 1)
        (by rw [flat_arr_length]; omega)
      rwa [flat_arr_length] at this
    rw [hflat₁] at hf₂
    simp only [harr] at hf₂
    generalize ht₂ : ({ t₁ with array := array } : Table) = t₂ at hw₂ hf₂
    have hvlen₂ : t₂.vlen = t.vlen + 1 := by rw [← ht₂]; exact hvlen
    have hend₂ : t₂.WindowEnds := by
      rw [WindowEnds, ← ht₂]
      dsimp only
      omega
    have hlen : t₂.flat.arr.length = (t.flat.arr ++ [v]).length := by
      rw [flat_arr_length, hvlen₂, List.length_append, flat_arr_length]
      rfl
    have hle : t₂.flat.contents.migrate.arr.length ≤ maxArrayLen := by
      have hcong := Contents.length_migrate_congr (c := t₂.flat.contents)
        (d := ({ t.flat with arr := t.flat.arr ++ [v] } : Flat).contents) hlen (by rw [hf₂]; rfl)
      rw [hcong]
      exact (Flat.growth_spec h.flat hg).2
    have hhash : HashOk t₂.flat.storage t₂.flat.deadCount (t.vlen + 1) := by
      rw [hf₂]
      exact h.flat.hash
    have hok₂ : t₂.OkBelow t₂.vlen :=
      ⟨hw₂, ⟨Contents.length_le_migrate.trans hle, hvlen₂ ▸ hhash⟩⟩
    obtain ⟨t₃, hm, hw₃, hend₃, hf₃⟩ := migrateFromHash_flat hok₂ hend₂ hle
    obtain ⟨-, hok₃, -⟩ := Flat.migrate_spec (f := t₂.flat)
      (by rw [flat_arr_length]; exact hok₂.flat) hle
    have hset : (Shift.up t.flat.arr (pos - 1) t.vlen .nil).set (pos - 1) v =
        Shift.up t.flat.arr (pos - 1) t.vlen v := Shift.set_up (by omega) hb.le
    have hge : t.vlen + 1 ≤ t₃.vlen := by
      have h₃ := congrArg (fun f => f.arr.length) hf₃
      have hgrow := Contents.length_le_migrate (c := t₂.flat.contents)
      rw [← (Flat.migrate_spec (f := t₂.flat) (by rw [flat_arr_length]; exact hok₂.flat) hle).1]
        at hgrow
      simp only [flat_arr_length] at h₃
      have : t₂.flat.arr.length ≤ t₂.flat.migrate.arr.length := hgrow
      rw [flat_arr_length, hvlen₂] at this
      omega
    have hfin := writeAt_refines (A := A) (v := v) hw₃ h₁ (by
      rw [WindowEnds] at hend₃
      omega)
    have hres : ({ t₃.flat with arr := t₃.flat.arr.set (pos - 1) v } : Flat) =
        ({ t.flat with arr := Shift.up t.flat.arr (pos - 1) t.vlen v } : Flat).migrate := by
      rw [hf₃, ← Flat.migrate_set (by rw [flat_arr_length]; omega), hf₂]
      simp only [hset]
    rw [hres] at hfin
    simp only [beq_self_eq_true, if_true, checkedSub_of_le (show t₁.base ≤ t.vlen by omega), hr,
      Option.bind_eq_bind, Option.bind_some, ht₂, hm, Nat.lt_irrefl, if_false]
    refine hfin.mono fun f hf => ?_
    rw [hf, hf₃]
    exact hok₃

/-- The capacity of the window is unobservable. -/
theorem OkBelow.withCap {limit : Nat} (h : t.OkBelow limit) (cap : Nat) :
    ({ t with cap := cap } : Table).OkBelow limit :=
  ⟨h.window, h.flat⟩

theorem arrayInsert_refines {pos : Nat} (h : t.Ok) (h₁ : 1 ≤ pos) (h₂ : pos ≤ t.arrayLen + 1) :
    Refines A Flat.Ok (t.arrayInsert A pos v) (t.flat.arrayInsert pos v) := by
  have hb := Contents.border_isBorder (c := ⟨t.flat.arr, []⟩)
  rw [arrayInsert, Flat.arrayInsert]
  rw [arrayLen_flat h.window] at h₂ ⊢
  generalize Contents.border ⟨t.flat.arr, []⟩ = len at hb h₂
  have hble := hb.le
  simp only [flat_arr_length] at hble ⊢
  by_cases hpos : pos = len + 1
  · rw [if_pos hpos, if_pos hpos]
    exact (insert_refines h).mono fun f hf => hf ▸ (ok_iff.1 h).2
  rw [if_neg hpos, if_neg hpos]
  -- The reservation only changes the capacity.
  have hshift : ∀ {n : Nat}, (len = t.vlen → t.flat.growth = .ok n) → ∀ cap,
      Refines A Flat.Ok _ _ := fun hg cap =>
    arrayInsert_shift (A := A) (v := v) (h.withCap cap) h₁ (by omega : pos ≤ len) hb hg
  have hreserved : ∀ extra liveDelta,
      (∃ cap, (if pos ≤ t.base ∧ v.isLive = true then t.reserveOutsideWindow A pos extra liveDelta
        else t.reserveArray A (t.array.length + extra)) = (.ok (), { t with cap := cap })) ∨
      (if pos ≤ t.base ∧ v.isLive = true then t.reserveOutsideWindow A pos extra liveDelta
        else t.reserveArray A (t.array.length + extra)) = (.error .growthFailed, t) ∧ ¬A.Total := by
    intro extra liveDelta
    split
    · exact reserveArray_spec _
    · exact reserveArray_spec _
  have hokt := (ok_iff.1 h).2
  rcases Nat.lt_or_eq_of_le hble with hlt | rfl
  · have hne : (len == t.vlen) = false := beq_false_of_ne hlt.ne
    simp only [hne, Bool.false_eq_true, if_false, Option.bind_eq_bind, Option.bind_some, hlt, if_true]
      at hshift ⊢
    obtain ⟨cap, hr⟩ | ⟨hr, hT⟩ :=
      hreserved (if len = t.base + t.array.length then 1 else 0) 0
    · simp only [hr, andThen]
      exact hshift (n := 0) (fun he => absurd he hlt.ne) cap
    · simp only [hr, andThen]
      exact .refused h.window hT hokt
  · simp only [beq_self_eq_true, if_true, appendGrowth_flat h (Nat.le_succ _), Option.bind_eq_bind,
      Option.bind_some, Nat.lt_irrefl, if_false] at hshift ⊢
    cases hg : t.flat.growth with
    | error e =>
      simp only [Option.pure_def]
      exact .done h.window
    | ok n =>
      have hn := (Flat.growth_spec (v := v) h.flat hg).1
      simp only [checkedSub_of_le hn, Option.bind_some]
      obtain ⟨cap, hr⟩ | ⟨hr, hT⟩ := hreserved n (n - 1)
      · simp only [hr, andThen]
        exact hshift (n := n) (fun _ => hg) cap
      · simp only [hr, andThen]
        exact .refused h.window hT hokt

/-! ## Removal -/

theorem liveBit_eq_countP : [v].countP isLive = v.liveBit := by
  cases h : v.isLive <;> simp [liveBit, h]

/-- Making the shift of a removal in the window, from a stored slot on. -/
theorem shift_flat (p last lead : Nat) (h : t.WindowOk) (hp : p < last) (hl : last ≤ t.array.length)
    (hlead : lead ≤ t.lead) (hlp : lead ≤ p) :
    ∃ live, checkedSub t.arrayLive ((t.array[p]?.getD .nil).liveBit) = some live ∧
      ({ t with array := Shift.down t.array p last .nil, arrayLive := live, lead := lead } :
        Table).WindowOk := by
  have hpl : p < t.array.length := by omega
  have hget : t.array[p]?.getD .nil = t.array[p] := by
    rw [List.getElem?_eq_getElem hpl, Option.getD_some]
  have hle := h.live_eq ▸ liveBit_le_countP hpl
  rw [hget]
  refine ⟨_, checkedSub_of_le hle, ?_, ?_, fun i hi => ?_, ?_⟩
  · simpa only [Shift.length_down hp hl] using h.window_le
  · simpa only [Shift.length_down hp hl] using hlead.trans h.lead_le
  · rw [Shift.getElem?_down hp hl, if_pos (hi.trans_le hlp)]
    exact h.prefix_nil i (hi.trans_le hlead)
  · have hc := Shift.countP_down (q := isLive) (v := Val.nil) hp hl
    rw [liveBit_eq_countP, liveBit_eq_countP] at hc
    have hlive := h.live_eq
    have hnil : Val.nil.liveBit = 0 := rfl
    dsimp only
    omega

/-- Making the shift of a removal below the window: the keys from the removed one
    to the window are nil, and the first stored value moves below the window. -/
theorem shiftFirst_flat {u : Table} {pos : Nat} (h₁ : 1 ≤ pos) (h₂ : pos ≤ t.base)
    (h₃ : t.base < len) (h₄ : len ≤ t.vlen) (h₅ : len ≤ t.base + t.array.length)
    (hu : u.array = Shift.down t.array 0 (len - t.base) .nil) (hb : u.base = t.base)
    (hv : u.vlen = t.vlen) :
    u.flat.arr.set (t.base - 1) (slotValue t.array t.base t.base) =
      Shift.down t.flat.arr (pos - 1) len .nil := by
  have hslots : ∀ s, slotValue u.array u.base s =
      if s + 1 = len then .nil
      else if t.base ≤ s ∧ s + 1 < len then slotValue t.array t.base (s + 1)
      else slotValue t.array t.base s := by
    intro s
    rw [hu, hb, slotValue_down (by omega) (by omega), show t.base + (len - t.base) = len by omega]
    rfl
  have hbelow : ∀ s < t.base, slotValue t.array t.base s = .nil := fun s hs => by
    rw [slotValue, if_neg (by omega)]
  refine List.ext_getElem? fun i => ?_
  rw [List.getElem?_set, flat_arr_length, hv,
    Shift.getElem?_down (by omega) (by rw [flat_arr_length]; exact h₄)]
  simp only [flat_arr_getElem?, hv, hslots]
  rcases Nat.lt_trichotomy i (t.base - 1) with hi | hi | hi
  · -- Nil moves into nil.
    rw [if_neg (by omega), if_pos (by omega : i < t.vlen), if_neg (by omega), if_neg (by omega),
      if_pos (by omega : i + 1 < len), if_pos (by omega : i + 1 < t.vlen), hbelow i (by omega),
      hbelow (i + 1) (by omega), if_pos (by omega : i < t.vlen), ite_self]
  · rw [if_pos hi.symm, if_pos (by omega), if_neg (by omega), if_pos (by omega : i + 1 < len),
      if_pos (by omega : i + 1 < t.vlen), show i + 1 = t.base by omega]
  · rw [if_neg (by omega), if_neg (by omega : ¬i < pos - 1)]
    split_ifs <;> first | rfl | omega

theorem arrayRemove_refines {pos : Nat} (h : t.Ok) :
    Refines A Flat.Ok (t.arrayRemove A pos)
      (.ok (t.flat.arrayRemove pos).1, (t.flat.arrayRemove pos).2) := by
  have hb := Contents.border_isBorder (c := ⟨t.flat.arr, []⟩)
  rw [arrayRemove, Flat.arrayRemove, arrayLen_flat h.window]
  generalize Contents.border ⟨t.flat.arr, []⟩ = len at hb
  have hble := hb.le
  simp only [flat_arr_length] at hble
  have hokt := (ok_iff.1 h).2
  by_cases hpos : 1 ≤ pos ∧ pos ≤ len
  swap
  · simp only [hpos, if_false]
    obtain ⟨t', he, hw, hf⟩ := remove_flat h (Val.ofNat pos)
    rw [he, get_flat h (Nat.le_succ _), ← hf]
    exact .done hw
  simp only [hpos, and_self, if_true]
  have hw := h.window.window_le
  obtain ⟨hin₁, hin₂⟩ : t.base ≤ len - 1 ∧ len - 1 < t.base + t.array.length := by
    refine lt_of_slotValue_ne_nil ?_
    rw [← flat_arr_getD h.window]
    exact hb.live.resolve_left (by omega)
  have hdown : (Shift.down t.flat.arr (pos - 1) len .nil).length = t.vlen := by
    rw [Shift.length_down (by omega) hb.le, flat_arr_length]
  have hval : ∀ s, t.flat.arr[s]?.getD .nil = slotValue t.array t.base s := by
    intro s
    rw [← List.getD_eq_getElem?_getD, flat_arr_getD h.window]
  have hget : t.array[0]? = some (t.array[0]?.getD .nil) := by
    rw [List.getElem?_eq_getElem (by omega)]
    rfl
  have hbelow : ∀ s < t.base, slotValue t.array t.base s = .nil := fun s hs => by
    rw [slotValue, if_neg (by omega)]
  have hlast : checkedSub len t.base = some (len - t.base) := checkedSub_of_le (by omega)
  obtain ⟨firstLive, hfl⟩ : ∃ b, (if pos ≤ t.base then t.array[0]?.map isLive else some false) =
      some b := by
    rw [hget]
    split <;> exact ⟨_, rfl⟩
  simp only [hfl, Option.bind_eq_bind, Option.bind_some]
  -- The reservation only changes the capacity.
  obtain ⟨cap, hr⟩ | ⟨hr, hT⟩ : (∃ cap, (if firstLive = true then
        t.reserveArray A (t.array.length + 1 + min (t.base - 1) ((t.array.length + 1) / 2))
      else (.ok (), t)) = (.ok (), { t with cap := cap })) ∨
      (if firstLive = true then
        t.reserveArray A (t.array.length + 1 + min (t.base - 1) ((t.array.length + 1) / 2))
      else (.ok (), t)) = (.error .growthFailed, t) ∧ ¬A.Total := by
    split
    · exact reserveArray_spec _
    · exact .inl ⟨t.cap, rfl⟩
  swap
  · simp only [hr, andThen]
    exact .refused h.window hT hokt
  have hremoved : t.arrayValue pos = t.flat.arr.getD (pos - 1) .nil := arrayValue_flat h.window hpos.1
  have hremoved' : ({ t with cap := cap } : Table).arrayValue pos = t.arrayValue pos := by
    cases pos <;> rfl
  simp only [hr, andThen, hlast, Option.bind_some, hremoved', hremoved]
  by_cases hbp : t.base < pos
  · -- The removed slot is stored.
    rw [if_pos hbp]
    have hslot : t.array[pos - t.base - 1]?.getD .nil = t.flat.arr.getD (pos - 1) .nil := by
      rw [flat_arr_getD h.window, slotValue, if_pos (by omega), Nat.sub_right_comm]
    obtain ⟨live, hsub, hwin⟩ := shift_flat (t := { t with cap := cap }) (pos - t.base - 1)
      (len - t.base) (min t.lead (pos - t.base - 1)) h.window (by omega)
      (by dsimp only; omega) (Nat.min_le_left _ _) (Nat.min_le_right _ _)
    dsimp only at hsub
    rw [hslot] at hsub
    simp only [shiftDown_eq (show pos - t.base - 1 < len - t.base by omega)
      (show len - t.base ≤ t.array.length by omega), hsub, Option.bind_some, Option.pure_def]
    refine ⟨_, _, rfl, hwin, .inl ⟨rfl, ?_⟩⟩
    refine Flat.mk.injEq .. ▸ ⟨flat_arr_eq hdown fun s hs => ?_, rfl, rfl⟩
    dsimp only
    rw [slotValue_down (by omega) (by omega), List.getD_eq_getElem?_getD,
      Shift.getElem?_down (by omega) hb.le]
    split_ifs <;> simp only [hval, Option.getD_some] <;> first | rfl | omega
  · -- The keys from the removed one to the window are nil, and the first stored
    -- value moves below the window.
    rw [if_neg hbp]
    generalize hfirst : t.array[0]?.getD Val.nil = first at hget
    obtain ⟨live, hsub, hwin⟩ := shift_flat (t := { t with cap := cap }) 0
      (len - t.base) 0 h.window (by omega) (by dsimp only; omega)
      (Nat.zero_le _) (Nat.le_refl _)
    dsimp only at hsub
    rw [hfirst] at hsub
    simp only [hget, shiftDown_eq (show 0 < len - t.base by omega)
      (show len - t.base ≤ t.array.length by omega), hsub, Option.bind_some, Option.pure_def]
    have hset := shiftFirst_flat (u := { t with
      array := Shift.down t.array 0 (len - t.base) .nil, cap := cap, arrayLive := live, lead := 0 })
      hpos.1 (by omega) (by omega) hble (by omega) rfl rfl rfl
    have hfirst' : slotValue t.array t.base t.base = first := by
      rw [slotValue, if_pos (Nat.le_refl _), Nat.sub_self, hfirst]
    rw [hfirst'] at hset
    by_cases hlive : first.isLive = true
    · rw [if_pos hlive]
      obtain ⟨res, t', he, hw', hres⟩ := writeOutsideWindow_refines (A := A) (s := t.base - 1)
        (v := first) hwin (by dsimp only; omega) (.inl (by dsimp only; omega)) hlive
      rw [Nat.sub_add_cancel (by omega)] at he
      rw [he]
      obtain ⟨rfl, hf⟩ | ⟨rfl, hT, hf⟩ := hres
      · exact ⟨_, _, rfl, hw', .inl ⟨rfl, hf.trans (Flat.mk.injEq .. ▸ ⟨hset, rfl, rfl⟩)⟩⟩
      · refine .refused hw' hT (hf ▸ ⟨?_, ?_⟩)
        · rw [flat_arr_length]
          exact h.vlen_le
        · rw [flat_arr_length]
          exact h.flat.hash
    · rw [if_neg hlive]
      obtain rfl := isLive_eq_false.1 (by simpa using hlive)
      refine ⟨_, _, rfl, hwin, .inl ⟨rfl, Flat.mk.injEq .. ▸ ⟨?_, rfl, rfl⟩⟩⟩
      rw [← hset]
      refine map_range_set fun i => ?_
      split
      · rename_i hi
        rw [slotValue, if_neg]
        dsimp only
        omega
      · rfl

/-! ## Positional fields -/

theorem listHashCannotMigrate_spec {limit : Nat} (h : t.OkBelow limit) (count : Nat) :
    ∃ b, t.listHashCannotMigrate count = some b ∧
      (b = true → ∀ k w, (k, w) ∈ t.flat.contents.hash → k.toNat? = none) := by
  rw [listHashCannotMigrate, hashLiveLen_flat h]
  simp only [Option.bind_eq_bind, Option.bind_some]
  split
  · rename_i hz
    refine ⟨true, rfl, fun _ k w hm => ?_⟩
    have hnil : t.flat.contents.hash = [] := by
      rw [← List.length_eq_zero_iff, ← Flat.liveLen_eq h.flat]
      exact hz
    simp [hnil] at hm
  · refine ⟨_, rfl, fun hb k w hm => ?_⟩
    obtain ⟨hm, hw⟩ := mem_liveEntries.1 hm
    have hst : t.flat.storage = t.storage := rfl
    rw [hst] at hm
    cases hs : t.storage with
    | inline entries =>
      rw [hs] at hb hm
      simp only [Bool.and_eq_true, List.all_eq_true] at hb
      simp only [TableStorage.slots, List.mem_map, Prod.mk.injEq, TableKey.live.injEq] at hm
      obtain ⟨e, he, rfl, rfl⟩ := hm
      have := hb.2 e he
      cases hk : e.1 <;> simp_all [toNat?]
    | map m policy =>
      rw [hs] at hb hm
      simp only [Bool.and_eq_true, List.all_eq_true] at hb
      have := hb.2 (.live k, w) hm
      cases k <;> simp_all [toNat?]

end Table

namespace Flat

variable {f : Flat} {v : Val}

/-- With no numeric key in the hash part, nothing follows an append. -/
theorem append_of_no_numbers (h : f.Ok)
    (hnum : ∀ k w, (k, w) ∈ f.contents.hash → k.toNat? = none) :
    f.append v = if f.arr.length < maxArrayLen then (.ok (), { f with arr := f.arr ++ [v] })
      else (.error .growthFailed, f) := by
  have habs : ∀ n, n ≤ 2 ^ 53 → Absent Val.eq f.contents.hash (Val.ofNat n) := by
    rintro n hn ⟨k, w⟩ hm
    by_contra hne
    rw [Bool.not_eq_false, eq_ofNat_iff hn] at hne
    simp [hnum k w hm] at hne
  by_cases hlt : f.arr.length < maxArrayLen
  · have hmax : f.arr.length + 2 ≤ 2 ^ 53 := by
      have : maxArrayLen + 2 ≤ 2 ^ 53 := by decide
      omega
    obtain ⟨n, hg⟩ : ∃ n, f.growth = .ok n := by
      rw [growth, if_neg (by omega)]
      split
      · exact ⟨1, rfl⟩
      · obtain ⟨fuel, hf⟩ := Nat.exists_eq_succ_of_ne_zero (by omega : maxArrayLen - f.arr.length ≠ 0)
        have hslot : f.slot (Val.ofNat (f.arr.length + 1 + 1)) = none := by
          rw [slot, slotBelow, toNat?_ofNat hmax]
          exact if_neg (by omega)
        have hget : f.get (Val.ofNat (f.arr.length + 1 + 1)) = .nil := by
          rw [get, hslot, hashGet_eq h, Contents.hashGet]
          exact congrArg (Option.getD · Val.nil) (lookup_of_absent (habs _ hmax))
        rw [hf, migrationEnd, if_pos hget]
        exact ⟨_, rfl⟩
    rw [append, hg, if_pos hlt]
    simp only [Prod.mk.injEq, true_and]
    -- The first key that could migrate is absent.
    have hnone : (f.hashTable.hashRemove (Val.ofNat (f.arr.length + 1 + 1))).1 = none := by
      rw [(hashRemove_spec h _).1]
      exact lookup_of_absent (habs _ hmax)
    have hloop : migrateLoop (f.storage.len + 1) false { f with arr := f.arr ++ [v] } =
        (false, { f with arr := f.arr ++ [v] }) := by
      have hhash : ({ f with arr := f.arr ++ [v] } : Flat).hashTable = f.hashTable := rfl
      rw [migrateLoop, hhash, List.length_append, List.length_singleton]
      generalize f.hashTable.hashRemove (Val.ofNat (f.arr.length + 1 + 1)) = r at hnone
      obtain ⟨o, t⟩ := r
      simp only at hnone
      subst hnone
      rfl
    rw [migrate]
    split
    · rfl
    · rw [hloop]
      simp
  · rw [append, if_neg hlt, growth, if_pos (by omega)]

/-- The whole batch may be appended at once. -/
theorem setList_of_no_numbers (h : f.Ok)
    (hnum : ∀ k w, (k, w) ∈ f.contents.hash → k.toNat? = none) (vs : List Val) :
    if f.arr.length + vs.length ≤ maxArrayLen then
      f.setList (f.arr.length + 1) vs = (.ok (), { f with arr := f.arr ++ vs })
    else ∃ e, (f.setList (f.arr.length + 1) vs).1 = .error e := by
  induction vs generalizing f with
  | nil =>
    rw [if_pos (by simpa using h.len_le), List.append_nil]
    rfl
  | cons v vs ih =>
    have happ := append_of_no_numbers (v := v) h hnum
    have hlen := h.len_le
    rw [setList, storeElement, if_pos rfl, happ]
    by_cases hlt : f.arr.length < maxArrayLen
    · have hok : ({ f with arr := f.arr ++ [v] } : Flat).Ok := by
        have := append_does (v := v) h
        rw [happ, if_pos hlt] at this
        exact this.ok
      have := ih (f := { f with arr := f.arr ++ [v] }) hok hnum
      simp only [List.length_append, List.length_singleton, List.append_assoc, List.singleton_append]
        at this
      simp only [hlt, if_true, List.length_cons]
      rwa [show f.arr.length + (vs.length + 1) = f.arr.length + 1 + vs.length by omega]
    · rw [if_neg (by simp; omega)]
      simp only [hlt, if_false]
      exact ⟨_, rfl⟩

end Flat

namespace Table

variable {t : Table} {A : Allocator} {v : Val}

theorem prepareListAppend_flat (h : t.Ok) {count : Nat} :
    ∃ res t', t.prepareListAppend A count = some (res, t') ∧ t'.Ok ∧ t'.flat = t.flat ∧
      (res = .ok () ∨ res = .error .growthFailed ∧ ¬A.Total) := by
  obtain ⟨b, hb⟩ : ∃ b, t.appendsArePlain = some b := by
    rw [appendsArePlain, hashLiveLen_flat h]
    split <;> exact ⟨_, rfl⟩
  rw [prepareListAppend, hb]
  simp only [Option.bind_eq_bind, Option.bind_some]
  split
  · obtain ⟨cap, hr⟩ | ⟨hr, hT⟩ := reserveArray_spec (A := A) (t := t) (t.array.length + count)
    · exact ⟨_, _, by rw [hr]; rfl, h.withCap cap, rfl, .inl rfl⟩
    · exact ⟨_, _, by rw [hr]; rfl, h, rfl, .inr ⟨rfl, hT⟩⟩
  · rw [prepareAppend]
    obtain ⟨lead, he, hw⟩ := advanceLead_eq (t := t)
    obtain ⟨r, array, cap, base, lead, live, hp, hw', hs, hr⟩ :=
      prepareAppendAfterLead_spec (A := A) (t := { t with lead := lead }) (hw h.window)
    rw [he, hp]
    have hok := h.withWindow cap hw' hs
    have hflat := flat_withWindow (t := t) cap lead live hs
    obtain ⟨rfl, -⟩ | ⟨rfl, hT⟩ := hr
    · simp only [andThen]
      obtain ⟨cap', hr⟩ | ⟨hr, hT⟩ := reserveArray_spec (A := A)
        (t := t.withWindow array cap base lead live) (array.length + count)
      · exact ⟨_, _, congrArg some hr, hok.withCap cap', hflat, .inl rfl⟩
      · exact ⟨_, _, congrArg some hr, hok, hflat, .inr ⟨rfl, hT⟩⟩
    · exact ⟨_, _, rfl, hok, hflat, .inr ⟨rfl, hT⟩⟩

theorem bulkCandidate_spec (h : t.Ok) (key : Nat) (v : Val) (hashMayMigrate : Bool) :
    ∃ b, t.bulkCandidate key v hashMayMigrate = some b ∧
      (b = true → key = t.vlen + 1 ∧ t.WindowEnds) := by
  rw [bulkCandidate, hashLiveLen_flat h]
  split
  · rename_i hc
    simp only [Bool.and_eq_true, Bool.or_eq_true, beq_iff_eq, List.isEmpty_iff] at hc
    have hend : t.WindowEnds := by
      obtain ⟨-, ⟨-, he⟩ | ⟨⟨he, hb⟩, -⟩⟩ := hc
      · exact he
      · rw [WindowEnds, he, hb]
        rfl
    split
    · exact ⟨true, rfl, fun _ => ⟨hc.1, hend⟩⟩
    · exact ⟨_, rfl, fun _ => ⟨hc.1, hend⟩⟩
  · exact ⟨false, rfl, fun hb => by simp at hb⟩

theorem extendSlots_flat (h : t.WindowOk) (hend : t.WindowEnds) (vs : List Val) :
    (t.extendSlots vs).WindowOk ∧
      (t.extendSlots vs).flat = { t.flat with arr := t.flat.arr ++ vs } := by
  rw [WindowEnds] at hend
  refine ⟨⟨?_, ?_, fun i hi => ?_, ?_⟩, Flat.mk.injEq .. ▸ ⟨?_, rfl, rfl⟩⟩
  · simp only [extendSlots, List.length_append]
    omega
  · simp only [extendSlots, List.length_append]
    exact h.lead_le.trans (Nat.le_add_right _ _)
  · simp only [extendSlots] at hi ⊢
    rw [List.getElem?_append_left (hi.trans_le h.lead_le)]
    exact h.prefix_nil i hi
  · simp only [extendSlots, List.countP_append, h.live_eq]
  · refine flat_arr_eq (by simp [extendSlots]) fun s hs => ?_
    simp only [extendSlots] at hs ⊢
    rw [List.getD_eq_getElem?_getD, List.getElem?_append, flat_arr_length, slotValue]
    split
    · rename_i hb
      rw [List.getElem?_append]
      rcases Nat.lt_or_ge s t.vlen with hlt | hge
      · rw [if_pos (by omega), if_pos hlt, flat_arr_getElem?, if_pos hlt, slotValue, if_pos hb]
        rfl
      · rw [if_neg (by omega), if_neg (by omega)]
        congr 2
        omega
    · rw [if_pos (by omega), flat_arr_getElem?, if_pos (by omega), slotValue, if_neg (by omega)]
      rfl

/-- What `setList` does: all the fields are stored, or it is refused. -/
structure SetListOk (A : Allocator) (f : Flat) (first : Nat) (vs : List Val)
    (res : Except TableError Unit) (t' : Table) : Prop where
  ok : t'.Ok
  stored : res = .ok () → f.setList first vs = (.ok (), t'.flat)
  refused : ∀ e, res = .error e → ¬A.Total ∨ ∃ e', (f.setList first vs).1 = .error e'

theorem setListElement_refines (h : t.Ok) (key : Nat) (v : Val) :
    Refines A (· = t.flat) (t.setListElement A key v) (t.flat.storeElement key v) := by
  rw [setListElement, Flat.storeElement, flat_arr_length]
  split
  · exact append_refines h
  · exact insert_refines h

theorem Flat.setList_cons_error {f g : Flat} {key : Nat} {v : Val} {vs : List Val} {e : TableError}
    (h : f.storeElement key v = (.error e, g)) : f.setList key (v :: vs) = (.error e, g) := by
  rw [Flat.setList, h]

theorem Flat.setList_cons_ok {f g : Flat} {key : Nat} {v : Val} {vs : List Val}
    (h : f.storeElement key v = (.ok (), g)) : f.setList key (v :: vs) = g.setList (key + 1) vs := by
  rw [Flat.setList, h]

theorem setListLoop_spec (h : t.Ok) {vs : List Val} {key : Nat} {reserved hashMayMigrate : Bool} :
    ∃ res t', setListLoop A vs key reserved hashMayMigrate t = some (res, t') ∧
      SetListOk A t.flat key vs res t' := by
  induction vs generalizing t key reserved hashMayMigrate with
  | nil => exact ⟨_, _, rfl, h, fun _ => rfl, fun e he => by simp at he⟩
  | cons v vs ih =>
    obtain ⟨b, hb, hcand⟩ := bulkCandidate_spec h key v hashMayMigrate
    obtain ⟨c, hc, hnum⟩ := listHashCannotMigrate_spec h (1 + vs.length)
    simp only [setListLoop, hb, hc, Option.bind_eq_bind, Option.bind_some]
    by_cases hbc : b = true ∧ c = true
    · -- The rest of the batch lands in one extend.
      obtain ⟨rfl, rfl⟩ := hbc
      obtain ⟨rfl, hend⟩ := hcand rfl
      have hlist := Flat.setList_of_no_numbers (ok_iff.1 h).2 (hnum rfl) (v :: vs)
      simp only [flat_arr_length, List.length_cons] at hlist
      simp only [if_true, Option.bind_some, checkVlenGrowth_eq h]
      have hle := h.vlen_le
      by_cases hroom : maxArrayLen - t.vlen < 1 + vs.length
      · rw [if_neg (by omega)] at hlist
        simp only [hroom, if_true, Option.pure_def]
        exact ⟨_, _, rfl, h, fun he => by simp at he, fun e _ => .inr hlist⟩
      · rw [if_pos (by omega)] at hlist
        simp only [hroom, if_false]
        obtain ⟨cap, hr⟩ | ⟨hr, hT⟩ := reserveArray_spec (A := A) (t := t)
          (t.array.length + (1 + vs.length))
        · simp only [hr, andThen]
          obtain ⟨hw, hf⟩ := extendSlots_flat (t := { t with cap := cap }) h.window hend (v :: vs)
          have hd := Flat.setList_does (ok_iff.1 h).2 (t.vlen + 1) (v :: vs)
          rw [hlist] at hd
          exact ⟨_, _, rfl, ok_iff.2 ⟨hw, hf ▸ hd.ok⟩, fun _ => by rw [hlist, hf]; rfl,
            fun e he => by simp at he⟩
        · simp only [hr, andThen]
          exact ⟨_, _, rfl, h, fun he => by simp at he, fun e _ => .inl hT⟩
    · -- One element, then the rest.
      have hbulk : ∃ d, (if b = true then some c else some false) = some d ∧ d = false := by
        cases b <;> cases c <;> simp_all
      obtain ⟨_, hbulk, rfl⟩ := hbulk
      simp only [hbulk, Option.bind_some, Bool.false_eq_true, if_false]
      obtain ⟨res, t₁, hp, hok₁, hf₁, hres⟩ : ∃ res t₁,
          (if (key == t.vlen + 1 && !reserved) = true then t.prepareListAppend A (1 + vs.length)
            else some (.ok (), t)) = some (res, t₁) ∧ t₁.Ok ∧ t₁.flat = t.flat ∧
          (res = .ok () ∨ res = .error .growthFailed ∧ ¬A.Total) := by
        split
        · exact prepareListAppend_flat h
        · exact ⟨_, _, rfl, h, rfl, .inl rfl⟩
      simp only [hp, Option.bind_some]
      obtain rfl | ⟨rfl, hT⟩ := hres
      swap
      · exact ⟨_, _, rfl, hok₁, fun he => by simp at he, fun e _ => .inl hT⟩
      obtain ⟨res, t₂, he, hw₂, hr⟩ := setListElement_refines (A := A) hok₁ key v
      simp only [andThen, he, Option.bind_some]
      have hd := Flat.storeElement_does (ok_iff.1 h).2 key v
      rw [hf₁] at hr
      obtain ⟨rfl, hf₂⟩ | ⟨rfl, hT, hf₂⟩ := hr
      · have hok₂ : t₂.Ok := ok_iff.2 ⟨hw₂, hf₂ ▸ hd.ok⟩
        rcases hstore : t.flat.storeElement key v with ⟨r, f⟩
        rw [hstore] at hf₂
        simp only at hf₂
        subst hf₂
        cases r with
        | error e =>
          exact ⟨_, _, rfl, hok₂, fun hr => by simp at hr, fun e' _ =>
            .inr ⟨e, by rw [Flat.setList_cons_error hstore]⟩⟩
        | ok _ =>
          obtain ⟨res, t', he', hs⟩ := ih hok₂
          refine ⟨res, t', he', hs.ok, fun hr => ?_, fun e hr => ?_⟩
          · rw [Flat.setList_cons_ok hstore]
            exact hs.stored hr
          · rw [Flat.setList_cons_ok hstore]
            exact hs.refused e hr
      · exact ⟨_, _, rfl, ok_iff.2 ⟨hw₂, hf₂ ▸ (ok_iff.1 h).2⟩, fun he => by simp at he,
          fun e _ => .inl hT⟩

theorem setList_spec (h : t.Ok) (first : Nat) (vs : List Val) :
    ∃ res t', t.setList A first vs = some (res, t') ∧ SetListOk A t.flat first vs res t' :=
  setListLoop_spec h

end Table

end Dellingr
