import Dellingr.Vm.Table

/-!
# The window of the array part

The array part of a table is `vlen` slots, of which a window is stored. The
value of a slot (`slotValue`) reads nil outside the window, so the slots do not
depend on where the window lies: dropping a dead prefix, restarting an all-dead
window and extending it with nil slots change no value.

`WindowOk` is the invariant of the window: it lies inside the array, its hinted
prefix is dead, and its live slots are counted. The operations on the window
are given by what they do to the values of slots.
-/

namespace Dellingr

open Val

/-- The value of an array slot (the key minus one), nil outside the window. -/
def slotValue (array : List Val) (base s : Nat) : Val :=
  if base ≤ s then array[s - base]?.getD .nil else .nil

/-- The invariant of the window. -/
structure WindowOk (array : List Val) (base vlen lead live : Nat) : Prop where
  window_le : base + array.length ≤ vlen
  lead_le : lead ≤ array.length
  prefix_nil : ∀ i < lead, array[i]? = some .nil
  live_eq : live = array.countP isLive

theorem Table.arrayValue_succ (t : Table) (s : Nat) :
    t.arrayValue (s + 1) = slotValue t.array t.base s := by
  simp only [arrayValue, windowPosition, slotValue]
  by_cases h : t.base ≤ s
  · by_cases h' : s - t.base < t.array.length
    · simp [h, h']
    · simp [h, h']
  · simp [h]

/-! ## Counting live slots -/

section Count

variable {array : List Val} {v : Val} {p n : Nat}

theorem countP_eq_zero_iff : array.countP isLive = 0 ↔ ∀ i : Nat, array[i]?.getD .nil = .nil := by
  rw [List.countP_eq_zero]
  constructor
  · intro h i
    cases hi : array[i]? with
    | none => rfl
    | some v => simpa [isLive] using h v (List.mem_of_getElem? hi)
  · intro h v hv
    obtain ⟨i, hi⟩ := List.mem_iff_getElem?.1 hv
    have := h i
    rw [hi] at this
    simpa [isLive] using this

theorem countP_append_singleton : (array ++ [v]).countP isLive = array.countP isLive + v.liveBit := by
  cases h : v.isLive <;> simp [liveBit, h]

theorem countP_set (h : p < array.length) :
    (array.set p v).countP isLive + (array[p]).liveBit = array.countP isLive + v.liveBit := by
  rw [List.set_eq_take_cons_drop v h]
  conv_rhs => rw [← List.take_append_drop p array, List.drop_eq_getElem_cons h]
  simp only [List.countP_append, List.countP_cons, liveBit]
  omega

theorem liveBit_le_countP (h : p < array.length) : (array[p]).liveBit ≤ array.countP isLive := by
  rw [liveBit]
  split
  · exact List.countP_pos_iff.2 ⟨_, List.getElem_mem h, ‹_›⟩
  · exact Nat.zero_le _

theorem countP_replicate_nil : (List.replicate n Val.nil).countP isLive = 0 := by
  simp [List.countP_replicate]

end Count

/-! ## Values of slots -/

section SlotValue

variable {array : List Val} {base s p n : Nat} {v : Val}

theorem slotValue_of_all_nil (h : array.countP isLive = 0) : slotValue array base s = .nil := by
  rw [slotValue]
  split
  · exact countP_eq_zero_iff.1 h _
  · rfl

theorem slotValue_of_ge (h : base + array.length ≤ s) : slotValue array base s = .nil := by
  rw [slotValue]
  split
  · rw [List.getElem?_eq_none (by omega)]
    rfl
  · rfl

/-- A live slot lies in the window. -/
theorem lt_of_slotValue_ne_nil (h : slotValue array base s ≠ .nil) :
    base ≤ s ∧ s < base + array.length := by
  constructor
  · by_contra hs
    exact h (if_neg hs)
  · by_contra hs
    exact h (slotValue_of_ge (Nat.le_of_not_lt hs))

theorem slotValue_set (h : p < array.length) :
    slotValue (array.set p v) base s = if s = base + p then v else slotValue array base s := by
  simp only [slotValue]
  by_cases hs : base ≤ s
  · simp only [hs, if_true, List.getElem?_set]
    by_cases hp : p = s - base
    · rw [if_pos hp, if_pos h, if_pos (by omega)]
      rfl
    · rw [if_neg hp, if_neg (by omega)]
  · simp only [hs, if_false]
    rw [if_neg (by omega)]

theorem slotValue_append (h : s ≠ base + array.length) :
    slotValue (array ++ [v]) base s = slotValue array base s := by
  simp only [slotValue]
  by_cases hs : base ≤ s
  · simp only [hs, if_true]
    rcases Nat.lt_or_ge (s - base) array.length with hlt | hge
    · rw [List.getElem?_append_left hlt]
    · rw [List.getElem?_eq_none (by simp; omega), List.getElem?_eq_none hge]
  · simp only [hs, if_false]

theorem slotValue_append_self : slotValue (array ++ [v]) base (base + array.length) = v := by
  simp [slotValue]

theorem slotValue_append_nil :
    slotValue (array ++ List.replicate n .nil) base s = slotValue array base s := by
  simp only [slotValue, List.getElem?_append, List.getElem?_replicate]
  split
  · split
    · rfl
    · rw [List.getElem?_eq_none (by omega)]
      split <;> rfl
  · rfl

theorem slotValue_prepend_nil :
    slotValue (List.replicate n .nil ++ array) base s = slotValue array (base + n) s := by
  simp only [slotValue, List.getElem?_append, List.getElem?_replicate, List.length_replicate]
  by_cases h : base + n ≤ s
  · rw [if_pos (by omega), if_neg (by omega), if_pos h, Nat.sub_sub]
  · rw [if_neg h]
    split
    · rw [if_pos (by omega), if_pos (by omega)]
      rfl
    · rfl

theorem slotValue_drop (h : ∀ i < n, array[i]? = some .nil) (hn : n ≤ array.length) :
    slotValue (array.drop n) (base + n) s = slotValue array base s := by
  have harr : array = List.replicate n .nil ++ array.drop n := by
    conv_lhs => rw [← List.take_append_drop n array]
    congr 1
    refine List.eq_replicate_iff.2 ⟨by simp [hn], fun b hb => ?_⟩
    obtain ⟨i, hi⟩ := List.mem_iff_getElem?.1 hb
    rw [List.getElem?_take] at hi
    split at hi
    · rw [h i ‹_›] at hi
      exact (Option.some.inj hi).symm
    · simp at hi
  conv_rhs => rw [harr]
  rw [slotValue_prepend_nil]

end SlotValue

/-! ## The dead prefix -/

/-- Stepping over nil slots keeps the prefix dead. -/
theorem skipNil_spec {array : List Val} (fuel : Nat) {lead : Nat} (hle : lead ≤ array.length)
    (hp : ∀ i < lead, array[i]? = some .nil) :
    Table.skipNil array fuel lead ≤ array.length ∧
      ∀ i < Table.skipNil array fuel lead, array[i]? = some .nil := by
  induction fuel generalizing lead with
  | zero => exact ⟨hle, hp⟩
  | succ fuel ih =>
    rw [Table.skipNil]
    split
    · rename_i hnil
      refine ih ?_ fun i hi => ?_
      · exact (List.getElem?_eq_some_iff.1 hnil).1
      · rcases Nat.lt_succ_iff_lt_or_eq.1 hi with hi | rfl
        · exact hp i hi
        · exact hnil
    · exact ⟨hle, hp⟩

namespace WindowOk

variable {array : List Val} {base vlen lead live p : Nat} {v : Val}

theorem advance (h : WindowOk array base vlen lead live) (fuel : Nat) :
    WindowOk array base vlen (Table.skipNil array fuel lead) live where
  window_le := h.window_le
  lead_le := (skipNil_spec fuel h.lead_le h.prefix_nil).1
  prefix_nil := (skipNil_spec fuel h.lead_le h.prefix_nil).2
  live_eq := h.live_eq

/-- The hint may be lowered. -/
theorem lower {lead' : Nat} (h : WindowOk array base vlen lead live) (hle : lead' ≤ lead) :
    WindowOk array base vlen lead' live where
  window_le := h.window_le
  lead_le := hle.trans h.lead_le
  prefix_nil i hi := h.prefix_nil i (hi.trans_le hle)
  live_eq := h.live_eq

/-- An all-dead window may be dropped, and restarted anywhere in the array. -/
theorem reset (base : Nat) (hb : base ≤ vlen) : WindowOk [] base vlen 0 0 where
  window_le := by simpa using hb
  lead_le := Nat.le_refl _
  prefix_nil _ hi := absurd hi (Nat.not_lt_zero _)
  live_eq := rfl

/-- The dead prefix may be dropped. -/
theorem dropPrefix (h : WindowOk array base vlen lead live) :
    WindowOk (array.drop lead) (base + lead) vlen 0 live where
  window_le := by
    have := h.window_le
    have := h.lead_le
    rw [List.length_drop]
    omega
  lead_le := Nat.zero_le _
  prefix_nil _ hi := absurd hi (Nat.not_lt_zero _)
  live_eq := by
    rw [h.live_eq]
    conv_lhs => rw [← List.take_append_drop lead array, List.countP_append]
    rw [Nat.add_eq_right, List.countP_eq_zero]
    intro v hv
    obtain ⟨i, hi⟩ := List.mem_iff_getElem?.1 hv
    rw [List.getElem?_take] at hi
    split at hi
    · rw [h.prefix_nil i ‹_›] at hi
      simp [← Option.some.inj hi]
    · simp at hi

/-- A window may be extended with nil slots, as far as the array goes. -/
theorem extendNil {n : Nat} (h : WindowOk array base vlen lead live)
    (hn : base + (array.length + n) ≤ vlen) :
    WindowOk (array ++ List.replicate n .nil) base vlen lead live where
  window_le := by simpa using hn
  lead_le := by
    have := h.lead_le
    simp
    omega
  prefix_nil i hi := by
    rw [List.getElem?_append_left (hi.trans_le h.lead_le)]
    exact h.prefix_nil i hi
  live_eq := by rw [List.countP_append, countP_replicate_nil, h.live_eq, Nat.add_zero]

/-- Extending the array and its window by a value. -/
theorem push (h : WindowOk array base vlen lead live) (hend : base + array.length = vlen) :
    WindowOk (array ++ [v]) base (vlen + 1) lead (live + v.liveBit) where
  window_le := by simp; omega
  lead_le := by
    have := h.lead_le
    simp
    omega
  prefix_nil i hi := by
    rw [List.getElem?_append_left (hi.trans_le h.lead_le)]
    exact h.prefix_nil i hi
  live_eq := by rw [countP_append_singleton, h.live_eq]

/-- The array may be longer than the window. -/
theorem mono {vlen' : Nat} (h : WindowOk array base vlen lead live) (hv : vlen ≤ vlen') :
    WindowOk array base vlen' lead live where
  window_le := h.window_le.trans hv
  lead_le := h.lead_le
  prefix_nil := h.prefix_nil
  live_eq := h.live_eq

end WindowOk

/-! ## Operations -/

namespace Table

/-- The table with another window. -/
abbrev withWindow (t : Table) (array : List Val) (cap base lead live : Nat) : Table :=
  { t with array := array, cap := cap, base := base, lead := lead, arrayLive := live }

variable {t : Table} {A : Allocator} {p : Nat} {v : Val}

/-- A write in the window: only the slot, the count and the hint change. -/
theorem writeWindow_spec (h : WindowOk t.array t.base t.vlen t.lead t.arrayLive)
    (hp : p < t.array.length) :
    ∃ lead live, t.writeWindow p v =
        some { t with array := t.array.set p v, arrayLive := live, lead := lead } ∧
      WindowOk (t.array.set p v) t.base t.vlen lead live := by
  have hsub : checkedSub t.arrayLive (t.array[p]).liveBit =
      some (t.arrayLive - (t.array[p]).liveBit) :=
    checkedSub_of_le (h.live_eq ▸ liveBit_le_countP hp)
  have hlive : t.arrayLive - (t.array[p]).liveBit + v.liveBit = (t.array.set p v).countP isLive := by
    have h₁ := countP_set (v := v) hp
    have h₂ := liveBit_le_countP hp
    have h₃ := h.live_eq
    omega
  -- The hint below the written slot stays right.
  have hlow : ∀ lead', lead' ≤ t.lead → (lead' ≤ p ∨ v = .nil) →
      WindowOk (t.array.set p v) t.base t.vlen lead'
        (t.arrayLive - (t.array[p]).liveBit + v.liveBit) := by
    intro lead' hle hv
    refine ⟨by simpa using h.window_le, by simpa using hle.trans h.lead_le, fun i hi => ?_, hlive⟩
    rw [List.getElem?_set]
    split
    · rename_i hpi
      subst hpi
      rcases hv with hv | rfl
      · omega
      · simp
    · exact h.prefix_nil i (hi.trans_le hle)
  simp only [writeWindow, List.getElem?_eq_getElem hp, hsub, Option.bind_eq_bind, Option.bind_some,
    Option.pure_def]
  by_cases hpl : p ≤ t.lead
  · rw [if_pos hpl]
    simp only [notePrefixWrite]
    cases hv : v.isLive with
    | true =>
      rw [if_pos rfl]
      exact ⟨_, _, rfl, hlow _ (Nat.min_le_left _ _) (.inl (Nat.min_le_right _ _))⟩
    | false =>
      obtain rfl := isLive_eq_false.1 hv
      simp only [Bool.false_eq_true, if_false]
      split
      · -- A nil written at the hint extends it.
        rename_i hpe
        refine ⟨_, _, rfl, ?_⟩
        have hw : WindowOk (t.array.set p .nil) t.base t.vlen (t.lead + 1)
            (t.arrayLive - (t.array[p]).liveBit + Val.nil.liveBit) := by
          refine ⟨by simpa using h.window_le, by simp; omega, fun i hi => ?_, hlive⟩
          rw [List.getElem?_set]
          split
          · simp
          · exact h.prefix_nil i (by omega)
        exact hw.advance _
      · exact ⟨_, _, rfl, hlow _ (Nat.le_refl _) (.inr rfl)⟩
  · rw [if_neg hpl]
    exact ⟨_, _, rfl, hlow _ (Nat.le_refl _) (.inl (Nat.le_of_not_le hpl))⟩

/-- A reservation only changes the capacity. -/
theorem reserveArray_spec (n : Nat) :
    (∃ cap, t.reserveArray A n = (.ok (), { t with cap := cap })) ∨
      t.reserveArray A n = (.error .growthFailed, t) ∧ ¬A.Total := by
  rw [reserveArray]
  split
  · split
    · exact .inl ⟨_, rfl⟩
    · rename_i hn
      refine .inr ⟨rfl, fun hT => ?_⟩
      simpa [hn] using hT t.array.length t.cap (n - t.array.length)
  · exact .inl ⟨t.cap, rfl⟩

theorem advanceLead_eq : ∃ lead, t.advanceLead = { t with lead := lead } ∧
    (WindowOk t.array t.base t.vlen t.lead t.arrayLive →
      WindowOk t.array t.base t.vlen lead t.arrayLive) :=
  ⟨_, rfl, fun h => h.advance _⟩

/-- Preparing an append changes no slot, and makes the window end at `vlen`. A
    refused reservation leaves it shorter. -/
theorem prepareAppendAfterLead_spec (h : WindowOk t.array t.base t.vlen t.lead t.arrayLive) :
    ∃ r array cap base lead live, t.prepareAppendAfterLead A =
        (r, t.withWindow array cap base lead live) ∧
      WindowOk array base t.vlen lead live ∧
      (∀ s, slotValue array base s = slotValue t.array t.base s) ∧
      (r = .ok () ∧ base + array.length = t.vlen ∨ r = .error .growthFailed ∧ ¬A.Total) := by
  rw [prepareAppendAfterLead]
  by_cases hz : t.arrayLive = 0
  · rw [if_pos hz]
    have hnil : t.array.countP isLive = 0 := h.live_eq ▸ hz
    split
    · refine ⟨.ok (), _, _, _, _, _, rfl, WindowOk.reset _ (Nat.le_refl _), fun s => ?_,
        .inl ⟨rfl, rfl⟩⟩
      rw [slotValue_of_all_nil hnil]
      exact slotValue_of_all_nil rfl
    · rename_i hne
      simp only [not_or, not_not] at hne
      refine ⟨.ok (), t.array, t.cap, t.base, t.lead, t.arrayLive, rfl, h, fun _ => rfl,
        .inl ⟨rfl, ?_⟩⟩
      rw [hne.1, hne.2]
      rfl
  · rw [if_neg hz]
    -- Dropping the dead prefix first changes nothing either.
    obtain ⟨array, cap, base, lead, hd, hw, hs⟩ : ∃ array cap base lead,
        (if t.array.length ≤ t.lead * 2 then t.dropDeadPrefix else t) =
          { t with array := array, cap := cap, base := base, lead := lead } ∧
        WindowOk array base t.vlen lead t.arrayLive ∧
        ∀ s, slotValue array base s = slotValue t.array t.base s := by
      split
      · exact ⟨_, _, _, _, rfl, h.dropPrefix, fun s => slotValue_drop h.prefix_nil h.lead_le⟩
      · exact ⟨_, _, _, _, rfl, h, fun _ => rfl⟩
    rw [hd]
    simp only
    split
    · rename_i hlt
      obtain ⟨cap', hr⟩ | ⟨hr, hT⟩ := reserveArray_spec (A := A)
        (t := { t with array := array, cap := cap, base := base, lead := lead }) (t.vlen - base)
      · rw [hr]
        refine ⟨.ok (), _, _, _, _, _, rfl,
          hw.extendNil (n := t.vlen - base - array.length) (by omega), fun s => ?_,
          .inl ⟨rfl, ?_⟩⟩
        · rw [slotValue_append_nil, hs]
        · have := hw.window_le
          simp
          omega
      · rw [hr]
        exact ⟨_, _, _, _, _, _, rfl, hw, hs, .inr ⟨rfl, hT⟩⟩
    · rename_i hlt
      have := hw.window_le
      exact ⟨.ok (), _, _, _, _, _, rfl, hw, hs, .inl ⟨rfl, by omega⟩⟩

/-- A live value written outside the window: the window moves to cover it, and
    no other slot changes. -/
theorem writeOutsideWindow_spec (h : WindowOk t.array t.base t.vlen t.lead t.arrayLive) {key : Nat}
    (h₁ : 1 ≤ key) (h₂ : key ≤ t.vlen)
    (hout : key ≤ t.base ∨ t.base + t.array.length < key) (hv : v.isLive = true) :
    ∃ r array cap base lead live, t.writeOutsideWindow A key v =
        some (r, t.withWindow array cap base lead live) ∧
      WindowOk array base t.vlen lead live ∧
      (r = .ok () ∧ (∀ s, slotValue array base s =
          if s = key - 1 then v else slotValue t.array t.base s) ∨
        r = .error .growthFailed ∧ ¬A.Total ∧
          ∀ s, slotValue array base s = slotValue t.array t.base s) := by
  have hbit : v.liveBit = 1 := by rw [liveBit, if_pos hv]
  rw [writeOutsideWindow, reserveOutsideWindow]
  obtain ⟨cap, hr⟩ | ⟨hr, hT⟩ := reserveArray_spec (A := A) (t := t)
    (if t.arrayLive + 0 = 0 then 1
      else if key ≤ t.base then
        t.array.length + 0 + (t.base - (key - 1 - min (key - 1) ((t.arrayLive + 0 + 1) / 2)))
      else key - t.base)
  swap
  · simp only [hr]
    exact ⟨_, _, _, _, _, _, rfl, h, .inr ⟨rfl, hT, fun _ => rfl⟩⟩
  simp only [hr]
  by_cases hz : t.arrayLive = 0
  · -- An all-dead window restarts at the key.
    rw [if_pos hz]
    have hnil : t.array.countP isLive = 0 := h.live_eq ▸ hz
    refine ⟨.ok (), [v], _, _, _, 1, rfl, ⟨?_, Nat.zero_le _, ?_, ?_⟩, .inl ⟨rfl, fun s => ?_⟩⟩
    · simp only [resetWindow, List.length_singleton]
      omega
    · exact fun i hi => absurd hi (Nat.not_lt_zero _)
    · simp [hv]
    · simp only [resetWindow]
      rw [slotValue_of_all_nil hnil]
      by_cases hs : s = key - 1
      · simp [hs, slotValue]
      · rw [if_neg hs]
        exact (@slotValue_append [] _ _ _ (by simpa using hs)).trans (slotValue_of_all_nil rfl)
  rw [if_neg hz]
  by_cases hb : key ≤ t.base
  · rw [if_pos hb]
    -- Extending downward, with padding below the key.
    have hpad : min (key - 1) ((t.arrayLive + 1) / 2) ≤ key - 1 := Nat.min_le_left _ _
    generalize min (key - 1) ((t.arrayLive + 1) / 2) = pad at hpad
    have hbase : key - 1 - pad ≤ t.base := by omega
    simp only [checkedSub_of_le hpad, checkedSub_of_le hbase, Option.bind_eq_bind,
      Option.bind_some, Option.pure_def]
    have hlt : pad < (List.replicate (t.base - (key - 1 - pad)) Val.nil ++ t.array).length := by
      simp
      omega
    have hget : (List.replicate (t.base - (key - 1 - pad)) Val.nil ++ t.array)[pad]? = some .nil := by
      rw [List.getElem?_append_left (by simp; omega), List.getElem?_replicate, if_pos (by omega)]
    simp only [hget, Option.bind_some]
    refine ⟨.ok (), _, _, _, _, _, rfl, ⟨?_, ?_, fun i hi => ?_, ?_⟩, .inl ⟨rfl, fun s => ?_⟩⟩
    · have := h.window_le
      simp
      omega
    · rw [List.length_set]
      omega
    · rw [List.getElem?_set_ne (by omega), List.getElem?_append_left (by simp; omega),
        List.getElem?_replicate, if_pos (by omega)]
    · have hc := countP_set (v := v) hlt
      have hnil : (List.replicate (t.base - (key - 1 - pad)) Val.nil ++ t.array)[pad].liveBit = 0 := by
        rw [(List.getElem?_eq_some_iff.1 hget).2]
        rfl
      rw [hnil, hbit, List.countP_append, countP_replicate_nil] at hc
      rw [h.live_eq]
      omega
    · rw [slotValue_set hlt, slotValue_prepend_nil,
        show key - 1 - pad + (t.base - (key - 1 - pad)) = t.base by omega,
        show key - 1 - pad + pad = key - 1 by omega]
  · -- Extending upward.
    rw [if_neg hb]
    have hkey : t.base + t.array.length < key := hout.resolve_left hb
    simp only [checkedSub_of_le (Nat.le_of_not_le hb), Option.bind_eq_bind, Option.bind_some,
      Option.pure_def, resizeArray]
    have hlt : key - t.base - 1 <
        (t.array ++ List.replicate (key - t.base - t.array.length) Val.nil).length := by
      simp
      omega
    have hget : (t.array ++ List.replicate (key - t.base - t.array.length) Val.nil)[
        key - t.base - 1]? = some .nil := by
      rw [List.getElem?_append_right (by omega), List.getElem?_replicate, if_pos (by omega)]
    simp only [hget, Option.bind_some]
    have hw := h.extendNil (n := key - t.base - t.array.length) (by omega)
    refine ⟨.ok (), _, _, _, t.lead, _, rfl, ⟨?_, ?_, fun i hi => ?_, ?_⟩, .inl ⟨rfl, fun s => ?_⟩⟩
    · simpa using hw.window_le
    · simpa using hw.lead_le
    · have := h.lead_le
      rw [List.getElem?_set_ne (by omega)]
      exact hw.prefix_nil i hi
    · have hc := countP_set (v := v) hlt
      have hnil : (t.array ++ List.replicate (key - t.base - t.array.length) Val.nil)[
          key - t.base - 1].liveBit = 0 := by
        rw [(List.getElem?_eq_some_iff.1 hget).2]
        rfl
      rw [hnil, hbit, List.countP_append, countP_replicate_nil] at hc
      rw [h.live_eq]
      omega
    · rw [slotValue_set hlt, slotValue_append_nil, show t.base + (key - t.base - 1) = key - 1 by omega]

end Table

end Dellingr
