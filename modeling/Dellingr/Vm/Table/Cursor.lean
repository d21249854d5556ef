import Dellingr.Vm.Table.Operation

/-!
# The cursor of a generic loop

A loop over the pairs of a table remembers the index of the slot it visited last, so
that the next step need not look its control key up. The index is used again if the slot
still has the control key, which may be dead (`nextFromMatchingIndex`), and otherwise the
key is looked up (`nextWithIndex`).

The slot is the one a lookup finds, with one exception. A key of the hash part that has
moved to the array, because the keys before it were added, leaves its dead slot behind.
A lookup finds the key in the array and goes on from there, through the rest of the array
and then the whole hash part; the cursor goes on from the dead slot. The two agree
exactly if nothing is live that only one of them passes (`nextFromMatchingIndex_agrees`).
-/

namespace Dellingr

open Val

namespace Table

variable (t : Table)

/-- Whether the hash slot at a position has a key, dead or live. -/
def keyMatches (i : Nat) (control : Val) : Bool :=
  match t.storage with
  | .inline entries => entries[i]?.any fun e => e.1.eq control
  | .map m _ => (m.getIndex i).any fun s => TableKey.lookup control s.1

/-- Check that the slot of a cursor has the control key, and advance from it. -/
def nextFromMatchingIndex (index : SlotIndex) (control : Val) : Option TableNextWithIndex :=
  if !control.isValidTableKey then some .invalidKey
  else match index with
    | .array slot =>
      if t.arrayKey control = some (slot + 1) then t.nextLiveFrom (.array (slot + 1))
      else some .invalidKey
    | .hash i =>
      if t.keyMatches i control then t.nextLiveFrom (.hash (i + 1)) else some .invalidKey

/-- A step of a generic loop over a table, with the index its site remembers for that table,
    if any. -/
def tforCallNext (cursor : Option SlotIndex) (control : Val) : Option TableNextWithIndex :=
  match cursor with
  | none => t.nextWithIndex control
  | some index =>
    match t.nextFromMatchingIndex index control with
    | some .invalidKey => t.nextWithIndex control
    | next => next

/-- The cursor names the dead slot of a key that has moved to the array, and a lookup of the
    key passes a live slot that the cursor does not: one in the array after the key, or one
    in the hash part up to the slot. -/
def Stale (index : SlotIndex) (control : Val) : Prop :=
  ∃ i key, index = .hash i ∧ t.arrayKey control = some key ∧ t.keyMatches i control = true ∧
    ((∃ n, key < n ∧ n ≤ t.vlen ∧ t.get (Val.ofNat n) ≠ .nil) ∨
      ∃ j k v, j ≤ i ∧ t.storage.slots[j]? = some (k, v) ∧ v ≠ .nil)

variable {t} {i start : Nat} {control : Val} {index : SlotIndex}

theorem keyMatches_iff :
    t.keyMatches i control = true ↔ ∃ k v, t.storage.slots[i]? = some (.live k, v) ∧ k.eq control = true := by
  rw [keyMatches]
  cases hs : t.storage with
  | inline entries =>
    simp only [Option.any_eq_true, TableStorage.slots, List.getElem?_map, Option.map_eq_some_iff]
    constructor
    · rintro ⟨e, he, hk⟩
      exact ⟨e.1, e.2, ⟨e, he, rfl⟩, hk⟩
    · rintro ⟨k, v, ⟨e, he, heq⟩, hk⟩
      cases heq
      exact ⟨e, he, hk⟩
  | map m policy =>
    simp only [Option.any_eq_true, TableStorage.slots, IndexMap.getIndex]
    constructor
    · rintro ⟨⟨c, v⟩, he, hk⟩
      cases c with
      | live k => exact ⟨k, v, he, hk⟩
      | vacant n => cases hk
    · rintro ⟨k, v, he, hk⟩
      exact ⟨_, he, hk⟩

/-! ## Scans from two positions -/

/-- The scan of the hash part ends at the first live slot. -/
theorem nextHash_cases (h : t.Ok) (start : Nat) :
    (∃ j k v, t.nextHash start = some (.pair (.hash j) k v) ∧ start ≤ j ∧
      t.storage.slots[j]? = some (.live k, v) ∧ v ≠ .nil ∧
      ∀ j' e, start ≤ j' → j' < j → t.storage.slots[j']? = some e → e.2 = .nil) ∨
    (t.nextHash start = some .finished ∧
      ∀ j' e, start ≤ j' → t.storage.slots[j']? = some e → e.2 = .nil) := by
  rw [nextHash]
  cases hf : findLive Prod.snd t.storage.slots start with
  | none => exact .inr ⟨rfl, findLive_eq_none hf⟩
  | some r =>
    obtain ⟨j, c, v⟩ := r
    obtain ⟨hle, hj, hlive, hbefore⟩ := findLive_eq_some hf
    cases c with
    | vacant n =>
      obtain rfl := (h.flat.hash.slots_ok.vacant j n v hj).2
      cases hlive
    | live k => exact .inl ⟨j, k, v, rfl, hle, hj, isLive_iff.1 hlive, hbefore⟩

/-- Two scans of the hash part agree if nothing between their starts is live. -/
theorem nextHash_eq_iff (h : t.Ok) :
    t.nextHash (i + 1) = t.nextHash 0 ↔ ∀ j e, j ≤ i → t.storage.slots[j]? = some e → e.2 = .nil := by
  constructor
  · intro heq j e hj he
    by_contra hlive
    obtain ⟨j₀, k, v, hr, -, -, -, hbefore⟩ | ⟨-, hdead⟩ := nextHash_cases h 0
    · -- The scan from the start ends at most at this slot.
      have hj₀ : j₀ ≤ j := by
        by_contra hlt
        exact hlive (hbefore j e (Nat.zero_le _) (Nat.lt_of_not_le hlt) he)
      obtain ⟨j₁, k', v', hr', hle, -⟩ | ⟨hr', -⟩ := nextHash_cases h (i + 1)
      · rw [hr, hr'] at heq
        cases heq
        omega
      · rw [hr, hr'] at heq
        cases heq
    · exact hlive (hdead j e (Nat.zero_le _) he)
  · intro hdead
    obtain ⟨j₀, k, v, hr, -, hj₀, hv, hbefore⟩ | ⟨hr, hnone⟩ := nextHash_cases h 0
    · have hlt : i < j₀ := by
        by_contra hge
        exact hv (hdead j₀ _ (Nat.le_of_not_lt hge) hj₀)
      obtain ⟨j₁, k', v', hr', hle, hj₁, hv', hbefore'⟩ | ⟨-, hnone⟩ := nextHash_cases h (i + 1)
      · obtain hlt' | rfl | hlt' := Nat.lt_trichotomy j₀ j₁
        · exact absurd (hbefore' j₀ _ hlt hlt' hj₀) hv
        · rw [hj₀] at hj₁
          cases hj₁
          rw [hr, hr']
        · exact absurd (hbefore j₁ _ (Nat.zero_le _) hlt' hj₁) hv'
      · exact absurd (hnone j₀ _ hlt hj₀) hv
    · obtain ⟨j₁, k', v', -, -, hj₁, hv', -⟩ | ⟨hr', -⟩ := nextHash_cases h (i + 1)
      · exact absurd (hnone j₁ _ (Nat.zero_le _) hj₁) hv'
      · rw [hr, hr']

/-- The value of an array key, from the window. -/
theorem get_ofNat_slotValue (h : t.Ok) {s : Nat} (hs : s < t.vlen) :
    t.get (Val.ofNat (s + 1)) = slotValue t.array t.base s := by
  rw [get_ofNat h hs]
  simp [flat, hs]

/-- The scan of the array part ends in the array if a key after its start is live, and in
    the hash part otherwise. -/
theorem nextLiveFrom_array_cases (h : t.Ok) :
    (∃ n, start < n ∧ n ≤ t.vlen ∧ t.get (Val.ofNat n) ≠ .nil) ∧
      (∃ s k v, t.nextLiveFrom (.array start) = some (.pair (.array s) k v)) ∨
    (∀ n, start < n → n ≤ t.vlen → t.get (Val.ofNat n) = .nil) ∧
      t.nextLiveFrom (.array start) = t.nextHash 0 := by
  have hw := h.window.window_le
  rw [nextLiveFrom]
  cases hf : findLive id t.array (max (start - t.base) t.lead) with
  | some r =>
    obtain ⟨p, v⟩ := r
    obtain ⟨hle, hp, hlive, -⟩ := findLive_eq_some hf
    have hlt : p < t.array.length := (List.getElem?_eq_some_iff.1 hp).1
    refine .inl ⟨⟨t.base + p + 1, by omega, by omega, ?_⟩, _, _, _, rfl⟩
    rw [get_ofNat_slotValue h (by omega), slotValue, if_pos (Nat.le_add_right _ _),
      Nat.add_sub_cancel_left, hp]
    exact isLive_iff.1 hlive
  | none =>
    refine .inr ⟨fun n hn hle => ?_, rfl⟩
    obtain ⟨s, rfl⟩ : ∃ s, n = s + 1 := ⟨n - 1, by omega⟩
    rw [get_ofNat_slotValue h (by omega), slotValue]
    split
    · -- A slot the scan skips is in the dead prefix.
      by_cases hskip : s - t.base < t.lead
      · rw [h.window.prefix_nil (s - t.base) hskip]
        rfl
      · cases hg : t.array[s - t.base]? with
        | none => rfl
        | some b => exact findLive_eq_none hf (s - t.base) b (by omega) hg
    · rfl

/-! ## The cursor and the lookup -/

/-- A cursor on an array slot is the lookup. -/
theorem nextFromMatchingIndex_array {slot : Nat} (hc : control ≠ .nil) :
    t.nextFromMatchingIndex (.array slot) control = some .invalidKey ∨
      t.nextFromMatchingIndex (.array slot) control = t.nextWithIndex control := by
  rw [nextFromMatchingIndex, nextWithIndex, if_neg hc]
  by_cases hv : control.isValidTableKey = true
  · simp only [hv, Bool.not_true, Bool.false_eq_true, if_false]
    by_cases hk : t.arrayKey control = some (slot + 1)
    · rw [if_pos hk, hk]
      exact .inr rfl
    · rw [if_neg hk]
      exact .inl rfl
  · simp [hv]

/-- A cursor on a hash slot is the lookup unless it is stale. -/
theorem nextFromMatchingIndex_hash (h : t.Ok) (hc : control ≠ .nil) :
    (t.nextFromMatchingIndex (.hash i) control = some .invalidKey ∨
      t.nextFromMatchingIndex (.hash i) control = t.nextWithIndex control) ↔
        ¬ t.Stale (.hash i) control := by
  rw [nextFromMatchingIndex, nextWithIndex, if_neg hc]
  cases hm : t.keyMatches i control with
  | false =>
    have hstale : ¬ t.Stale (.hash i) control := by
      rintro ⟨_, _, hi, -, hm', -⟩
      cases hi
      rw [hm] at hm'
      cases hm'
    simp [hstale]
  | true =>
    obtain ⟨k, v, hslot, heq⟩ := keyMatches_iff.1 hm
    have hvalid : control.isValidTableKey = true :=
      isValidTableKey_congr heq (h.flat.hash.slots_ok.valid k v (List.mem_of_getElem? hslot))
    have hnext : ∀ p, t.nextLiveFrom (.hash p) ≠ some .invalidKey := by
      intro p hp
      obtain ⟨_, _, _, hr, -⟩ | ⟨hr, -⟩ := nextHash_cases h p
      · cases hr.symm.trans hp
      · cases hr.symm.trans hp
    simp only [hvalid, Bool.not_true, Bool.false_eq_true, if_false, if_true, hnext, false_or]
    cases hk : t.arrayKey control with
    | none =>
      rw [(position_eq_some_iff h).2 ⟨k, v, hslot, heq⟩]
      refine ⟨fun _ => ?_, fun _ => rfl⟩
      rintro ⟨_, _, -, hk', -⟩
      rw [hk] at hk'
      cases hk'
    | some key =>
      show t.nextHash (i + 1) = t.nextLiveFrom (.array key) ↔ _
      obtain ⟨harray, s, k', v', hr⟩ | ⟨harray, hr⟩ := @nextLiveFrom_array_cases t key h
      · -- The lookup answers from the array, the cursor never does.
        have hstale : t.Stale (.hash i) control := ⟨i, key, rfl, hk, hm, .inl harray⟩
        refine ⟨fun heq' => ?_, fun hn => absurd hstale hn⟩
        rw [hr] at heq'
        obtain ⟨_, _, _, hr', -⟩ | ⟨hr', -⟩ := nextHash_cases h (i + 1)
        · cases hr'.symm.trans heq'
        · cases hr'.symm.trans heq'
      · rw [hr, nextHash_eq_iff h]
        constructor
        · rintro hdead ⟨_, key', hi, hk', -, ⟨n, hlt, hle, hlive⟩ | ⟨j, c, w, hj, hs, hw⟩⟩
          · rw [hk] at hk'
            cases hk'
            exact hlive (harray n hlt hle)
          · cases hi
            exact hw (hdead j _ hj hs)
        · intro hfresh j e hj he
          by_contra hlive
          exact hfresh ⟨i, key, rfl, hk, hm, .inr ⟨j, e.1, e.2, hj, he, hlive⟩⟩

/-- A cursor that answers gives what the lookup gives unless it is stale. -/
theorem nextFromMatchingIndex_agrees (h : t.Ok) (hc : control ≠ .nil) :
    (t.nextFromMatchingIndex index control = some .invalidKey ∨
      t.nextFromMatchingIndex index control = t.nextWithIndex control) ↔
        ¬ t.Stale index control := by
  cases index with
  | hash i => exact nextFromMatchingIndex_hash h hc
  | array slot =>
    refine ⟨fun _ => ?_, fun _ => nextFromMatchingIndex_array hc⟩
    rintro ⟨_, _, hi, -⟩
    cases hi

/-! ## Whole loops -/

/-- The pairs that a generic loop visits. Each step has its own table, which the body may have
    changed, and the index that the site remembers then, which another activation of the loop
    may have written. -/
def visits : List (Table × Option SlotIndex) → Val → List (Val × Val)
  | [], _ => []
  | (t, cursor) :: steps, control =>
    match t.tforCallNext cursor control with
    | some (.pair _ key value) => (key, value) :: visits steps key
    | _ => []

/-- No step of a loop has a stale cursor. -/
def Fresh : List (Table × Option SlotIndex) → Val → Prop
  | [], _ => True
  | (t, cursor) :: steps, control =>
    (∀ index, cursor = some index → ¬ t.Stale index control) ∧
      ∀ index key value, t.nextWithIndex control = some (.pair index key value) → Fresh steps key

/-- A step with a cursor that is not stale is the lookup. -/
theorem tforCallNext_eq (h : t.Ok) {cursor : Option SlotIndex}
    (hf : ∀ index, cursor = some index → ¬ t.Stale index control) :
    t.tforCallNext cursor control = t.nextWithIndex control := by
  cases cursor with
  | none => rfl
  | some index =>
    rw [tforCallNext]
    by_cases hc : control = .nil
    · -- The first step of a loop has no key to match.
      subst hc
      rfl
    · obtain hmiss | hhit := (nextFromMatchingIndex_agrees h hc).2 (hf index rfl)
      · rw [hmiss]
      · rw [hhit]
        split <;> rfl

/-- A loop whose cursors are never stale visits what a loop without cursors visits. -/
theorem visits_eq {steps : List (Table × Option SlotIndex)} (h : ∀ s ∈ steps, s.1.Ok)
    (hf : Fresh steps control) :
    visits steps control = visits (steps.map fun s => (s.1, none)) control := by
  induction steps generalizing control with
  | nil => rfl
  | cons step steps ih =>
    obtain ⟨t, cursor⟩ := step
    obtain ⟨hstep, hrest⟩ := hf
    have htail : ∀ s ∈ steps, s.1.Ok := fun s hs => h s (List.mem_cons_of_mem _ hs)
    have hnone : t.tforCallNext none control = t.nextWithIndex control := rfl
    have hsame : t.tforCallNext cursor control = t.nextWithIndex control :=
      tforCallNext_eq (h (t, cursor) List.mem_cons_self) hstep
    rw [visits, List.map_cons, visits, hsame, hnone]
    cases hnext : t.nextWithIndex control with
    | none => rfl
    | some next =>
      cases next with
      | pair index key value => exact congrArg _ (ih htail (hrest index key value hnext))
      | finished => rfl
      | invalidKey => rfl

/-- A cursor answers what the lookup answers exactly if it is not stale, and a loop none of
    whose steps has a stale cursor visits the same pairs as it would without its cursors. -/
theorem cursor_agrees (t : Table) (h : t.Reachable) (index : SlotIndex) (control : Val)
    (hc : control ≠ .nil) (steps : List (Table × Option SlotIndex)) (start : Val)
    (hsteps : ∀ s ∈ steps, Reachable s.1) :
    ((t.nextFromMatchingIndex index control = some .invalidKey ∨
      t.nextFromMatchingIndex index control = t.nextWithIndex control) ↔
        ¬ t.Stale index control) ∧
    (Fresh steps start →
      visits steps start = visits (steps.map fun s => (s.1, none)) start) :=
  ⟨nextFromMatchingIndex_agrees h.ok hc, fun hf => visits_eq (fun s hs => (hsteps s hs).ok) hf⟩

/-! ## A key that moves under a cursor -/

/-- Assign true to keys, one after the other. -/
def markKeys (t : Table) (keys : List Val) : Table :=
  keys.foldl (fun t key => ((t.apply .exact (.insert key (.bool true))).map Prod.snd).getD t) t

theorem Reachable.markKeys (h : t.Reachable) (keys : List Val) : (t.markKeys keys).Reachable := by
  induction keys generalizing t with
  | nil => exact h
  | cons key keys ih =>
    refine ih (t := ((t.apply .exact (.insert key (.bool true))).map Prod.snd).getD t) ?_
    cases hs : t.apply .exact (.insert key (.bool true)) with
    | none => exact h
    | some r => exact h.apply .exact (.insert key (.bool true)) trivial hs

/-- A table with two fields and, between them, a number that is not an array key yet. -/
def sparse : Table := (withCapacity 0).markKeys [.str ⟨0, 1⟩, .ofNat 3, .str ⟨1, 1⟩]

/-- The table after the body of a loop, at the number, has added the numbers before it. -/
def migrated : Table := sparse.markKeys [.ofNat 1, .ofNat 2]

theorem reachable_sparse : sparse.Reachable := (Reachable.withCapacity 0).markKeys _

theorem reachable_migrated : migrated.Reachable := reachable_sparse.markKeys _

theorem cursor_agrees_sparse :
    (sparse.nextFromMatchingIndex (.hash 1) (.ofNat 3) =
      some (.pair (.hash 2) (.str ⟨1, 1⟩) (.bool true)) ∧
        sparse.nextFromMatchingIndex (.hash 1) (.ofNat 3) = sparse.nextWithIndex (.ofNat 3)) ∧
    visits [(sparse, none), (sparse, some (.hash 0)), (sparse, some (.hash 1))] .nil =
      visits [(sparse, none), (sparse, none), (sparse, none)] .nil := by
  have hfresh : ∀ index control, ¬ sparse.Stale index control := by
    -- The table has no array keys.
    rintro index control ⟨_, key, -, hk, -⟩
    obtain ⟨s, hs, -⟩ := Option.map_eq_some_iff.1 (arrayKey_eq.symm.trans hk)
    exact absurd (slotBelow_eq_some.1 hs).2 (Nat.not_lt_zero s)
  have hsteps : ∀ s ∈ [(sparse, none), (sparse, some (SlotIndex.hash 0)), (sparse, some (.hash 1))],
      Reachable s.1 := by
    intro s hs
    simp only [List.mem_cons, List.not_mem_nil, or_false] at hs
    rcases hs with rfl | rfl | rfl <;> exact reachable_sparse
  obtain ⟨hcursor, hvisits⟩ :=
    cursor_agrees sparse reachable_sparse (.hash 1) (.ofNat 3) nofun _ .nil hsteps
  refine ⟨⟨rfl, ?_⟩, hvisits ?_⟩
  · obtain hmiss | hhit := hcursor.2 (hfresh _ _)
    · cases hmiss
    · exact hhit
  · exact ⟨fun _ _ => hfresh _ _, fun _ _ _ _ => ⟨fun _ _ => hfresh _ _, fun _ _ _ _ =>
      ⟨fun _ _ => hfresh _ _, fun _ _ _ _ => trivial⟩⟩⟩

/-- The loop visits the number in the hash part, its body moves the number to the array, and
    the cursor goes on to the second field where a lookup goes back to the first. -/
theorem cursor_disagrees_migrated :
    sparse.Reachable ∧ migrated.Reachable ∧
    sparse.nextWithIndex (.str ⟨0, 1⟩) = some (.pair (.hash 1) (.ofNat 3) (.bool true)) ∧
    migrated.nextFromMatchingIndex (.hash 1) (.ofNat 3) =
      some (.pair (.hash 2) (.str ⟨1, 1⟩) (.bool true)) ∧
    migrated.nextWithIndex (.ofNat 3) = some (.pair (.hash 0) (.str ⟨0, 1⟩) (.bool true)) ∧
    visits [(sparse, none), (sparse, some (.hash 0)), (migrated, some (.hash 1))] .nil ≠
      visits [(sparse, none), (sparse, none), (migrated, none)] .nil := by
  refine ⟨reachable_sparse, reachable_migrated, rfl, rfl, rfl, ?_⟩
  have hwarm : visits [(sparse, none), (sparse, some (.hash 0)), (migrated, some (.hash 1))] .nil =
      [(.str ⟨0, 1⟩, .bool true), (.ofNat 3, .bool true), (.str ⟨1, 1⟩, .bool true)] := rfl
  have hcold : visits [(sparse, none), (sparse, none), (migrated, none)] .nil =
      [(.str ⟨0, 1⟩, .bool true), (.ofNat 3, .bool true), (.str ⟨0, 1⟩, .bool true)] := rfl
  rw [hwarm, hcold]
  decide

end Table

end Dellingr
