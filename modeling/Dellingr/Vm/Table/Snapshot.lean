import Dellingr.Vm.Table.Refinement

/-!
# Snapshots

A snapshot records the logical array length, the live span of the window and every
hash slot, tombstones and vacant positions included. Rebuilding from it gives a
table with the same flat table, up to the slot policy (`rebuild_snapshot`): what a
snapshot leaves out, the operations of a table do not depend on.

Rebuilding from any entries keeps the invariant, provided the hash keys are
pairwise different, or changes nothing (`rebuildFromSnapshot_ok`).
-/

namespace Dellingr

open AssocList Val

/-- The storage with a slot added last. -/
def TableStorage.push : TableStorage → TableKey × Val → TableStorage
  | inline entries, (.live k, v) => inline (entries ++ [(k, v)])
  | inline entries, (.vacant _, _) => inline entries
  | map m policy, slot => map ⟨m.slots ++ [slot]⟩ policy

/-- The storage with another slot policy; inline storage has none. -/
def TableStorage.withPolicy : TableStorage → SlotPolicy → TableStorage
  | inline entries, _ => inline entries
  | map m _, policy => map m policy

theorem TableStorage.foldl_push_inline (entries es : List (Val × Val)) :
    (inline entries).slots.foldl push (inline es) = inline (es ++ entries) := by
  induction entries generalizing es with
  | nil => simp [slots]
  | cons e entries ih =>
    have := ih (es ++ [e])
    simp only [slots, List.map_cons, List.foldl_cons, push] at this ⊢
    rw [this, List.append_assoc]
    rfl

theorem TableStorage.foldl_push_map (S P : List (TableKey × Val)) (policy : SlotPolicy) :
    S.foldl push (map ⟨P⟩ policy) = map ⟨P ++ S⟩ policy := by
  induction S generalizing P with
  | nil => simp
  | cons e S ih =>
    have := ih (P ++ [e])
    simp only [List.foldl_cons, push] at this ⊢
    rw [this, List.append_assoc]
    rfl

namespace Table

variable {u t : Table} {key v : Val} {limit : Nat}

/-! ## One slot -/

/-- Rebuilding a keyed slot adds it last. -/
theorem rebuildSlot_live (hk : key.isValidTableKey = true) (habs : SlotsAbsent u.storage.slots key)
    (hout : v.isLive = true → (u.arrayKey key).isSome = false ∧ u.isArrayAppendKey key = false) :
    u.rebuildSlot (key, v) = .ok { u with
      storage := u.storage.push (.live key, v), deadCount := u.deadCount + (1 - v.liveBit) } := by
  obtain ⟨c, hc⟩ := isValidTableKey_iff.1 hk
  have hnew : TableKey.new key = .ok (.live key) := by rw [TableKey.new, hc]; rfl
  have hcond : (v.isLive && ((u.arrayKey key).isSome || u.isArrayAppendKey key)) = false := by
    cases hv : v.isLive with
    | false => rfl
    | true => simp [hout hv]
  have hnil : key ≠ .nil := by
    rintro rfl
    simp [isValidTableKey] at hk
  simp only [rebuildSlot, hcond, Bool.false_eq_true, if_false]
  cases hs : u.storage with
  | inline entries => simp only [hnew, TableStorage.push]
  | map m policy =>
    rw [hs] at habs
    have hins : m.insert (.live key) v = ⟨m.slots ++ [(.live key, v)]⟩ := by
      cases hm : m.insert (.live key) v with
      | mk slots => rw [← slots_insert_of_absent habs, hm]
    simp only [hnil, false_and, if_false, hnew, hins, TableStorage.push]

/-- Rebuilding a vacant slot of a map adds it last. -/
theorem rebuildSlot_vacant {m : IndexMap TableKey Val} {policy : SlotPolicy}
    (hs : u.storage = .map m policy) (hok : SlotsOk m.slots) :
    u.rebuildSlot (.nil, .nil) = .ok { u with
      storage := u.storage.push (.vacant m.len, .nil), deadCount := u.deadCount + 1 } := by
  have hnone : m.getIndexOf (· == .vacant m.len) = none := by
    rw [IndexMap.getIndexOf, List.findIdx?_eq_none_iff]
    rintro ⟨c, x⟩ hx
    cases c with
    | live l => rfl
    | vacant j =>
      obtain ⟨i, hi⟩ := List.mem_iff_getElem?.1 hx
      obtain ⟨rfl, -⟩ := hok.vacant i j x hi
      have hlt := (List.getElem?_eq_some_iff.1 hi).1
      exact (beq_eq_false_iff_ne (α := Nat)).2 hlt.ne
  have hins : m.insert (.vacant m.len) .nil = ⟨m.slots ++ [(.vacant m.len, .nil)]⟩ := by
    simp only [IndexMap.insert, hnone]
  simp [rebuildSlot, hs, hins, TableStorage.push, liveBit]

/-! ## All slots -/

/-- The saved form of a slot. -/
def savedSlot (s : TableKey × Val) : Val × Val := (s.1.asLive.getD .nil, s.2)

/-- Rebuilding the slots that follow those already there. -/
theorem rebuild_slots {S Q : List (TableKey × Val)} (hS : u.storage.slots ++ Q = S)
    (hok : SlotsOk S)
    (hvac : ∀ entries, u.storage = .inline entries → ∀ j v, (.vacant j, v) ∉ Q)
    (hout : ∀ k v, (.live k, v) ∈ Q → v.isLive = true →
      (u.arrayKey k).isSome = false ∧ u.isArrayAppendKey k = false) :
    (Q.map savedSlot).foldlM (fun t e => t.rebuildSlot e) u = Except.ok { u with
      storage := Q.foldl TableStorage.push u.storage
      deadCount := u.deadCount + Q.countP fun e => !e.2.isLive } := by
  induction Q generalizing u with
  | nil => rfl
  | cons s Q ih =>
    obtain ⟨c, v⟩ := s
    have hslots : (u.storage.push (c, v)).slots ++ Q = S ∧
        ∀ entries, u.storage.push (c, v) = .inline entries → ∀ j v, (.vacant j, v) ∉ Q := by
      cases hs : u.storage with
      | map m policy =>
        rw [hs] at hS
        refine ⟨by simpa [TableStorage.push] using hS, ?_⟩
        rintro entries ⟨⟩
      | inline es =>
        have hc := hvac es hs
        cases c with
        | vacant j => exact absurd List.mem_cons_self (hc j v)
        | live k =>
          rw [hs] at hS
          refine ⟨by simpa [TableStorage.push, TableStorage.slots] using hS, fun _ _ j w hm => ?_⟩
          exact hc j w (List.mem_cons_of_mem _ hm)
    have hdead : (1 - v.liveBit) = [(c, v)].countP fun e => !e.2.isLive := by
      cases h : v.isLive <;> simp [liveBit, h]
    have hstep : u.rebuildSlot (savedSlot (c, v)) = .ok { u with
        storage := u.storage.push (c, v), deadCount := u.deadCount + (1 - v.liveBit) } := by
      cases c with
      | live k =>
        have hokS : SlotsOk (u.storage.slots ++ (.live k, v) :: Q) := hS ▸ hok
        have hval := hokS.valid k v (by simp)
        exact rebuildSlot_live hval (hokS.absent_split (eq_self hval)).1
          (hout k v List.mem_cons_self)
      | vacant j =>
        cases hs : u.storage with
        | inline es => exact absurd List.mem_cons_self (hvac es hs j v)
        | map m policy =>
          rw [hs, TableStorage.slots_map] at hS
          have hget : S[m.len]? = some (.vacant j, v) := by
            rw [← hS, IndexMap.len]
            simp
          obtain ⟨rfl, rfl⟩ := hok.vacant _ j v hget
          have hokm : SlotsOk m.slots := by
            refine ⟨fun k w hm => hok.valid k w (by rw [← hS]; simp [hm]), ?_, fun i j w hi => ?_⟩
            · exact hok.distinct.sublist (hS ▸ List.sublist_append_left _ _)
            · refine hok.vacant i j w ?_
              rw [← hS, List.getElem?_append_left (List.getElem?_eq_some_iff.1 hi).1]
              exact hi
          have := rebuildSlot_vacant hs hokm
          rw [hs] at this
          exact this
    rw [List.map_cons, List.foldlM_cons, hstep]
    have := ih (u := { u with
      storage := u.storage.push (c, v), deadCount := u.deadCount + (1 - v.liveBit) })
      hslots.1 hslots.2 fun k w hm => hout k w (List.mem_cons_of_mem _ hm)
    rw [List.foldl_cons, ← List.singleton_append, List.countP_append, ← hdead, ← Nat.add_assoc]
    exact this

/-! ## The live span of the window -/

theorem liveSpan_spec : t.liveSpan.1 ≤ t.liveSpan.2 ∧ t.liveSpan.2 ≤ t.array.length ∧
    ∀ i, t.array[i]?.getD .nil ≠ .nil → t.liveSpan.1 ≤ i ∧ i < t.liveSpan.2 := by
  have hmem : ∀ {i : Nat}, t.array[i]?.getD .nil ≠ .nil →
      ∃ h : i < t.array.length, (t.array[i]).isLive = true := by
    intro i hi
    by_cases hlt : i < t.array.length
    · rw [List.getElem?_eq_getElem hlt] at hi
      exact ⟨hlt, isLive_iff.2 hi⟩
    · rw [List.getElem?_eq_none (by omega)] at hi
      exact absurd rfl hi
  rw [liveSpan]
  cases hf : t.array.findIdx? isLive with
  | none =>
    refine ⟨Nat.le_refl _, Nat.zero_le _, fun i hi => ?_⟩
    obtain ⟨hlt, hl⟩ := hmem hi
    rw [List.findIdx?_eq_none_iff] at hf
    simp [hf _ (List.getElem_mem hlt)] at hl
  | some first =>
    obtain ⟨h₁, h₂, h₃⟩ := List.findIdx?_eq_some_iff_getElem.1 hf
    cases hr : t.array.reverse.findIdx? isLive with
    | none =>
      rw [List.findIdx?_eq_none_iff] at hr
      have := hr t.array[first] (by simp)
      simp [this] at h₂
    | some last =>
      obtain ⟨r₁, r₂, r₃⟩ := List.findIdx?_eq_some_iff_getElem.1 hr
      rw [List.length_reverse] at r₁
      have hspan : ∀ i, t.array[i]?.getD .nil ≠ .nil → first ≤ i ∧ i < t.array.length - last := by
        intro i hi
        obtain ⟨hlt, hl⟩ := hmem hi
        constructor
        · by_contra hc
          exact h₃ i (by omega) hl
        · by_contra hc
          have := r₃ (t.array.length - 1 - i) (by omega)
          rw [List.getElem_reverse] at this
          have hidx : t.array.length - 1 - (t.array.length - 1 - i) = i := by omega
          simp only [hidx] at this
          exact this hl
      have hfirst := hspan first (by
        rw [List.getElem?_eq_getElem h₁]
        exact isLive_iff.1 h₂)
      exact ⟨by dsimp only; omega, by dsimp only; omega, hspan⟩

/-- The live span has the values of the window. -/
theorem slotValue_span (s : Nat) :
    slotValue ((t.array.take t.liveSpan.2).drop t.liveSpan.1) (t.base + t.liveSpan.1) s =
      slotValue t.array t.base s := by
  obtain ⟨h₁, h₂, h₃⟩ := liveSpan_spec (t := t)
  simp only [slotValue, List.getElem?_drop, List.getElem?_take]
  by_cases hb : t.base ≤ s
  · obtain ⟨d, rfl⟩ := Nat.exists_eq_add_of_le hb
    have hd := h₃ d
    simp only [Nat.add_sub_cancel_left, hb, if_true, Nat.add_le_add_iff_left]
    split
    · rw [show t.liveSpan.1 + (t.base + d - (t.base + t.liveSpan.1)) = d by omega]
      split
      · rfl
      · by_contra hne
        exact absurd (hd (Ne.symm hne)).2 ‹_›
    · by_contra hne
      exact absurd (hd (Ne.symm hne)).1 ‹_›
  · rw [if_neg hb, if_neg (by omega)]

/-! ## Rebuilding a snapshot -/

/-- The saved hash slots are the slots, behind the marker of a map. -/
theorem snapshotHashSlots_eq :
    t.snapshotHashSlots = match t.storage with
      | .inline _ => t.storage.slots.map savedSlot
      | .map .. => (.nil, .bool true) :: t.storage.slots.map savedSlot := by
  rw [snapshotHashSlots]
  cases hs : t.storage with
  | inline entries => simp [TableStorage.slots, savedSlot, Function.comp_def, TableKey.asLive]
  | map m policy => rfl

/-- The table the hash slots of a snapshot are rebuilt into. -/
def rebuildShell (vlen base : Nat) (array : List Val) (rest : List (Val × Val)) : Table :=
  let isMap := rest.head? = some (.nil, .bool true)
  let capacity := rest.length - (if isMap then 1 else 0)
  { withCapacity (if isMap then max capacity (inlineCapacity + 1) else capacity) with
    array := array
    cap := array.length
    base := base
    vlen := vlen
    arrayLive := array.countP Val.isLive }

theorem withCapacity_lead (capacity : Nat) : (withCapacity capacity).lead = 0 := by
  rw [withCapacity]
  split <;> rfl

/-- What is left of a rebuild once the array slots are checked. -/
theorem rebuildFromSnapshot_eq {vlen base : Nat} (fresh : Table) (out rest : List (Val × Val))
    (hv : vlen ≤ maxArrayLen) (hb : snapshotBase vlen out.length (out ++ rest) = .ok base)
    (hk : (out.zipIdx.all fun e => isArrayKeyAt vlen (base + e.2) e.1.1) = true) :
    fresh.rebuildFromSnapshot vlen out.length (out ++ rest) =
      match (if rest.head? = some (.nil, .bool true) then rest.tail else rest).foldlM
        (fun t e => t.rebuildSlot e) (rebuildShell vlen base (out.map Prod.snd) rest) with
      | .error e => (.error e, fresh)
      | .ok rebuilt => (.ok (), { rebuilt with version := fresh.version + 1 }) := by
  rw [rebuildFromSnapshot, if_neg (by simp), if_neg (by omega), hb]
  simp only [List.take_left, List.drop_left, hk, Bool.not_true, Bool.false_eq_true, if_false]
  rfl

/-- The array slots of a snapshot. -/
theorem snapshot_array (h : t.Ok) :
    ∃ out base, t.snapshotEntries = (t.vlen, out.length, out ++ t.snapshotHashSlots) ∧
      snapshotBase t.vlen out.length (out ++ t.snapshotHashSlots) = .ok base ∧
      (out.zipIdx.all fun e => isArrayKeyAt t.vlen (base + e.2) e.1.1) = true ∧
      base + out.length ≤ t.vlen ∧
      ∀ s, slotValue (out.map Prod.snd) base s = slotValue t.array t.base s := by
  obtain ⟨h₁, h₂, -⟩ := liveSpan_spec (t := t)
  have hspan := slotValue_span (t := t)
  have hw := h.window.window_le
  have hmax := h.vlen_le
  have hlen : ((t.array.take t.liveSpan.2).drop t.liveSpan.1).length = t.liveSpan.2 - t.liveSpan.1 := by
    simp
    omega
  generalize hvals : (t.array.take t.liveSpan.2).drop t.liveSpan.1 = vals at hspan hlen
  have hidx : ∀ i, i < vals.length →
      isArrayKeyAt t.vlen (t.base + t.liveSpan.1 + i)
        (Val.ofNat (t.base + t.liveSpan.1 + i + 1)) = true := by
    intro i hi
    have hex : t.base + t.liveSpan.1 + i + 1 ≤ 2 ^ 53 := by
      have : maxArrayLen ≤ 2 ^ 53 := by decide
      omega
    have hn : (F64.ofNat (t.base + t.liveSpan.1 + i + 1)).exactNat =
        some (t.base + t.liveSpan.1 + i + 1) := F64.exactNat_ofNat hex
    simp only [isArrayKeyAt, Val.ofNat, arrayIndex, integerIndex, hn]
    rw [if_pos (by omega)]
    simp
  refine ⟨vals.mapIdx fun offset value =>
      (Val.ofNat (t.base + t.liveSpan.1 + offset + 1), value),
    if vals = [] then 0 else t.base + t.liveSpan.1, ?_, ?_, ?_, ?_, fun s => ?_⟩
  · rw [snapshotEntries]
    simp only [hvals]
  · rw [snapshotBase, List.length_mapIdx]
    cases vals with
    | nil => rfl
    | cons v vals =>
      have h₀ := hidx 0 (by simp)
      have hn : arrayIndex (F64.ofNat (t.base + t.liveSpan.1 + 0 + 1)) t.vlen =
          some (t.base + t.liveSpan.1) := by simpa [isArrayKeyAt, Val.ofNat] using h₀
      simp only [List.length_cons, Nat.add_one_ne_zero, if_false, List.mapIdx_cons, List.cons_append,
        List.head?_cons, Val.ofNat, hn, reduceCtorEq]
      rw [List.length_cons] at hlen
      rw [if_pos (by omega)]
  · rw [List.all_eq_true]
    rintro ⟨e, i⟩ hm
    obtain ⟨hi, he⟩ := List.mk_mem_zipIdx_iff_getElem?.1 hm |> List.getElem?_eq_some_iff.1
    rw [List.length_mapIdx] at hi
    have hne : vals ≠ [] := by
      rintro rfl
      simp at hi
    rw [← he]
    simp only [List.getElem_mapIdx, hne, if_false]
    exact hidx i hi
  · rw [List.length_mapIdx]
    split
    · rename_i hnil
      simp [hnil]
    · omega
  · have hmap : (vals.mapIdx fun offset value =>
        (Val.ofNat (t.base + t.liveSpan.1 + offset + 1), value)).map Prod.snd = vals := by
      refine List.ext_getElem? fun i => ?_
      rw [List.getElem?_map, List.getElem?_mapIdx, Option.map_map]
      cases vals[i]? <;> rfl
    rw [hmap, ← hspan]
    split
    · rename_i hnil
      rw [hnil, slotValue_of_all_nil rfl, slotValue_of_all_nil rfl]
    · rfl

/-- The shell a snapshot is rebuilt into is empty, and of the kind of storage that
    was saved. -/
theorem rebuildShell_spec (h : t.Ok) (base : Nat) (array : List Val) :
    (if t.snapshotHashSlots.head? = some (.nil, .bool true) then t.snapshotHashSlots.tail
      else t.snapshotHashSlots) = t.storage.slots.map savedSlot ∧
    (rebuildShell t.vlen base array t.snapshotHashSlots).storage.slots = [] ∧
    (rebuildShell t.vlen base array t.snapshotHashSlots).deadCount = 0 ∧
    t.storage.slots.foldl TableStorage.push
      (rebuildShell t.vlen base array t.snapshotHashSlots).storage = t.storage.withPolicy {} ∧
    ∀ entries, (rebuildShell t.vlen base array t.snapshotHashSlots).storage = .inline entries →
      ∀ j v, (.vacant j, v) ∉ t.storage.slots := by
  rw [snapshotHashSlots_eq]
  cases hs : t.storage with
  | inline entries =>
    have hle := h.flat.hash.inline_le entries hs
    have hhead : ((TableStorage.inline entries).slots.map savedSlot).head? ≠
        some (.nil, .bool true) := by
      cases entries with
      | nil => simp [TableStorage.slots]
      | cons e entries =>
        -- No key is nil.
        have hslots : t.storage.slots =
            (.live e.1, e.2) :: entries.map fun e => (.live e.1, e.2) := by
          rw [hs]
          rfl
        have hval := h.flat.hash.slots_ok.valid e.1 e.2 (by
          have hst : t.flat.storage = t.storage := rfl
          simp [hst, hslots])
        intro he
        simp only [TableStorage.slots, List.map_cons, List.head?_cons, savedSlot, TableKey.asLive,
          Option.getD_some, Option.some.injEq, Prod.mk.injEq] at he
        rw [he.1] at hval
        simp [isValidTableKey] at hval
    have hshell : rebuildShell t.vlen base array ((TableStorage.inline entries).slots.map savedSlot) =
        { empty with
          array := array, cap := array.length, base := base, vlen := t.vlen
          arrayLive := array.countP isLive } := by
      simp only [rebuildShell, hhead, if_false, withCapacity, Nat.sub_zero]
      rw [if_pos (by simpa [TableStorage.slots] using hle)]
    simp only
    rw [if_neg hhead, hshell]
    refine ⟨rfl, rfl, rfl, ?_, fun _ _ j v hm => ?_⟩
    · exact (TableStorage.foldl_push_inline entries []).trans (by simp [TableStorage.withPolicy])
    · simp [TableStorage.slots] at hm
  | map m policy =>
    have hshell : rebuildShell t.vlen base array
        ((.nil, .bool true) :: (TableStorage.map m policy).slots.map savedSlot) =
        { empty with
          storage := .map ⟨[]⟩ {}
          array := array, cap := array.length, base := base, vlen := t.vlen
          arrayLive := array.countP isLive } := by
      simp only [rebuildShell, List.head?_cons, if_true, withCapacity]
      rw [if_neg (by omega)]
    simp only [List.head?_cons, if_true, List.tail_cons, hshell]
    refine ⟨trivial, rfl, ?_, ?_, ?_⟩
    · rfl
    · exact TableStorage.foldl_push_map m.slots [] {}
    · rintro entries ⟨⟩

/-- Rebuilding a snapshot succeeds, and gives back the flat table with the default
    slot policy. -/
theorem rebuild_snapshot (h : t.Ok) (fresh : Table) :
    ∃ t', fresh.rebuildFromSnapshot t.snapshotEntries.1 t.snapshotEntries.2.1
        t.snapshotEntries.2.2 = (.ok (), t') ∧ t'.WindowOk ∧
      t'.flat = { t.flat with storage := t.storage.withPolicy {} } := by
  obtain ⟨out, base, hsnap, hb, hk, hle, hs⟩ := snapshot_array h
  rw [hsnap]
  simp only
  rw [rebuildFromSnapshot_eq _ _ _ h.vlen_le hb hk]
  obtain ⟨hrest, hempty, hdead, hpush, hvac⟩ := rebuildShell_spec h base (out.map Prod.snd)
  have harray : ∀ shell : Table, shell = rebuildShell t.vlen base (out.map Prod.snd)
      t.snapshotHashSlots → shell.vlen = t.vlen ∧ shell.base = base ∧
      shell.array = out.map Prod.snd ∧ shell.lead = 0 ∧
      shell.arrayLive = (out.map Prod.snd).countP isLive := by
    rintro _ rfl
    exact ⟨rfl, rfl, rfl, withCapacity_lead _, rfl⟩
  obtain ⟨hv, hba, har, hle₀, hli⟩ := harray _ rfl
  generalize rebuildShell t.vlen base (out.map Prod.snd) t.snapshotHashSlots = shell at *
  have hout : ∀ k v, (.live k, v) ∈ t.storage.slots → v.isLive = true →
      (shell.arrayKey k).isSome = false ∧ shell.isArrayAppendKey k = false := by
    intro k v hm hl
    have hk := h.flat.hash.outside k v
    have hmem : (k, v) ∈ liveEntries t.flat.storage.slots := mem_liveEntries.2 ⟨hm, hl⟩
    constructor
    · rw [arrayKey_eq, hv, Option.isSome_map]
      cases hs : k.slotBelow t.vlen with
      | none => rfl
      | some s =>
        obtain ⟨hn, hlt⟩ := slotBelow_eq_some.1 hs
        have := hk (s + 1) hmem hn
        omega
    · rw [← Bool.not_eq_true, isArrayAppendKey_iff (hv ▸ h.vlen_le), hv]
      intro hn
      have := hk _ hmem hn
      omega
  rw [hrest, rebuild_slots (S := t.storage.slots) (by rw [hempty]; rfl) h.flat.hash.slots_ok hvac hout]
  have hcount : shell.deadCount + (t.storage.slots.countP fun e => !e.2.isLive) = t.deadCount := by
    rw [hdead, Nat.zero_add]
    exact h.flat.hash.dead_eq.symm
  refine ⟨_, rfl, ⟨?_, ?_, fun j hj => ?_, hli.trans (by rw [har])⟩, ?_⟩
  · simp only [har, hba, hv, List.length_map]
    exact hle
  · simp only [hle₀]
    exact Nat.zero_le _
  · simp only [hle₀] at hj
    exact absurd hj (Nat.not_lt_zero _)
  · refine Flat.mk.injEq .. ▸ ⟨flat_arr_eq (by simp [hv]) fun s hlt => ?_, hpush, hcount⟩
    simp only [har, hba]
    rw [hs, flat_arr_getD h.window]

/-! ## Rebuilding any entries -/

/-- The keys of saved hash slots, other than nil, are pairwise different. -/
def KeysDiffer (entries : List (Val × Val)) : Prop :=
  entries.Pairwise fun a b => a.1 ≠ .nil → a.1.eq b.1 = false

/-- A rebuilt slot is added last, under its key or as a vacant slot. -/
theorem rebuildSlot_cases {u' : Table} (hr : u.rebuildSlot (key, v) = .ok u')
    (habs : key ≠ .nil → SlotsAbsent u.storage.slots key) (hok : SlotsOk u.storage.slots) :
    ∃ c, u' = { u with
        storage := u.storage.push (c, v), deadCount := u.deadCount + (1 - v.liveBit) } ∧
      (c = .live key ∧ key.isValidTableKey = true ∧ key ≠ .nil ∧
          (v.isLive = true → u.arrayKey key = none ∧ u.isArrayAppendKey key = false) ∨
        c = .vacant u.storage.slots.length ∧ v = .nil ∧ ∃ m policy, u.storage = .map m policy) := by
  by_cases hcond : (v.isLive && ((u.arrayKey key).isSome || u.isArrayAppendKey key)) = true
  · simp [rebuildSlot, hcond] at hr
  · have hout : v.isLive = true →
        (u.arrayKey key).isSome = false ∧ u.isArrayAppendKey key = false := by
      intro hv
      simpa [hv] using hcond
    by_cases hk : key.isValidTableKey = true
    · have hnil : key ≠ .nil := by
        rintro rfl
        simp [isValidTableKey] at hk
      rw [rebuildSlot_live hk (habs hnil) hout, Except.ok.injEq] at hr
      refine ⟨.live key, hr.symm, .inl ⟨rfl, hk, hnil, fun hv => ?_⟩⟩
      exact ⟨by simpa using (hout hv).1, (hout hv).2⟩
    · -- An invalid key is refused, unless it marks a vacant slot of a map.
      have hnew : ∃ e, TableKey.new key = .error e := by
        cases hn : TableKey.new key with
        | error e => exact ⟨e, rfl⟩
        | ok c => exact absurd (Flat.isValidTableKey_of_new hn) hk
      obtain ⟨e, hnew⟩ := hnew
      cases hs : u.storage with
      | inline entries => simp [rebuildSlot, hcond, hs, hnew] at hr
      | map m policy =>
        by_cases hvac : key = .nil ∧ v.isLive = false
        · obtain ⟨rfl, hv⟩ := hvac
          obtain rfl : v = .nil := by
            by_contra hne
            simp [isLive_iff.2 hne] at hv
          rw [rebuildSlot_vacant hs (by rw [hs] at hok; exact hok), Except.ok.injEq] at hr
          refine ⟨.vacant m.len, ?_, .inr ⟨rfl, rfl, m, policy, rfl⟩⟩
          rw [← hr, hs]
          rfl
        · simp [rebuildSlot, hcond, hs, hnew, hvac] at hr

/-- A rebuilt slot keeps the invariant. -/
theorem rebuildSlot_ok {u' : Table} (h : u.Ok) (hr : u.rebuildSlot (key, v) = .ok u')
    (habs : key ≠ .nil → SlotsAbsent u.storage.slots key)
    (hroom : ∀ entries, u.storage = .inline entries → entries.length < inlineCapacity) :
    u'.Ok := by
  have hhash := h.flat.hash
  obtain ⟨c, rfl, hc⟩ := rebuildSlot_cases hr habs hhash.slots_ok
  have hpush : (u.storage.push (c, v)).slots = u.storage.slots ++ [(c, v)] := by
    rcases hc with ⟨rfl, -⟩ | ⟨rfl, -, m, policy, hs⟩
    · cases u.storage <;> simp [TableStorage.push, TableStorage.slots]
    · rw [hs]
      rfl
  refine ⟨h.window, h.flat.len_le, ?_, fun entries he => ?_, ?_, fun k w n hm hn => ?_⟩
  · simp only [flat, hpush, List.countP_append]
    rw [← show u.deadCount = u.storage.slots.countP fun e => !e.2.isLive from hhash.dead_eq]
    cases hv : v.isLive <;> simp [liveBit, hv]
  · simp only [flat] at he
    cases hs : u.storage with
    | map m policy => simp [hs, TableStorage.push] at he
    | inline es =>
      have hlt := hroom es hs
      rcases hc with ⟨rfl, -⟩ | ⟨-, -, m, policy, hs'⟩
      · rw [hs, TableStorage.push, TableStorage.inline.injEq] at he
        rw [← he, List.length_append, List.length_singleton]
        exact hlt
      · simp [hs] at hs'
  · simp only [flat, hpush]
    rcases hc with ⟨rfl, hk, hnil, -⟩ | ⟨rfl, rfl, -⟩
    · exact hhash.slots_ok.push hk (habs hnil)
    · exact hhash.slots_ok.pushVacant
  · simp only [flat, hpush, liveEntries_append, List.mem_append] at hm
    rcases hm with hm | hm
    · exact hhash.outside k w n hm hn
    · obtain ⟨hm, hl⟩ := mem_liveEntries.1 hm
      obtain ⟨rfl, rfl⟩ := Prod.mk.inj (List.mem_singleton.1 hm)
      rcases hc with ⟨hc, -, -, hout⟩ | ⟨hc, -⟩
      · rw [TableKey.live.inj hc] at hn
        obtain ⟨h₁, h₂⟩ := hout hl
        rw [arrayKey_eq, Option.map_eq_none_iff] at h₁
        have h₂ : ¬ key.toNat? = some (u.vlen + 1) := by
          rw [← isArrayAppendKey_iff h.vlen_le, h₂]
          exact Bool.false_ne_true
        -- A key inside the array would have a slot.
        rcases n with _ | n
        · exact .inl rfl
        · refine .inr (Nat.lt_of_not_le fun hle => ?_)
          rcases Nat.lt_or_eq_of_le hle with hlt | heq
          · rw [slotBelow_eq_some.2 ⟨hn, Nat.lt_of_succ_lt_succ hlt⟩] at h₁
            cases h₁
          · exact h₂ (heq ▸ hn)
      · cases hc

/-- Rebuilding any slots with different keys keeps the invariant. -/
theorem rebuildSlots_ok {Q : List (Val × Val)} {u' : Table} (h : u.Ok) (hd : KeysDiffer Q)
    (habs : ∀ e ∈ Q, e.1 ≠ .nil → SlotsAbsent u.storage.slots e.1)
    (hroom : ∀ entries, u.storage = .inline entries → entries.length + Q.length ≤ inlineCapacity)
    (hr : Q.foldlM (fun t e => t.rebuildSlot e) u = .ok u') : u'.Ok := by
  induction Q generalizing u with
  | nil =>
    rw [List.foldlM_nil] at hr
    cases hr
    exact h
  | cons e Q ih =>
    obtain ⟨key, v⟩ := e
    rw [List.foldlM_cons] at hr
    cases hstep : u.rebuildSlot (key, v) with
    | error e =>
      rw [hstep] at hr
      cases hr
    | ok u₁ =>
      rw [hstep] at hr
      have habs₁ := habs (key, v) List.mem_cons_self
      have hok₁ : u₁.Ok := rebuildSlot_ok h hstep habs₁ fun entries he => by
        have := hroom entries he
        rw [List.length_cons] at this
        omega
      obtain ⟨c, rfl, hc⟩ := rebuildSlot_cases hstep habs₁ h.flat.hash.slots_ok
      obtain ⟨hhead, htail⟩ := List.pairwise_cons.1 hd
      refine ih hok₁ htail (fun e he hne => ?_) (fun entries hs => ?_) hr
      · -- The key just added is another one.
        have hold := habs e (List.mem_cons_of_mem _ he) hne
        rcases hc with ⟨rfl, -, hnil, -⟩ | ⟨rfl, -, m, policy, hs⟩
        · intro s hm
          have hm : s ∈ u.storage.slots ++ [(.live key, v)] := by
            cases hs : u.storage <;> simpa [hs, TableStorage.push, TableStorage.slots] using hm
          rcases List.mem_append.1 hm with hm | hm
          · exact hold s hm
          · rw [List.mem_singleton.1 hm]
            exact hhead e he hnil
        · intro s hm
          rw [hs] at hold
          simp only [hs, TableStorage.push, TableStorage.slots_map, List.mem_append,
            List.mem_singleton] at hm hold
          rcases hm with hm | rfl
          · exact hold s hm
          · rfl
      · cases hst : u.storage with
        | map m policy => simp [hst, TableStorage.push] at hs
        | inline es =>
          have := hroom es hst
          rcases hc with ⟨rfl, -⟩ | ⟨-, -, m, policy, hs'⟩
          · simp only [hst, TableStorage.push, TableStorage.inline.injEq] at hs
            rw [List.length_cons] at this
            rw [← hs, List.length_append, List.length_singleton]
            omega
          · simp [hst] at hs'

/-- The array slots of a snapshot lie inside the array. -/
theorem snapshotBase_le {vlen n base : Nat} {entries : List (Val × Val)}
    (hb : snapshotBase vlen n entries = .ok base) : base + n ≤ vlen := by
  rw [snapshotBase] at hb
  split at hb
  · cases hb
    omega
  · repeat' split at hb
    all_goals first | (cases hb; done) | (cases hb; assumption)

/-- The shell satisfies the invariant, and has room for the slots to come. -/
theorem rebuildShell_ok (vlen base : Nat) (array : List Val) (rest : List (Val × Val))
    (hle : base + array.length ≤ vlen) (hv : vlen ≤ maxArrayLen) :
    (rebuildShell vlen base array rest).Ok ∧
    (rebuildShell vlen base array rest).storage.slots = [] ∧
    ∀ entries, (rebuildShell vlen base array rest).storage = .inline entries →
      entries = [] ∧ (if rest.head? = some (.nil, .bool true) then rest.tail else rest).length ≤
        inlineCapacity := by
  have hshell : ∃ s, rebuildShell vlen base array rest = { empty with
      storage := s, array := array, cap := array.length, base := base, vlen := vlen
      arrayLive := array.countP isLive } ∧
      (s = .map ⟨[]⟩ {} ∨ s = .inline [] ∧
        (if rest.head? = some (.nil, .bool true) then rest.tail else rest).length ≤
          inlineCapacity) := by
    simp only [rebuildShell, withCapacity]
    by_cases hm : rest.head? = some (.nil, .bool true)
    · simp only [hm, if_true]
      rw [if_neg (by omega)]
      exact ⟨_, rfl, .inl rfl⟩
    · simp only [hm, if_false, Nat.sub_zero]
      split
      · rename_i hcap
        exact ⟨_, rfl, .inr ⟨rfl, hcap⟩⟩
      · exact ⟨_, rfl, .inl rfl⟩
  obtain ⟨s, heq, hs⟩ := hshell
  have hslots : s.slots = [] := by
    rcases hs with rfl | ⟨rfl, -⟩ <;> rfl
  rw [heq]
  refine ⟨⟨⟨hle, Nat.zero_le _, fun i hi => absurd hi (Nat.not_lt_zero i), rfl⟩, ?_, ?_⟩, hslots,
    fun entries he => ?_⟩
  · rw [flat_arr_length]
    exact hv
  · refine ⟨?_, fun entries he => ?_, ?_, fun k w n hm => ?_⟩
    · simp [flat, hslots, empty]
    · rcases hs with rfl | ⟨rfl, -⟩
      · cases he
      · cases he
        exact Nat.zero_le _
    · simp only [flat, hslots]
      exact slotsOk_nil
    · simp [flat, hslots] at hm
  · rcases hs with rfl | ⟨rfl, hroom⟩
    · cases he
    · cases he
      exact ⟨rfl, hroom⟩

/-- A rebuild from entries whose hash keys are pairwise different keeps the
    invariant, and one that is refused changes nothing. -/
theorem rebuildFromSnapshot_ok (h : t.Ok) (vlen arraySlots : Nat) (entries : List (Val × Val))
    (hd : KeysDiffer (entries.drop arraySlots)) :
    (t.rebuildFromSnapshot vlen arraySlots entries).2.Ok ∧
      ∀ e, (t.rebuildFromSnapshot vlen arraySlots entries).1 = .error e →
        (t.rebuildFromSnapshot vlen arraySlots entries).2 = t := by
  by_cases hlen : entries.length < arraySlots
  · rw [rebuildFromSnapshot, if_pos hlen]
    exact ⟨h, fun _ _ => rfl⟩
  by_cases hv : maxArrayLen < vlen
  · rw [rebuildFromSnapshot, if_neg hlen, if_pos hv]
    exact ⟨h, fun _ _ => rfl⟩
  cases hb : snapshotBase vlen arraySlots entries with
  | error e =>
    rw [rebuildFromSnapshot, if_neg hlen, if_neg hv, hb]
    exact ⟨h, fun _ _ => rfl⟩
  | ok base =>
    have hsplit : entries.take arraySlots ++ entries.drop arraySlots = entries :=
      List.take_append_drop _ _
    have htake : (entries.take arraySlots).length = arraySlots := by
      rw [List.length_take]
      omega
    by_cases hk : ((entries.take arraySlots).zipIdx.all fun e =>
        isArrayKeyAt vlen (base + e.2) e.1.1) = true
    · have heq := rebuildFromSnapshot_eq t (entries.take arraySlots)
        (entries.drop arraySlots) (by omega) (by rw [hsplit, htake]; exact hb) hk
      rw [hsplit, htake] at heq
      rw [heq]
      cases hf : (if (entries.drop arraySlots).head? = some (.nil, .bool true) then
          (entries.drop arraySlots).tail else entries.drop arraySlots).foldlM
          (fun t e => t.rebuildSlot e) (rebuildShell vlen base
            ((entries.take arraySlots).map Prod.snd) (entries.drop arraySlots)) with
      | error e => exact ⟨h, fun _ _ => rfl⟩
      | ok rebuilt =>
        refine ⟨?_, fun e he => by cases he⟩
        have hbase : base + arraySlots ≤ vlen := snapshotBase_le hb
        obtain ⟨hok, hnone, hroom⟩ := rebuildShell_ok vlen base
          ((entries.take arraySlots).map Prod.snd) (entries.drop arraySlots)
          (by rw [List.length_map, htake]; exact hbase) (by omega)
        have hd' : KeysDiffer (if (entries.drop arraySlots).head? = some (.nil, .bool true) then
            (entries.drop arraySlots).tail else entries.drop arraySlots) := by
          split
          · exact List.Pairwise.sublist (List.tail_sublist _) hd
          · exact hd
        have := rebuildSlots_ok hok hd' (fun e _ _ s hs => by rw [hnone] at hs; cases hs)
          (fun entries hs => by
            obtain ⟨rfl, hle⟩ := hroom entries hs
            rw [List.length_nil, Nat.zero_add]
            exact hle) hf
        exact ⟨this.window, this.flat⟩
    · rw [rebuildFromSnapshot, if_neg hlen, if_neg hv, hb]
      simp only [Bool.not_eq_true] at hk
      simp only [hk, Bool.not_false, if_true]
      exact ⟨h, fun _ _ => trivial⟩

end Table

end Dellingr
