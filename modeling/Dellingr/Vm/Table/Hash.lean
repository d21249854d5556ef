import Dellingr.Vm.Table.Slots

/-!
# Operations on the hash part

`HashOk` is the invariant of the hash part: its dead slots are counted, its keys
are well formed, and no live key is an integer in `1..=limit`. Every operation on
the hash part keeps it, and is given by what it does to the live entries:

* `hashRemove` erases a key from them and returns its value;
* `hashInsert` assigns a key in them, unless the storage revives keys in place;
* `compactDead` does not change them.
-/

namespace Dellingr

open AssocList

/-- The slot policy of a storage: inline storage has the default one. -/
def TableStorage.policy : TableStorage → SlotPolicy
  | inline _ => {}
  | map _ policy => policy

/-- The invariant of the hash part, with no live integer key in `1..=limit`. -/
structure HashOk (s : TableStorage) (dead limit : Nat) : Prop where
  dead_eq : dead = s.slots.countP fun e => !e.2.isLive
  inline_le : ∀ entries, s = .inline entries → entries.length ≤ inlineCapacity
  slots_ok : SlotsOk s.slots
  outside : ∀ k v n, (k, v) ∈ liveEntries s.slots → k.toNat? = some n → n = 0 ∨ limit < n

namespace HashOk

variable {s : TableStorage} {dead limit : Nat} {A B : List (TableKey × Val)} {k key v w : Val}

theorem length_eq (h : HashOk s dead limit) : s.slots.length = (liveEntries s.slots).length + dead := by
  rw [h.dead_eq]
  have hv := h.slots_ok.vacant
  have hlen : ∀ {S : List (TableKey × Val)}, (∀ j v, (.vacant j, v) ∈ S → v = .nil) →
      S.length = (liveEntries S).length + S.countP fun e => !e.2.isLive := by
    intro S hS
    induction S with
    | nil => rfl
    | cons e S ih =>
      have ih := ih fun j v hm => hS j v (List.mem_cons_of_mem _ hm)
      obtain ⟨c, x⟩ := e
      cases hx : x.isLive with
      | true =>
        cases c with
        | live k =>
          rw [liveEntries_cons_live hx, List.countP_cons_of_neg (by simp [hx])]
          simp only [List.length_cons]
          omega
        | vacant j => simp [hS j x List.mem_cons_self] at hx
      | false =>
        rw [liveEntries_cons_dead hx, List.countP_cons_of_pos (by simp [hx])]
        simp only [List.length_cons]
        omega
  refine hlen fun j v hm => ?_
  obtain ⟨i, hi⟩ := List.mem_iff_getElem?.1 hm
  exact (hv i j v hi).2

theorem mono {limit' : Nat} (h : HashOk s dead limit) (hle : limit' ≤ limit) :
    HashOk s dead limit' where
  dead_eq := h.dead_eq
  inline_le := h.inline_le
  slots_ok := h.slots_ok
  outside k v n hm hn := (h.outside k v n hm hn).imp_right hle.trans_lt

/-- The limit may pass a key that is absent. -/
theorem succ (h : HashOk s dead limit) (hl : limit + 1 ≤ 2 ^ 53)
    (hn : lookup Val.eq (liveEntries s.slots) (Val.ofNat (limit + 1)) = none) :
    HashOk s dead (limit + 1) where
  dead_eq := h.dead_eq
  inline_le := h.inline_le
  slots_ok := h.slots_ok
  outside k v n hm hk := by
    refine (h.outside k v n hm hk).imp_right fun hlt => ?_
    by_contra hge
    obtain rfl : n = limit + 1 := by omega
    have := absent_of_lookup_eq_none hn _ hm
    exact absurd ((Val.eq_ofNat_iff hl).2 hk) (by simpa using this)

/-- Writing the value of a keyed slot. -/
theorem setAt (h : HashOk s dead limit) (hs : s.slots = A ++ (.live k, w) :: B)
    (hout : v.isLive = true → ∀ n, k.toNat? = some n → n = 0 ∨ limit < n) :
    HashOk (s.setAt A.length v) (dead + w.liveBit - v.liveBit) limit := by
  have hslots : (s.setAt A.length v).slots = A ++ (.live k, v) :: B := by
    rw [TableStorage.slots_setAt, hs, modify_split]
  refine ⟨?_, fun entries he => ?_, ?_, fun k' v' n hm hn => ?_⟩
  · have hd := h.dead_eq
    rw [hs] at hd
    rw [hslots]
    simp only [List.countP_append, List.countP_cons, Val.liveBit] at hd ⊢
    cases hw : w.isLive <;> cases hv : v.isLive <;> simp [hw] at hd ⊢ <;> omega
  · cases s with
    | map m policy => simp [TableStorage.setAt] at he
    | inline es =>
      simp only [TableStorage.setAt, TableStorage.inline.injEq] at he
      rw [← he, List.length_modify]
      exact h.inline_le es rfl
  · rw [hslots]
    exact (hs ▸ h.slots_ok : SlotsOk (A ++ (.live k, w) :: B)).write
  · rw [hslots] at hm
    obtain ⟨hm, hl⟩ := mem_liveEntries.1 hm
    simp only [List.mem_append, List.mem_cons, Prod.mk.injEq, TableKey.live.injEq] at hm
    rcases hm with hm | ⟨rfl, rfl⟩ | hm
    · exact h.outside k' v' n (mem_liveEntries.2 ⟨by simp [hs, hm], hl⟩) hn
    · exact hout hl n hn
    · exact h.outside k' v' n (mem_liveEntries.2 ⟨by simp [hs, hm], hl⟩) hn

/-- The key of a live slot is outside the array. -/
theorem outside_of_live (h : HashOk s dead limit) (hs : s.slots = A ++ (.live k, w) :: B)
    (hw : w.isLive = true) (n : Nat) (hn : k.toNat? = some n) : n = 0 ∨ limit < n :=
  h.outside k w n (mem_liveEntries.2 ⟨by simp [hs], hw⟩) hn

/-- Another storage with the slots of a live key added last. -/
theorem of_push {s' : TableStorage} {dead' : Nat} {S : List (TableKey × Val)}
    (hslots : s'.slots = S ++ [(.live key, v)]) (hok : SlotsOk S)
    (hdead : dead' = S.countP fun e => !e.2.isLive)
    (hlive : ∀ k v n, (k, v) ∈ liveEntries S → k.toNat? = some n → n = 0 ∨ limit < n)
    (hinl : ∀ entries, s' = .inline entries → entries.length ≤ inlineCapacity)
    (hkey : key.isValidTableKey = true) (habs : SlotsAbsent S key) (hv : v.isLive = true)
    (hout : ∀ n, key.toNat? = some n → n = 0 ∨ limit < n) : HashOk s' dead' limit := by
  refine ⟨?_, hinl, ?_, fun k' v' n hm hn => ?_⟩
  · rw [hslots, List.countP_append, ← hdead]
    simp [hv]
  · rw [hslots]
    exact hok.push hkey habs
  · rw [hslots, liveEntries_append, liveEntries_cons_live hv, List.mem_append] at hm
    rcases hm with hm | hm
    · exact hlive k' v' n hm hn
    · obtain ⟨rfl, rfl⟩ := Prod.mk.inj (List.mem_singleton.1 hm)
      exact hout n hn

end HashOk

/-! ## Maps -/

theorem beq_live (c : TableKey) (key : Val) : (c == .live key) = TableKey.lookup key c := by
  cases c <;> rfl

/-- Inserting a new key into a map adds a slot. -/
theorem slots_insert_of_absent {m : IndexMap TableKey Val} {key v : Val}
    (h : SlotsAbsent m.slots key) : (m.insert (.live key) v).slots = m.slots ++ [(.live key, v)] := by
  have : m.getIndexOf (· == .live key) = none := by
    simpa only [IndexMap.getIndexOf, beq_live] using findIdx?_of_absent h
  simp only [IndexMap.insert, this]

/-- Inserting a key of a map overwrites its slot. -/
theorem insert_of_split {m : IndexMap TableKey Val} {A B : List (TableKey × Val)} {k key v w : Val}
    (hm : m.slots = A ++ (.live k, w) :: B) (hA : SlotsAbsent A key) (hk : k.eq key = true) :
    m.insert (.live key) v = m.setIndex A.length v := by
  have : m.getIndexOf (· == .live key) = some A.length := by
    simpa only [IndexMap.getIndexOf, beq_live, hm] using findIdx?_split hA hk
  simp only [IndexMap.insert, this]

/-- The map of the entries of inline storage has the same slots. -/
theorem slots_foldl_insert {entries : List (Val × Val)} {m : IndexMap TableKey Val}
    (h : SlotsOk (m.slots ++ (TableStorage.inline entries).slots)) :
    (entries.foldl (fun m e => m.insert (.live e.1) e.2) m).slots =
      m.slots ++ (TableStorage.inline entries).slots := by
  induction entries generalizing m with
  | nil => simp [TableStorage.slots]
  | cons e entries ih =>
    have hsplit : m.slots ++ (TableStorage.inline (e :: entries)).slots =
        m.slots ++ (.live e.1, e.2) :: (TableStorage.inline entries).slots := rfl
    rw [hsplit] at h ⊢
    have hval := h.valid e.1 e.2 (by simp)
    have hins : (m.insert (.live e.1) e.2).slots = m.slots ++ [(.live e.1, e.2)] :=
      slots_insert_of_absent (h.absent_split (Val.eq_self hval)).1
    have := ih (m := m.insert (.live e.1) e.2) (by rw [hins, List.append_assoc]; exact h)
    rw [List.foldl_cons, this, hins, List.append_assoc]
    rfl

/-- Vacating the slot of a tombstoned key: no other slot has its vacant key. -/
theorem replaceIndex_vacant {m : IndexMap TableKey Val} {A B : List (TableKey × Val)} {k : Val}
    (hm : m.slots = A ++ (.live k, .nil) :: B) (hok : SlotsOk m.slots) :
    m.replaceIndex A.length (.vacant A.length) = some ⟨A ++ (.vacant A.length, .nil) :: B⟩ := by
  have hnone : m.getIndexOf (· == .vacant A.length) = none := by
    rw [IndexMap.getIndexOf, List.findIdx?_eq_none_iff]
    rintro ⟨c, x⟩ hx
    cases c with
    | live l => rfl
    | vacant j =>
      obtain ⟨i, hi⟩ := List.mem_iff_getElem?.1 hx
      obtain ⟨rfl, -⟩ := hok.vacant i j x hi
      refine (beq_eq_false_iff_ne (α := Nat)).2 fun he => ?_
      simp [he, hm] at hi
  simp only [IndexMap.replaceIndex, hnone]
  rw [hm, modify_split]

/-- Vacating the slot of a tombstoned key keeps the invariant. -/
theorem HashOk.vacate {s : TableStorage} {dead limit : Nat} {policy : SlotPolicy}
    {A B : List (TableKey × Val)} {k : Val} (h : HashOk s dead limit)
    (hs : s.slots = A ++ (.live k, .nil) :: B) :
    HashOk (.map ⟨A ++ (.vacant A.length, .nil) :: B⟩ policy) dead limit where
  dead_eq := by
    rw [h.dead_eq, hs]
    simp [List.countP_append]
  inline_le := by rintro es ⟨⟩
  slots_ok := (hs ▸ h.slots_ok : SlotsOk (A ++ (.live k, .nil) :: B)).vacate
  outside k' v' n hm := by
    refine h.outside k' v' n ?_
    rw [hs]
    simpa [liveEntries, liveEntry] using hm

/-! ## Operations -/

namespace Table

variable {t : Table} {limit : Nat} {key v : Val}

/-- The table with another hash part. -/
abbrev withHash (t : Table) (s : TableStorage) (dead : Nat) (version : UInt64) : Table :=
  { t with storage := s, deadCount := dead, version := version }

/-- Removing a key erases it from the live entries, and returns its value. -/
theorem hashRemove_spec (h : HashOk t.storage t.deadCount limit) (key : Val) :
    ∃ s dead, t.hashRemove key =
        (lookup Val.eq (liveEntries t.storage.slots) key, t.withHash s dead t.version) ∧
      HashOk s dead limit ∧ s.policy = t.storage.policy ∧
      liveEntries s.slots = erase Val.eq (liveEntries t.storage.slots) key := by
  rw [hashRemove, TableStorage.position_eq]
  cases hf : t.storage.slots.findIdx? fun e => TableKey.lookup key e.1 with
  | none =>
    have habs := (absent_of_findIdx? hf).liveEntries
    rw [lookup_of_absent habs]
    exact ⟨_, _, rfl, h, rfl, (erase_of_absent habs).symm⟩
  | some i =>
    obtain ⟨A, k, w, B, hs, rfl, hk, -⟩ := exists_split_of_findIdx? hf
    have hok : SlotsOk (A ++ (.live k, w) :: B) := hs ▸ h.slots_ok
    have hget : t.storage.slots[A.length]? = some (.live k, w) := by simp [hs]
    simp only [TableStorage.slotAt_eq, hget]
    cases hw : w.isLive with
    | true =>
      have hlook : lookup Val.eq (liveEntries t.storage.slots) key = some w := by
        obtain ⟨hA, hB⟩ := hok.absent_split hk
        rw [hs, liveEntries_append, liveEntries_cons_live hw, lookup_split hA.liveEntries hk]
      rw [if_pos rfl, hlook]
      refine ⟨_, _, rfl, ?_, ?_, ?_⟩
      · simpa [Val.liveBit, hw] using h.setAt (v := .nil) hs (by simp)
      · cases t.storage <;> rfl
      · rw [TableStorage.slots_setAt, hs, modify_split]
        exact liveEntries_clear hok hk
    | false =>
      have habs := absent_liveEntries_of_dead hok hk hw
      rw [← hs] at habs
      rw [lookup_of_absent habs]
      exact ⟨_, _, rfl, h, rfl, (erase_of_absent habs).symm⟩

/-- Compaction does not change the live entries. -/
theorem compactDead_spec (h : HashOk t.storage t.deadCount limit) :
    ∃ s dead version, t.compactDead = t.withHash s dead version ∧ HashOk s dead limit ∧
      s.policy = t.storage.policy ∧ liveEntries s.slots = liveEntries t.storage.slots ∧
      (∀ key, SlotsAbsent t.storage.slots key → SlotsAbsent s.slots key) ∧
      (∀ entries, t.storage = .inline entries → t.deadCount ≠ 0 →
        ∃ entries', s = .inline entries' ∧ entries'.length < inlineCapacity) := by
  rw [compactDead]
  split
  · rename_i hc
    refine ⟨_, _, _, rfl, h, rfl, rfl, fun _ h => h, fun entries he hne => ?_⟩
    rcases hc with hc | hc
    · exact absurd hc hne
    · simp [retainsDead, he] at hc
  · have hok := h.slots_ok.filter
    have hdead : (0 : Nat) = (t.storage.slots.filter fun s => s.2.isLive).countP fun e => !e.2.isLive := by
      rw [eq_comm, List.countP_eq_zero]
      intro e he
      simpa using (List.mem_filter.1 he).2
    have hlive : liveEntries (t.storage.slots.filter fun s => s.2.isLive) =
        liveEntries t.storage.slots := liveEntries_filter
    have habs : ∀ key, SlotsAbsent t.storage.slots key →
        SlotsAbsent (t.storage.slots.filter fun s => s.2.isLive) key :=
      fun key ha s hs => ha s (List.mem_of_mem_filter hs)
    cases hs : t.storage with
    | inline entries =>
      have hslots : (TableStorage.inline (entries.filter fun e => e.2.isLive)).slots =
          t.storage.slots.filter fun s => s.2.isLive := by
        rw [hs]
        simp [TableStorage.slots, List.filter_map, Function.comp_def]
      have hle := h.inline_le entries hs
      refine ⟨_, _, _, rfl, ⟨?_, ?_, ?_, ?_⟩, rfl, ?_, ?_, ?_⟩
      · rw [hslots]; exact hdead
      · rintro es ⟨rfl⟩
        exact (List.length_filter_le _ _).trans hle
      · rw [hslots]; exact hok
      · rw [hslots, hlive]; exact h.outside
      · rw [hslots, hlive, hs]
      · rw [hslots, ← hs]; exact habs
      · rintro es ⟨rfl⟩ hne
        refine ⟨_, rfl, ?_⟩
        -- A dead entry goes.
        have hd := h.dead_eq
        rw [hs] at hd
        have hpos : 0 < (TableStorage.inline entries).slots.countP fun e => !e.2.isLive := by omega
        obtain ⟨e, he, hx⟩ := List.countP_pos_iff.1 hpos
        simp only [TableStorage.slots, List.mem_map] at he
        obtain ⟨e', he', rfl⟩ := he
        refine Nat.lt_of_lt_of_le (List.length_filter_lt_length_iff_exists.2 ⟨e', he', ?_⟩) hle
        simpa using hx
    | map m policy =>
      have hslots : (TableStorage.map (m.retain fun _ v => v.isLive) policy).slots =
          t.storage.slots.filter fun s => s.2.isLive := by
        rw [hs]
        rfl
      refine ⟨_, _, _, rfl, ⟨?_, ?_, ?_, ?_⟩, rfl, ?_, ?_, ?_⟩
      · rw [hslots]; exact hdead
      · rintro es ⟨⟩
      · rw [hslots]; exact hok
      · rw [hslots, hlive]; exact h.outside
      · rw [hslots, hlive, hs]
      · rw [hslots, ← hs]; exact habs
      · rintro es ⟨⟩

/-- The effect of an insertion into the hash part. -/
structure HashInsertOk (t : Table) (limit : Nat) (key v : Val) (s : TableStorage) (dead : Nat) :
    Prop where
  ok : HashOk s dead limit
  policy : s.policy = t.storage.policy
  entries : t.storage.policy.reviveInPlace = false →
    liveEntries s.slots = assign Val.eq (liveEntries t.storage.slots) key v
  /-- Whatever the policy, the key has the value, and the others theirs. -/
  values : ∀ k, lookup Val.eq (liveEntries s.slots) k =
    lookup Val.eq (assign Val.eq (liveEntries t.storage.slots) key v) k

namespace HashInsertOk

variable {s : TableStorage} {dead : Nat} {S A B : List (TableKey × Val)} {k w : Val}

/-- A live slot of the key is overwritten. -/
theorem overwrite (h : HashOk t.storage t.deadCount limit)
    (hs : t.storage.slots = A ++ (.live k, w) :: B) (hk : k.eq key = true) (hw : w.isLive = true)
    (hv : v.isLive = true) :
    HashInsertOk t limit key v (t.storage.setAt A.length v) t.deadCount := by
  have he : liveEntries (t.storage.setAt A.length v).slots =
      assign Val.eq (liveEntries t.storage.slots) key v := by
    rw [TableStorage.slots_setAt, hs, modify_split]
    exact liveEntries_overwrite (hs ▸ h.slots_ok) hk hw hv
  refine ⟨?_, ?_, fun _ => he, fun k => by rw [he]⟩
  · simpa [Val.liveBit, hw, hv] using h.setAt (v := v) hs fun _ => h.outside_of_live hs hw
  · cases t.storage <;> rfl

/-- A slot for the key is added last, after dead slots were perhaps dropped. -/
theorem push (hslots : s.slots = S ++ [(.live key, v)]) (hok : SlotsOk S)
    (hdead : dead = S.countP fun e => !e.2.isLive)
    (hlive : liveEntries S = liveEntries t.storage.slots)
    (hout : ∀ k v n, (k, v) ∈ liveEntries t.storage.slots → k.toNat? = some n → n = 0 ∨ limit < n)
    (hinl : ∀ entries, s = .inline entries → entries.length ≤ inlineCapacity)
    (hpol : s.policy = t.storage.policy) (hkey : key.isValidTableKey = true)
    (habs : SlotsAbsent S key) (hv : v.isLive = true)
    (hkout : ∀ n, key.toNat? = some n → n = 0 ∨ limit < n) : HashInsertOk t limit key v s dead := by
  have he : liveEntries s.slots = assign Val.eq (liveEntries t.storage.slots) key v := by
    rw [hslots, liveEntries_append, liveEntries_cons_live hv, ← hlive,
      assign_of_absent habs.liveEntries]
    rfl
  exact ⟨HashOk.of_push hslots hok hdead (hlive ▸ hout) hinl hkey habs hv hkout, hpol, fun _ => he,
    fun k => by rw [he]⟩

/-- A tombstone of the key is revived in place. -/
theorem revive (h : HashOk t.storage t.deadCount limit)
    (hs : t.storage.slots = A ++ (.live k, .nil) :: B) (hk : k.eq key = true)
    (hrev : t.storage.policy.reviveInPlace = true) (hv : v.isLive = true)
    (hout : ∀ n, key.toNat? = some n → n = 0 ∨ limit < n) :
    HashInsertOk t limit key v (t.storage.setAt A.length v) (t.deadCount - 1) := by
  refine ⟨?_, ?_, fun hno => by simp [hrev] at hno, fun key' => ?_⟩
  · have hk' : ∀ n, k.toNat? = some n → n = 0 ∨ limit < n := by
      rw [Val.toNat?_congr hk]
      exact hout
    simpa [Val.liveBit, hv] using h.setAt (v := v) hs fun _ => hk'
  · cases t.storage <;> rfl
  · -- The key is where its tombstone was, and last in the list it is compared with.
    obtain ⟨hA, hB⟩ := (hs ▸ h.slots_ok : SlotsOk (A ++ (.live k, .nil) :: B)).absent_split hk
    have hAB : Absent Val.eq (liveEntries A ++ liveEntries B) key := fun e he =>
      (List.mem_append.1 he).elim (hA.liveEntries e) (hB.liveEntries e)
    have hcongr : ∀ {l : List (Val × Val)}, Absent Val.eq l key → key.eq key' = true →
        Absent Val.eq l key' := fun hl he e hm => by
      rw [← Val.eq_congr_right he]
      exact hl e hm
    rw [TableStorage.slots_setAt, hs, modify_split, liveEntries_append, liveEntries_cons_live hv,
      liveEntries_append, liveEntries_cons_dead rfl, assign_of_absent hAB,
      lookup_insert fun he => hcongr hA.liveEntries (Val.eq_trans (Val.eq_comm k key ▸ hk) he),
      lookup_insert fun he => hcongr hAB he, List.append_nil, Val.eq_congr_left hk]

end HashInsertOk

section Insert

variable (h : HashOk t.storage t.deadCount limit) (hkey : key.isValidTableKey = true)
  (hv : v.isLive = true) (hout : ∀ n, key.toNat? = some n → n = 0 ∨ limit < n)
include h hkey hv hout

/-- Adding a key that has no slot to inline storage, which may be promoted. -/
theorem pushInline_spec {entries : List (Val × Val)} {u : Table}
    (hu : HashOk u.storage u.deadCount limit) (hs : u.storage = .inline entries)
    (habs : SlotsAbsent u.storage.slots key) (hpol : t.storage.policy = {})
    (hlive : liveEntries u.storage.slots = liveEntries t.storage.slots) :
    ∃ s, u.pushInline key v = some { u with storage := s } ∧
      HashInsertOk t limit key v s u.deadCount := by
  have hslots : u.storage.slots = (TableStorage.inline entries).slots := by rw [hs]
  rw [pushInline, hs]
  simp only
  split
  · rename_i hlt
    refine ⟨_, rfl, .push (S := u.storage.slots) ?_ hu.slots_ok hu.dead_eq hlive h.outside ?_ ?_ hkey
      habs hv hout⟩
    · simp [TableStorage.slots, hs]
    · rintro es ⟨rfl⟩
      rw [List.length_append, List.length_singleton]
      exact hlt
    · exact hpol.symm
  · rw [promoteToMap, hs]
    have hm : (entries.foldl (fun m e => m.insert (.live e.1) e.2)
        (⟨[]⟩ : IndexMap TableKey Val)).slots = u.storage.slots := by
      rw [hslots]
      simpa using slots_foldl_insert (m := ⟨[]⟩) (by simpa [hs] using hu.slots_ok)
    refine ⟨_, rfl, .push (S := u.storage.slots) ?_ hu.slots_ok hu.dead_eq hlive h.outside ?_ ?_ hkey
      habs hv hout⟩
    · rw [← hm]
      exact slots_insert_of_absent (hm ▸ habs)
    · rintro es ⟨⟩
    · exact hpol.symm

/-- Adding a key that has no slot to a map, which may compact first. -/
theorem pushMap_spec {m : IndexMap TableKey Val} {policy : SlotPolicy} {u : Table}
    (hu : HashOk u.storage u.deadCount limit) (hs : u.storage = .map m policy)
    (habs : SlotsAbsent u.storage.slots key) (hpol : u.storage.policy = t.storage.policy)
    (hlive : liveEntries u.storage.slots = liveEntries t.storage.slots) :
    ∃ s dead version, u.pushMap (.live key) v = some (u.withHash s dead version) ∧
      HashInsertOk t limit key v s dead := by
  have hle : u.deadCount ≤ u.hashSlotCount := by
    rw [hashSlotCount, TableStorage.len_eq, hu.dead_eq]
    exact List.countP_le_length
  -- Whether or not it compacts, a map with the same live entries is left.
  obtain ⟨s, dead, version, he, hok, hpol', hlive', habs'⟩ : ∃ s dead version,
      (if u.hashSlotCount - u.deadCount ≤ u.deadCount then u.compactDead else u) =
        u.withHash s dead version ∧ HashOk s dead limit ∧ s.policy = u.storage.policy ∧
      liveEntries s.slots = liveEntries u.storage.slots ∧ SlotsAbsent s.slots key ∧
      ∃ m', s = .map m' policy := by
    split
    · obtain ⟨s, dead, version, he, hok, hp, hl, ha, -⟩ := compactDead_spec hu
      refine ⟨s, dead, version, he, hok, hp, hl, ha key habs, ?_⟩
      have hst : u.compactDead.storage = s := by rw [he]
      rw [← hst, compactDead]
      split
      · exact ⟨m, hs⟩
      · simp [bumpVersion, hs]
    · exact ⟨_, _, _, rfl, hu, rfl, rfl, habs, m, hs⟩
  obtain ⟨habs', m', rfl⟩ := habs'
  simp only [pushMap, checkedSub_of_le hle, Option.bind_eq_bind, Option.bind_some, he, Option.pure_def]
  refine ⟨_, _, _, rfl, .push (S := m'.slots) (slots_insert_of_absent habs') hok.slots_ok hok.dead_eq
    (hlive'.trans hlive) h.outside ?_ (hpol'.trans hpol) hkey habs' hv hout⟩
  rintro es ⟨⟩

theorem insertWithoutTombstones_spec (hd : t.deadCount = 0) :
    ∃ s, t.insertWithoutTombstones key v = { t with storage := s } ∧
      HashInsertOk t limit key v s t.deadCount := by
  have hall : ∀ {A B k w}, t.storage.slots = A ++ (.live k, w) :: B → w.isLive = true := by
    intro A B k w hs
    have hz := h.dead_eq
    rw [hd, eq_comm, List.countP_eq_zero] at hz
    simpa using hz (.live k, w) (by simp [hs])
  rw [insertWithoutTombstones]
  cases hs : t.storage with
  | inline entries =>
    have hpos := TableStorage.position_eq t.storage key
    rw [hs, TableStorage.position] at hpos
    simp only [hpos]
    cases hf : (TableStorage.inline entries).slots.findIdx? fun e => TableKey.lookup key e.1 with
    | some i =>
      obtain ⟨A, k, w, B, hS, rfl, hk, -⟩ := exists_split_of_findIdx? hf
      rw [← hs] at hS
      have := HashInsertOk.overwrite h hS hk (hall hS) hv
      rw [hs] at this
      exact ⟨_, rfl, this⟩
    | none =>
      have habs := absent_of_findIdx? hf
      rw [← hs] at habs
      obtain ⟨s, he, hok⟩ := pushInline_spec h hkey hv hout h hs habs (by rw [hs]; rfl) rfl
      refine ⟨s, ?_, hok⟩
      simp only [pushInline, hs] at he
      simp only
      split at he <;> rename_i hlt <;> simp only [hlt, if_true, if_false]
      · exact Option.some.inj he
      · exact Option.some.inj he
  | map m policy =>
    simp only
    cases hf : m.slots.findIdx? fun e => TableKey.lookup key e.1 with
    | some i =>
      obtain ⟨A, k, w, B, hS, rfl, hk, hA⟩ := exists_split_of_findIdx? hf
      have hS' : t.storage.slots = A ++ (.live k, w) :: B := by rw [hs]; exact hS
      have := HashInsertOk.overwrite h hS' hk (hall hS') hv
      rw [hs] at this
      exact ⟨_, by rw [insert_of_split hS hA hk]; rfl, this⟩
    | none =>
      have habs := absent_of_findIdx? hf
      refine ⟨_, rfl, .push (S := m.slots) (slots_insert_of_absent habs) ?_ ?_ ?_ h.outside ?_ ?_ hkey
        habs hv hout⟩
      · simpa [hs] using h.slots_ok
      · simpa [hs] using h.dead_eq
      · rw [hs]; rfl
      · rintro es ⟨⟩
      · rw [hs]; rfl

theorem insertInlineWithTombstones_spec {entries : List (Val × Val)} (hd : t.deadCount ≠ 0)
    (hs : t.storage = .inline entries) :
    ∃ s dead version, t.insertInlineWithTombstones entries key v =
        some (t.withHash s dead version) ∧ HashInsertOk t limit key v s dead := by
  have hpol : t.storage.policy = {} := by rw [hs]; rfl
  have hslots : t.storage.slots = entries.map fun e => (.live e.1, e.2) := by rw [hs]; rfl
  have hle := h.inline_le entries hs
  have hdle : t.deadCount ≤ entries.length := by
    rw [h.dead_eq, hslots]
    exact List.countP_le_length.trans (by simp)
  have hpos := TableStorage.position_eq t.storage key
  rw [hs, TableStorage.position] at hpos
  rw [insertInlineWithTombstones]
  cases hf : (TableStorage.inline entries).slots.findIdx? fun e => TableKey.lookup key e.1 with
  | none =>
    -- A new key: compaction makes room for it where there is none.
    have habs := absent_of_findIdx? hf
    have hnone : (entries.findIdx? fun e => e.1.eq key && e.2.isLive) = none := by
      rw [List.findIdx?_eq_none_iff]
      intro e he
      have := habs (.live e.1, e.2) (by simpa [TableStorage.slots] using he)
      simp only [TableKey.lookup] at this
      simp [this]
    rw [← hs] at habs
    simp only [hnone, hpos, hf, checkedSub_of_le hdle, Option.bind_eq_bind, Option.bind_some]
    split
    · obtain ⟨s, dead, version, he, hok, -, hl, ha, hi⟩ := compactDead_spec h
      obtain ⟨es, rfl, -⟩ := hi entries hs hd
      rw [he]
      obtain ⟨s, he, hins⟩ := pushInline_spec (u := t.withHash (.inline es) dead version) h hkey hv hout
        hok rfl (ha key habs) hpol hl
      exact ⟨_, _, _, he, hins⟩
    · obtain ⟨s, he, hins⟩ := pushInline_spec h hkey hv hout h hs habs hpol rfl
      exact ⟨_, _, _, he, hins⟩
  | some i =>
    obtain ⟨A, k, w, B, hS, rfl, hk, hA⟩ := exists_split_of_findIdx? hf
    rw [← hs] at hS
    obtain ⟨EA, e, EB, rfl, hEA, he, hEB⟩ : ∃ EA e EB, entries = EA ++ e :: EB ∧
        EA.map (fun e => (TableKey.live e.1, e.2)) = A ∧ (TableKey.live e.1, e.2) = (.live k, w) ∧
        EB.map (fun e => (TableKey.live e.1, e.2)) = B := by
      rw [hslots, List.map_eq_append_iff] at hS
      obtain ⟨EA, R, rfl, hEA, hR⟩ := hS
      obtain ⟨e, EB, rfl, he, hEB⟩ := List.map_eq_cons_iff.1 hR
      exact ⟨EA, e, EB, rfl, hEA, he, hEB⟩
    obtain ⟨rfl, rfl⟩ : e.1 = k ∧ e.2 = w := by simpa using he
    have hlen : EA.length = A.length := by rw [← hEA, List.length_map]
    have habs : ∀ x ∈ EA, x.1.eq key = false := fun x hx =>
      hA (.live x.1, x.2) (by rw [← hEA]; exact List.mem_map_of_mem hx)
    cases hw : e.2.isLive with
    | true =>
      have hfind : ((EA ++ e :: EB).findIdx? fun e => e.1.eq key && e.2.isLive) = some A.length := by
        rw [List.findIdx?_append, List.findIdx?_eq_none_iff.2 fun x hx => by simp [habs x hx]]
        simp [List.findIdx?_cons, hk, hw, hlen]
      have := HashInsertOk.overwrite h hS hk hw hv
      rw [hs] at this
      simp only [hfind]
      exact ⟨_, _, _, rfl, this⟩
    | false =>
      have hB := ((hS ▸ h.slots_ok : SlotsOk (A ++ (.live e.1, e.2) :: B)).absent_split hk).2
      have hfind : ((EA ++ e :: EB).findIdx? fun e => e.1.eq key && e.2.isLive) = none := by
        rw [List.findIdx?_eq_none_iff]
        intro x hx
        rcases List.mem_append.1 hx with hx | hx
        · simp [habs x hx]
        · rcases List.mem_cons.1 hx with rfl | hx
          · simp [hw]
          · have := hB (.live x.1, x.2) (by rw [← hEB]; exact List.mem_map_of_mem hx)
            simp only [TableKey.lookup] at this
            simp [this]
      -- The tombstone is shifted out.
      have hdead : t.deadCount - 1 = (A ++ B).countP fun e => !e.2.isLive := by
        rw [h.dead_eq, hS]
        simp [hw, List.countP_append]
      have herase : (EA ++ e :: EB).eraseIdx A.length = EA ++ EB := by
        rw [← hlen, eraseIdx_split]
      have hslots' : (TableStorage.inline (EA ++ EB)).slots = A ++ B := by
        simp [TableStorage.slots, hEA, hEB]
      have hok : SlotsOk (A ++ B) := by
        refine (hS ▸ h.slots_ok : SlotsOk (A ++ (.live e.1, e.2) :: B)).remove ?_
        intro j x hm
        rw [← hS, hslots] at hm
        simp at hm
      have hlive : liveEntries (A ++ B) = liveEntries t.storage.slots := by
        rw [hS, liveEntries_append, liveEntries_append, liveEntries_cons_dead hw]
      obtain ⟨s, he', hins⟩ := pushInline_spec
        (u := { t with storage := .inline (EA ++ EB), deadCount := t.deadCount - 1 }.bumpVersion)
        h hkey hv hout
        ⟨by rw [← hslots'] at hdead; exact hdead, by
          rintro es ⟨rfl⟩
          simp only [List.length_append, List.length_cons] at hle ⊢
          omega, by rw [← hslots'] at hok; exact hok, by
          rw [← hslots'] at hlive
          simpa only [bumpVersion, hlive] using h.outside⟩ rfl
        (by
          intro x hx
          simp only [bumpVersion, hslots', List.mem_append] at hx
          exact hx.elim (hA x) (hB x)) hpol (by rw [← hslots'] at hlive; exact hlive)
      simp only [hfind, hpos, hf, herase, checkedSub_of_le (Nat.one_le_iff_ne_zero.2 hd),
        Option.bind_eq_bind, Option.bind_some]
      exact ⟨_, _, _, he', hins⟩

theorem insertIntoMapWithTombstones_spec {m : IndexMap TableKey Val} {policy : SlotPolicy}
    (hd : t.deadCount ≠ 0) (hs : t.storage = .map m policy) :
    ∃ s dead version, t.insertIntoMapWithTombstones m policy key v =
        some (t.withHash s dead version) ∧ HashInsertOk t limit key v s dead := by
  have hslots : t.storage.slots = m.slots := by rw [hs]; rfl
  rw [insertIntoMapWithTombstones, IndexMap.getFull, IndexMap.getIndexOf]
  cases hf : m.slots.findIdx? fun e => TableKey.lookup key e.1 with
  | none =>
    obtain ⟨s, dead, version, he, hins⟩ := pushMap_spec h hkey hv hout h hs
      (by rw [hslots]; exact absent_of_findIdx? hf) rfl rfl
    exact ⟨_, _, _, he, hins⟩
  | some i =>
    obtain ⟨A, k, w, B, hS, rfl, hk, hA⟩ := exists_split_of_findIdx? hf
    have hS' : t.storage.slots = A ++ (.live k, w) :: B := hslots.trans hS
    have hget : m.slots[A.length]? = some (.live k, w) := by simp [hS]
    have hset : (t.storage.setAt A.length v) = .map (m.setIndex A.length v) policy := by
      rw [hs]
      rfl
    simp only [Option.bind_some, hget, Option.map_some]
    cases hw : w.isLive with
    | true =>
      have := HashInsertOk.overwrite h hS' hk hw hv
      rw [hset] at this
      exact ⟨_, _, _, rfl, this⟩
    | false =>
      obtain rfl := Val.isLive_eq_false.1 hw
      simp only [Bool.false_eq_true, if_false, checkedSub_of_le (Nat.one_le_iff_ne_zero.2 hd),
        Option.bind_eq_bind, Option.bind_some]
      split
      · rename_i hrev
        have := HashInsertOk.revive h hS' hk (by rw [hs]; exact hrev) hv hout
        rw [hset] at this
        exact ⟨_, _, _, rfl, this⟩
      · -- The old slot is vacated in place, and the key is added last.
        have hok : SlotsOk (A ++ (.live k, .nil) :: B) := hS' ▸ h.slots_ok
        obtain ⟨hA, hB⟩ := hok.absent_split hk
        have hlive : liveEntries (A ++ (.vacant A.length, .nil) :: B) =
            liveEntries t.storage.slots := by
          rw [hS', liveEntries_append, liveEntries_append, liveEntries_cons_dead rfl,
            liveEntries_cons_dead rfl]
        have habs : SlotsAbsent (A ++ (.vacant A.length, .nil) :: B) key := by
          intro x hx
          rcases List.mem_append.1 hx with hx | hx
          · exact hA x hx
          · rcases List.mem_cons.1 hx with rfl | hx
            · rfl
            · exact hB x hx
        rw [replaceIndex_vacant hS (hslots ▸ h.slots_ok)]
        obtain ⟨s, dead, version, he, hins⟩ := pushMap_spec (t := t)
          (u := t.withHash (.map ⟨A ++ (.vacant A.length, .nil) :: B⟩ policy) t.deadCount
            (t.version + 1)) h hkey hv hout (h.vacate hS') rfl habs (by rw [hs]; rfl) hlive
        exact ⟨_, _, _, he, hins⟩

/-- Inserting a key assigns it in the live entries. -/
theorem hashInsert_spec :
    ∃ s dead version, t.hashInsert key v = some (t.withHash s dead version) ∧
      HashInsertOk t limit key v s dead := by
  rw [hashInsert]
  by_cases hd : t.deadCount = 0
  · rw [if_pos hd]
    obtain ⟨s, he, hins⟩ := insertWithoutTombstones_spec h hkey hv hout hd
    exact ⟨_, _, _, congrArg some he, hins⟩
  · rw [if_neg hd]
    cases hs : t.storage with
    | inline entries => exact insertInlineWithTombstones_spec h hkey hv hout hd hs
    | map m policy => exact insertIntoMapWithTombstones_spec h hkey hv hout hd hs

end Insert

end Table

end Dellingr
