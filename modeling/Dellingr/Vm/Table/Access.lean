import Dellingr.Vm.Table.Growth

/-!
# Reading after writing

What a table has for a key after an assignment, whatever the storage did for it: the value
assigned for the key, and for every other key the value it had (`Table.get_insert`). An assignment
is refused only where the array would grow, and then nothing has changed; a key that has a value is
always assigned (`Table.insert_live`), and nil too (`Table.insert_nil`).

The statement is first about the contents of a table: migration moves a key between the two parts
and changes no value (`Contents.get_migrate`).
-/

namespace Dellingr

open AssocList Val

namespace Contents

variable {c d : Contents} {key k v : Val}

/-! ## Contents -/

theorem slot_congr (h : key.eq k = true) : c.slot key = c.slot k := by
  rw [slot, slot, slotBelow, slotBelow, toNat?_congr h]

theorem lookup_congr (h : key.eq k = true) : lookup Val.eq c.hash key = lookup Val.eq c.hash k := by
  rw [lookup, lookup]
  congr 2
  funext e
  exact eq_congr_right h e.1

theorem get_congr (h : key.eq k = true) : c.get key = c.get k := by
  rw [get, get, slot_congr h, hashGet, hashGet, lookup_congr h]

/-- A key in the array is equal to those with the same slot. -/
theorem eq_of_slot {i : Nat} (h : c.slot key = some i) (h' : c.slot k = some i) : key.eq k = true :=
  eq_of_toNat? (slotBelow_eq_some.1 h).1 (slotBelow_eq_some.1 h').1

/-- Contents with the same array and the same value for every key of the map read the same. -/
theorem get_of_lookup (harr : c.arr = d.arr)
    (hhash : ∀ k, lookup Val.eq c.hash k = lookup Val.eq d.hash k) (k : Val) : c.get k = d.get k := by
  rw [get, get, slot, slot, harr, hashGet, hashGet, hhash k]

/-- One key is pulled out of the map. -/
theorem get_pull (hlen : c.arr.length < maxArrayLen)
    (hv : lookup Val.eq c.hash (Val.ofNat (c.arr.length + 1)) = some v) (k : Val) :
    Contents.get ⟨c.arr ++ [v], erase Val.eq c.hash (Val.ofNat (c.arr.length + 1))⟩ k = c.get k := by
  have hmax : maxArrayLen ≤ 2 ^ 53 := by decide
  have hnat : (Val.ofNat (c.arr.length + 1)).toNat? = some (c.arr.length + 1) := toNat?_ofNat (by omega)
  by_cases hk : k.toNat? = some (c.arr.length + 1)
  · have hnone : c.slot k = none := by
      rw [slot, slotBelow, hk]
      exact if_neg (Nat.lt_irrefl _)
    have hsome : Contents.slot ⟨c.arr ++ [v], erase Val.eq c.hash (Val.ofNat (c.arr.length + 1))⟩ k =
        some c.arr.length := slotBelow_eq_some.2 ⟨hk, by simp⟩
    rw [get, get, hsome, hnone]
    simp only [hashGet]
    rw [lookup_congr (eq_of_toNat? hk hnat), hv]
    simp
  · have hne : ∀ x, Val.eq x (Val.ofNat (c.arr.length + 1)) = true → Val.eq x k = false := by
      intro x hx
      by_contra hxk
      rw [Bool.not_eq_false] at hxk
      exact hk ((toNat?_congr hxk).symm.trans ((toNat?_congr hx).trans hnat))
    have hslot : Contents.slot ⟨c.arr ++ [v], erase Val.eq c.hash (Val.ofNat (c.arr.length + 1))⟩ k =
        c.slot k := by
      rw [slot, slot, slotBelow, slotBelow, List.length_append, List.length_singleton]
      rcases hn : k.toNat? with _ | _ | n
      · rfl
      · rfl
      · have hnl : n ≠ c.arr.length := fun he => hk (he ▸ hn)
        simp only [show n < c.arr.length + 1 ↔ n < c.arr.length by omega]
    rw [get, get, hslot]
    cases hs : c.slot k with
    | some i =>
      have hi := (slotBelow_eq_some.1 hs).2
      simp only [List.getD_eq_getElem?_getD]
      rw [List.getElem?_append_left hi]
    | none =>
      simp only [hashGet]
      rw [lookup_erase_of_ne hne]

/-- Migration changes no value. -/
theorem get_migrateLoop {fuel : Nat} (hlen : (migrateLoop fuel c).arr.length ≤ maxArrayLen) (k : Val) :
    (migrateLoop fuel c).get k = c.get k := by
  induction fuel generalizing c with
  | zero => rfl
  | succ fuel ih =>
    rw [migrateLoop] at hlen ⊢
    split at hlen
    · rename_i v hv
      have hgrow : (c.arr ++ [v]).length ≤ maxArrayLen := (@length_le_migrateLoop
        ⟨c.arr ++ [v], erase Val.eq c.hash (Val.ofNat (c.arr.length + 1))⟩ fuel).trans hlen
      rw [List.length_append, List.length_singleton] at hgrow
      exact (ih hlen).trans (get_pull hgrow hv k)
    · rfl

theorem get_migrate (hlen : c.migrate.arr.length ≤ maxArrayLen) (k : Val) : c.migrate.get k = c.get k :=
  get_migrateLoop hlen k

/-- A value appended is that of the key after the array. -/
theorem get_push (hlen : (c.push v).arr.length ≤ maxArrayLen) (hkey : key.toNat? = some (c.arr.length + 1))
    (k : Val) : (c.push v).get k = if key.eq k then v else c.get k := by
  rw [push, get_migrate hlen]
  by_cases hk : key.eq k = true
  · have hsome : Contents.slot ⟨c.arr ++ [v], c.hash⟩ k = some c.arr.length :=
      slotBelow_eq_some.2 ⟨(toNat?_congr hk).symm.trans hkey, by simp⟩
    rw [if_pos hk, get, hsome]
    simp
  · have hslot : Contents.slot ⟨c.arr ++ [v], c.hash⟩ k = c.slot k := by
      rw [slot, slot, slotBelow, slotBelow, List.length_append, List.length_singleton]
      rcases hn : k.toNat? with _ | _ | n
      · rfl
      · rfl
      · have hnl : n ≠ c.arr.length := fun he => hk (eq_of_toNat? hkey (he ▸ hn))
        simp only [show n < c.arr.length + 1 ↔ n < c.arr.length by omega]
    rw [if_neg hk, get, get, hslot]
    cases hs : c.slot k with
    | some i =>
      have hi := (slotBelow_eq_some.1 hs).2
      simp only [List.getD_eq_getElem?_getD]
      rw [List.getElem?_append_left hi]
    | none => rfl

/-- A value stored in the array is that of its key. -/
theorem get_setArr {i : Nat} (hkey : c.slot key = some i) (k : Val) :
    Contents.get { c with arr := c.arr.set i v } k = if key.eq k then v else c.get k := by
  have hslot : Contents.slot { c with arr := c.arr.set i v } k = c.slot k := by
    rw [slot, slot, List.length_set]
  have hi := (slotBelow_eq_some.1 hkey).2
  rw [get, hslot]
  by_cases hk : key.eq k = true
  · rw [if_pos hk, ← slot_congr hk, hkey]
    simp [hi]
  · rw [if_neg hk, get]
    cases hs : c.slot k with
    | some j =>
      have hij : i ≠ j := by
        rintro rfl
        exact hk (eq_of_slot hkey hs)
      simp only [List.getD_eq_getElem?_getD]
      rw [List.getElem?_set_ne hij]
    | none => rfl

/-- A key that is not in the array is assigned in the map. -/
theorem get_assign (hvalid : key.isValidTableKey = true) (hkey : c.slot key = none) {hash : List (Val × Val)}
    (hhash : ∀ k, lookup Val.eq hash k = lookup Val.eq (assign Val.eq c.hash key v) k) (k : Val) :
    Contents.get ⟨c.arr, hash⟩ k = if key.eq k then v else c.get k := by
  have hslot : Contents.slot ⟨c.arr, hash⟩ k = c.slot k := rfl
  rw [get, hslot, hashGet]
  simp only [hhash]
  by_cases hk : key.eq k = true
  · rw [if_pos hk, ← slot_congr hk, hkey, lookup_assign_of_eq hk fun x => eq_congr_right hk x]
    rfl
  · rw [if_neg hk, get]
    cases hs : c.slot k with
    | some i => rfl
    | none =>
      have hne : ∀ x, Val.eq x key = true → Val.eq x k = false := fun x hx => by
        rw [eq_congr_left hx]
        simpa using hk
      simp only [hashGet]
      rw [lookup_assign_of_ne (hne key (eq_self hvalid)) hne]

/-- A key that is not in the array is erased from the map. -/
theorem get_erase (hkey : c.slot key = none) (k : Val) :
    Contents.get { c with hash := erase Val.eq c.hash key } k = if key.eq k then .nil else c.get k := by
  have hslot : Contents.slot { c with hash := erase Val.eq c.hash key } k = c.slot k := rfl
  rw [get, hslot, hashGet]
  by_cases hk : key.eq k = true
  · rw [if_pos hk, ← slot_congr hk, hkey]
    have habs : Absent Val.eq (erase Val.eq c.hash key) k := fun e he => by
      have := (List.mem_filter.1 he).2
      rw [Bool.not_eq_true'] at this
      rw [← eq_congr_right hk, this]
    simp only [lookup_of_absent habs, Option.getD_none]
  · rw [if_neg hk, get]
    cases hs : c.slot k with
    | some i => rfl
    | none =>
      have hne : ∀ x, Val.eq x key = true → Val.eq x k = false := fun x hx => by
        rw [eq_congr_left hx]
        simpa using hk
      simp only [hashGet]
      rw [lookup_erase_of_ne hne]

end Contents

/-! ## Tables -/

namespace Flat

variable {f : Flat} {key v : Val}

/-- What an assignment that is not refused does to the values. -/
theorem get_insert (h : f.Ok) (hr : (f.insert key v).1 = .ok ()) (k : Val) :
    (f.insert key v).2.get k = if key.eq k then v else f.get k := by
  have hok := (insert_does h key v).ok
  rw [get_eq hok, get_eq h]
  rw [insert] at hr hok ⊢
  cases hs : f.slot key with
  | some i => exact Contents.get_setArr (c := f.contents) hs k
  | none =>
    simp only [hs] at hr hok ⊢
    cases hnew : TableKey.new key with
    | error e =>
      rw [hnew] at hr
      cases hr
    | ok key' =>
      simp only [hnew] at hr hok ⊢
      have hvalid := isValidTableKey_of_new hnew
      by_cases hv : v = .nil
      · subst hv
        rw [if_pos rfl] at hr hok ⊢
        rw [(hashRemove_spec h key).2.2.2]
        exact Contents.get_erase (c := f.contents) hs k
      · rw [if_neg hv] at hr hok ⊢
        by_cases happ : key.toNat? = some (f.arr.length + 1)
        · rw [if_pos happ] at hr hok ⊢
          obtain ⟨e, he, -⟩ | ⟨f', he, hok', -, hc⟩ := append_spec (v := v) h
          · rw [he] at hr
            cases hr
          · rw [he, hc]
            exact Contents.get_push (c := f.contents) (by rw [← hc]; exact hok'.len_le) happ k
        · rw [if_neg happ] at hr hok ⊢
          have hout : ∀ n, key.toNat? = some n → n = 0 ∨ f.arr.length + 1 < n := by
            intro n hn
            by_contra hlt
            obtain ⟨m, rfl⟩ : ∃ m, n = m + 1 := ⟨n - 1, by omega⟩
            have hne : m ≠ f.arr.length := fun he => happ (he ▸ hn)
            have := Val.slotBelow_eq_some.2 ⟨hn, (by omega : m < f.arr.length)⟩
            rw [← slot, hs] at this
            cases this
          obtain ⟨s, dead, version, he, hins⟩ :=
            Table.hashInsert_spec (t := f.hashTable) h.hash hvalid (Val.isLive_iff.2 hv) hout
          rw [hashInsert, he]
          exact Contents.get_assign (c := f.contents) hvalid hs hins.values k

/-- An append stays within the limit if a key within it, after the one appended, has no value. -/
theorem growth_ok {n : Nat} (hlen : f.arr.length + 1 < n) (hn : n ≤ maxArrayLen + 1)
    (hnil : f.get (Val.ofNat n) = .nil) : ∃ m, f.growth = .ok m := by
  have hend : ∀ {fuel last : Nat}, last < n → ∃ e, f.migrationEnd fuel last = .ok e := by
    intro fuel
    induction fuel with
    | zero => exact fun _ => ⟨_, rfl⟩
    | succ fuel ih =>
      intro last hlast
      rw [migrationEnd]
      split
      · exact ⟨_, rfl⟩
      · rename_i hlive
        have hne : last + 1 ≠ n := by
          rintro rfl
          exact hlive hnil
        rw [if_neg (by omega)]
        exact ih (by omega)
  rw [growth, if_neg (by omega)]
  split
  · exact ⟨_, rfl⟩
  · obtain ⟨e, he⟩ := @hend (maxArrayLen - f.arr.length) _ hlen
    exact ⟨_, by rw [he]; rfl⟩

/-- Only a value for the key after the array is refused. -/
theorem insert_refused_append {e : TableError} (hvalid : key.isValidTableKey = true)
    (he : (f.insert key v).1 = .error e) :
    v ≠ .nil ∧ f.slot key = none ∧ key.toNat? = some (f.arr.length + 1) ∧ f.growth = .error e := by
  rw [insert] at he
  cases hs : f.slot key with
  | some i =>
    rw [hs] at he
    cases he
  | none =>
    simp only [hs] at he
    obtain ⟨k, hk⟩ := Val.isValidTableKey_iff.1 hvalid
    have hnew : TableKey.new key = .ok (.live key) := by rw [TableKey.new, hk]; rfl
    simp only [hnew] at he
    split at he
    · cases he
    rename_i hv
    split at he
    · rename_i happ
      refine ⟨hv, rfl, happ, ?_⟩
      rw [append] at he
      cases hg : f.growth with
      | error e' =>
        rw [hg] at he
        rw [← Except.error.inj he]
      | ok m =>
        rw [hg] at he
        cases he
    · cases he

end Flat

namespace Table

variable {t t' : Table} {A : Allocator} {key v : Val} {e : TableError}

/-- Assigning a key gives it the value, and leaves the others. -/
theorem get_insert (h : t.Ok) (hi : t.insert A key v = some (.ok (), t')) :
    t'.Ok ∧ ∀ k, t'.get k = if key.eq k then v else t.get k := by
  have hflat := (ok_iff.1 h).2
  obtain ⟨res, u, he, hw, hr⟩ := @insert_refines t A key v h
  rw [hi] at he
  obtain ⟨rfl, rfl⟩ := Prod.mk.inj (Option.some.inj he)
  obtain ⟨hres, hf⟩ : Except.ok () = (t.flat.insert key v).1 ∧ t'.flat = (t.flat.insert key v).2 := by
    rcases hr with hr | ⟨hr, -⟩
    · exact hr
    · cases hr
  have hok : t'.Ok := ok_iff.2 ⟨hw, hf ▸ (Flat.insert_does hflat key v).ok⟩
  refine ⟨hok, fun k => ?_⟩
  rw [get_flat hok (Nat.le_succ _), get_flat h (Nat.le_succ _), hf]
  exact Flat.get_insert hflat hres.symm k

/-- A refused assignment leaves every value. -/
theorem get_insert_refused (h : t.Ok) (hi : t.insert A key v = some (.error e, t')) :
    t'.Ok ∧ ∀ k, t'.get k = t.get k := by
  have hsame := insert_refused h hi
  exact ⟨hsame.right, fun k => (hsame.agree.get k).symm⟩

/-! ## Assignments that are not refused -/

/-- Nil is always assigned. -/
theorem insert_nil (h : t.Ok) (hvalid : key.isValidTableKey = true) :
    ∃ t', t.insert A key .nil = some (.ok (), t') := by
  rw [insert]
  cases hs : t.arraySlot key with
  | some p =>
    obtain ⟨-, hp⟩ := arraySlot_eq_some.1 hs
    obtain ⟨t', he, -⟩ := writeWindow_flat (v := .nil) h.window hp
    exact ⟨t', by simp only [he, Option.map_some]⟩
  | none =>
    obtain ⟨k, hk⟩ := isValidTableKey_iff.1 hvalid
    have hnew : TableKey.new key = .ok (.live key) := by rw [TableKey.new, hk]; rfl
    simp only [hnew, if_true]
    exact ⟨_, rfl⟩

/-- A key that has a value is always assigned. -/
theorem insert_live (h : t.Ok) (hlive : t.get key ≠ .nil) : ∃ t', t.insert A key v = some (.ok (), t') := by
  rw [get_flat h (Nat.le_succ _)] at hlive
  rw [insert]
  cases hs : t.arraySlot key with
  | some p =>
    obtain ⟨-, hp⟩ := arraySlot_eq_some.1 hs
    obtain ⟨t', he, -⟩ := writeWindow_flat (v := v) h.window hp
    exact ⟨t', by simp only [he, Option.map_some]⟩
  | none =>
    cases hf : t.flat.slot key with
    | some s =>
      -- An array key that the window does not store has no value.
      refine absurd ?_ hlive
      rw [Flat.get, hf]
      simp only
      rw [flat_arr_getD h.window, slotValue_of_arraySlot_none hs (slotBelow_eq_some.1 hf).1]
    | none =>
      have hhash : t.flat.hashTable.hashGet key ≠ .nil := by
        rw [Flat.get, hf] at hlive
        exact hlive
      have hvalid : key.isValidTableKey = true := by
        by_contra hinvalid
        rw [Bool.not_eq_true] at hinvalid
        rw [Table.hashGet_eq, hinvalid] at hhash
        exact hhash rfl
      obtain ⟨k, hk⟩ := isValidTableKey_iff.1 hvalid
      have hnew : TableKey.new key = .ok (.live key) := by rw [TableKey.new, hk]; rfl
      have happ : key.toNat? ≠ some (t.vlen + 1) := fun happ => by
        have hmax : t.vlen + 1 ≤ 2 ^ 53 := (Nat.succ_le_succ h.vlen_le).trans (by decide)
        refine hlive ?_
        have hcongr := Contents.get_congr (c := t.flat.contents) (eq_of_toNat? happ (toNat?_ofNat hmax))
        rw [← Flat.get_eq h.flat, ← Flat.get_eq h.flat, ← get_flat h (Nat.le_succ _),
          ← get_flat h (Nat.le_succ _), get_append_key h] at hcongr
        rw [← get_flat h (Nat.le_succ _)]
        exact hcongr
      simp only [hnew]
      rw [if_neg fun hh => happ ((isArrayAppendKey_iff h.vlen_le).1 hh), arrayKey_eq]
      have hslot : key.slotBelow t.vlen = none := by rw [← hf, Flat.slot, flat_arr_length]
      have hout : ∀ n, key.toNat? = some n → n = 0 ∨ t.vlen + 1 < n := by
        intro n hn
        by_contra hlt
        obtain ⟨m, rfl⟩ : ∃ m, n = m + 1 := ⟨n - 1, by omega⟩
        have hne : m ≠ t.vlen := fun he => happ (he ▸ hn)
        have := slotBelow_eq_some.2 ⟨hn, (by omega : m < t.vlen)⟩
        rw [hslot] at this
        cases this
      split
      · exact ⟨_, rfl⟩
      · rename_i hv
        obtain ⟨s, dead, version, he, -⟩ := hashInsert_flat h hvalid (isLive_iff.2 hv) hout
        simp only [hslot, Option.map_none, he, Option.map_some]
        exact ⟨_, rfl⟩

/-- An assignment returns. It is refused only where a value is given to a key without one: by the
    allocator, or where the array would pass its limit. -/
theorem insert_cases (h : t.Ok) (hvalid : key.isValidTableKey = true) :
    ∃ r t', t.insert A key v = some (r, t') ∧
      (r = .ok () ∨ r = .error .growthFailed ∧ v ≠ .nil ∧ t.get key = .nil ∧
        (¬A.Total ∨ key.toNat? = some (t.vlen + 1) ∧ ∀ m, t.flat.growth ≠ .ok m)) := by
  have hflat := (ok_iff.1 h).2
  obtain ⟨res, t', he, hw, hr⟩ := @insert_refines t A key v h
  refine ⟨res, t', he, ?_⟩
  cases hres : res with
  | ok u => exact .inl rfl
  | error e =>
    subst hres
    have hv : v ≠ .nil := by
      rintro rfl
      obtain ⟨t'', he'⟩ := insert_nil (A := A) h hvalid
      rw [he] at he'
      cases he'
    have hnil : t.get key = .nil := by
      by_contra hlive
      obtain ⟨t'', he'⟩ := insert_live (A := A) (v := v) h hlive
      rw [he] at he'
      cases he'
    refine .inr ?_
    rcases hr with ⟨hq, -⟩ | ⟨hq, hT, -⟩
    · obtain ⟨-, -, happ, hg⟩ := Flat.insert_refused_append hvalid hq.symm
      rw [flat_arr_length] at happ
      rw [Flat.growth_error hg]
      exact ⟨rfl, hv, hnil, .inr ⟨happ, fun m hm => by rw [hg] at hm; cases hm⟩⟩
    · obtain rfl := Except.error.inj hq
      exact ⟨rfl, hv, hnil, .inl hT⟩

/-- With an allocator that never refuses, a key is assigned if a key after it, within the limit, has no
    value. -/
theorem insert_total (h : t.Ok) (hA : A.Total) {m n : Nat} (hkey : key.toNat? = some m) (hmn : m < n)
    (hn : n ≤ maxArrayLen + 1) (hnil : t.get (Val.ofNat n) = .nil) :
    ∃ t', t.insert A key v = some (.ok (), t') := by
  obtain ⟨r, t', he, hr⟩ := insert_cases (A := A) (v := v) h (isValidTableKey_of_toNat? hkey)
  rcases hr with rfl | ⟨-, -, -, hr⟩
  · exact ⟨t', he⟩
  · rcases hr with hr | ⟨happ, hr⟩
    · exact absurd hA hr
    · obtain rfl := Option.some.inj (hkey.symm.trans happ)
      rw [get_flat h (Nat.le_succ _)] at hnil
      obtain ⟨m, hm⟩ := Flat.growth_ok (f := t.flat) (by rw [flat_arr_length]; exact hmn) hn hnil
      exact absurd hm (hr m)

end Table

end Dellingr
