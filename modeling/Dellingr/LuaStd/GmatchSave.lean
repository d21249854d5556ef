import Dellingr.LuaStd.GmatchMatches
import Dellingr.Vm.SaveState.PointerIds
import Dellingr.Vm.Table.Rebuild

/-!
# Saved iterators

The validation of saved iterators against the iterators themselves.

* `IteratorOk.safe`: a state in order stays so under calls, each on a host of its own, some failing,
  with strings collected and interned between them. None of them fails for a bug of the library;
* `GmatchState.SavedIn.validate`: the state of an iterator that the library made passes the validation,
  whatever ids the strings were given;
* `GmatchState.LoadedFrom.safe`: what the validation passes is in order once it is loaded.

A saved table and the table it is the snapshot of, or is rebuilt to, list the same fields
(`GmatchState.ListedBy`), so that the validation and the iterator read the same values.
-/

namespace Dellingr

open Effect GmatchSchema Patterns

/-! ## Calls -/

section Calls

variable {made emptyPattern : Bool} {s s' : GmatchState} {events : List GmatchEvent}

/-- A state in order stays so under calls, and no call that fails does so for a bug. -/
theorem iteratorOk_of_calls (hcalls : GmatchCalls emptyPattern s events s')
    (h : IteratorOk made emptyPattern s) :
    IteratorOk made emptyPattern s' ∧ ∀ e, .failed e ∈ events → ¬e.IsInternal := by
  induction hcalls with
  | nil s => exact ⟨h, fun e he => absurd he List.not_mem_nil⟩
  | @returned H s s₁ s₂ s' results events hdrift hcall hcalls ih =>
    obtain ⟨hok, hfaults⟩ := ih ((wp_gmatchNext (H := H) (h.drifts hdrift)).ok hcall)
    refine ⟨hok, fun e he => ?_⟩
    rcases List.mem_cons.1 he with he | he
    · cases he
    · exact hfaults e he
  | @failed H s s₁ s₂ s' e events hdrift hcall hcalls ih =>
    have hfail : Fails (fun _ => True) (IteratorOk made emptyPattern) e s₂ :=
      (wp_gmatchNext (H := H) (h.drifts hdrift)).error hcall
    obtain ⟨hok, hfaults⟩ := ih hfail.2.2
    refine ⟨hok, fun e' he => ?_⟩
    rcases List.mem_cons.1 he with he | he
    · cases he
      exact hfail.1
    · exact hfaults e' he

/-- A call on a state in order ends with values or an error that is no bug. -/
theorem IteratorOk.next {H : GmatchHost} (h : IteratorOk made emptyPattern s) :
    (∃ results s', gmatchNext H emptyPattern s = .ok results s') ∨
      ∃ e s', gmatchNext H emptyPattern s = .fail e s' ∧ ¬e.IsInternal := by
  have hcall := wp_gmatchNext (H := H) h
  rw [wp] at hcall
  cases hrun : gmatchNext H emptyPattern s with
  | ok results s' => exact .inl ⟨results, s', rfl⟩
  | fail e s' =>
    rw [hrun] at hcall
    exact .inr ⟨e, s', rfl, hcall.1⟩
  | panic =>
    rw [hrun] at hcall
    exact hcall.elim
  | timeout => exact absurd hrun (settles_gmatchNext s)

theorem IteratorAt.ok {subject pattern : List UInt8} {pos : Nat} {last : Option Nat}
    (h : IteratorAt made subject pattern pos last s) :
    IteratorOk made (decide (pattern = [])) s := by
  rw [IteratorAt] at h
  split at h
  · rename_i hempty
    rw [decide_eq_true hempty]
    exact ⟨subject.length, h.ok⟩
  · rename_i hne
    rw [decide_eq_false hne]
    exact ⟨subject, h.ok⟩

end Calls

/-! ## Payloads and states -/

/-- A saved value stands for a value. Strings and objects may have been given any ids, and
    the bits of a NaN are not kept. -/
inductive SavedVal.Saves (p : SavePayload) (pool : StringPool) : Val → SavedVal → Prop
  | nil : Saves p pool .nil .nil
  | bool (b : Bool) : Saves p pool (.bool b) (.bool b)
  | num {n : F64} {bits : UInt64}
      (h : savedNum bits = n ∨ n.isNan = true ∧ (savedNum bits).isNan = true) :
      Saves p pool (.num n) (.num bits)
  | str {ptr : StringPtr} {id : UInt32} {bytes : List UInt8} (hptr : pool.get ptr = some bytes)
      (hid : p.strings[id.toNat]? = some bytes) : Saves p pool (.str ptr) (.str id)
  | obj (ptr : ObjectPtr) (id : UInt32) : Saves p pool (.obj ptr) (.obj id)
  | envObj (ptr : ObjectPtr) (token : String) : Saves p pool (.obj ptr) (.envObj token)
  | fn (f : RustFnId) (name : String) : Saves p pool (.rustFn f) (.fn name)

/-- A saved entry of a table stands for an entry. -/
def SavesEntry (p : SavePayload) (pool : StringPool) (e : Val × Val) (e' : SavedVal × SavedVal) : Prop :=
  SavedVal.Saves p pool e.1 e'.1 ∧ SavedVal.Saves p pool e.2 e'.2

/-- Saved entries stand for entries that list the fields of the state table. -/
structure GmatchState.ListedBy (s : GmatchState) (p : SavePayload) (tableId : UInt32)
    (listed : List (Val × Val)) (entries : List (SavedVal × SavedVal)) : Prop where
  ok : s.table.Ok
  stored : tableEntries p tableId = some entries
  saves : List.Forall₂ (SavesEntry p s.pool) listed entries
  fields : ∀ k v, k.IsField → ((.live k, v) ∈ s.table.storage.slots ↔ (k, v) ∈ listed)

theorem mem_of_forall₂_left {α β : Type} {R : α → β → Prop} {l : List α} {l' : List β}
    (h : List.Forall₂ R l l') {a : α} (ha : a ∈ l) : ∃ b ∈ l', R a b := by
  induction h with
  | nil => exact absurd ha List.not_mem_nil
  | cons hr _ ih =>
    rcases List.mem_cons.1 ha with rfl | ha
    · exact ⟨_, List.mem_cons_self, hr⟩
    · obtain ⟨b, hb, hab⟩ := ih ha
      exact ⟨b, List.mem_cons_of_mem _ hb, hab⟩

theorem mem_of_forall₂_right {α β : Type} {R : α → β → Prop} {l : List α} {l' : List β}
    (h : List.Forall₂ R l l') {b : β} (hb : b ∈ l') : ∃ a ∈ l, R a b :=
  mem_of_forall₂_left (R := fun b a => R a b) h.flip hb

section Fields

variable {s : GmatchState} {p : SavePayload} {tableId : UInt32} {listed : List (Val × Val)}
  {entries : List (SavedVal × SavedVal)} {f : List UInt8} {sv : SavedVal}

/-- A saved field is the field of the state. -/
theorem GmatchState.ListedBy.field_of_some (h : s.ListedBy p tableId listed entries)
    (hf : tableField p tableId f = some sv) :
    SavedVal.Saves p s.pool (s.field f) sv ∧ ∃ k, (.live k, s.field f) ∈ s.table.storage.slots := by
  rw [tableField, h.stored, Option.bind_some] at hf
  obtain ⟨⟨sk, sv'⟩, hmem, hsome⟩ := List.exists_of_findSome?_eq_some hf
  cases sk with
  | str id =>
    simp only at hsome
    split at hsome
    · rename_i hid
      cases hsome
      obtain ⟨⟨k, v⟩, hlisted, hkey, hval⟩ := mem_of_forall₂_right h.saves hmem
      cases hkey with
      | @str ptr _ bytes hptr hid' =>
        have hbytes : bytes = f := Option.some.inj (hid'.symm.trans hid)
        rw [hbytes] at hptr
        have hslot := (h.fields _ v (Val.isField_str ptr)).2 hlisted
        have hget := Table.get_of_mem_slots h.ok (Val.isField_str ptr) hslot
        rw [field_of_get hptr, hget]
        exact ⟨hval, _, hslot⟩
    · cases hsome
  | _ => cases hsome

/-- A field that is not saved has no value. -/
theorem GmatchState.ListedBy.field_of_none (h : s.ListedBy p tableId listed entries)
    (hf : tableField p tableId f = none) : s.field f = .nil := by
  rw [tableField, h.stored, Option.bind_some, List.findSome?_eq_none_iff] at hf
  by_contra hne
  obtain ⟨ptr, hptr⟩ : ∃ ptr, s.pool.get ptr = some f := by
    cases hfind : s.pool.find f with
    | none =>
      rw [field, hfind] at hne
      exact absurd rfl hne
    | some ptr => exact ⟨ptr, StringPool.find_eq_some.1 hfind⟩
  rw [field_of_get hptr] at hne
  obtain ⟨k, hk, hslot⟩ := Table.slot_of_get h.ok (Val.isField_str ptr) hne
  obtain rfl : k = .str ptr := by cases k <;> simp_all [Val.eq]
  have hlisted := (h.fields _ _ (Val.isField_str ptr)).1 hslot
  obtain ⟨⟨sk, sv⟩, hmem, hkey, -⟩ := mem_of_forall₂_left h.saves hlisted
  cases hkey with
  | @str _ id bytes hptr' hid =>
    have hbytes : bytes = f := Option.some.inj (hptr'.symm.trans hptr)
    rw [hbytes] at hid
    have hnone := hf _ hmem
    simp only [hid, if_true] at hnone
    cases hnone

/-- The saved value of a number that is not NaN has its bits. -/
theorem SavedVal.Saves.bits_eq {pool : StringPool} {n : F64} {bits : UInt64}
    (h : SavedVal.Saves p pool (.num n) (.num bits)) (hn : n.isNan = false) : savedNum bits = n := by
  cases h with
  | num h => exact h.resolve_right fun hnan => by simp [hn] at hnan

/-- The saved value under the key of the flag is that of the state. -/
theorem GmatchState.ListedBy.flagKey_of_some (h : s.ListedBy p tableId listed entries)
    (hf : tableNumericField p tableId COMPILE_CHARGED_SLOT = some sv) :
    SavedVal.Saves p s.pool (s.table.get (.num COMPILE_CHARGED_SLOT)) sv := by
  rw [tableNumericField, h.stored, Option.bind_some] at hf
  obtain ⟨⟨sk, sv'⟩, hmem, hsome⟩ := List.exists_of_findSome?_eq_some hf
  cases sk with
  | num bits =>
    simp only at hsome
    split at hsome
    · rename_i hbits
      cases hsome
      obtain ⟨⟨k, v⟩, hlisted, hkey, hval⟩ := mem_of_forall₂_right h.saves hmem
      have hk : k = .num COMPILE_CHARGED_SLOT := by
        cases hkey with
        | num hn =>
          rw [hbits] at hn
          rw [hn.resolve_right fun hnan => absurd hnan.2 (by decide)]
      have hzero : (Val.num COMPILE_CHARGED_SLOT).IsField := Val.isField_zero
      rw [hk] at hlisted
      rw [Table.get_of_mem_slots h.ok hzero ((h.fields _ v hzero).2 hlisted)]
      exact hval
    · cases hsome
  | _ => cases hsome

/-- The key of the flag is saved if it is listed. -/
theorem GmatchState.ListedBy.flagKey_isSome {v : Val} (h : s.ListedBy p tableId listed entries)
    (hslot : (.live (.num COMPILE_CHARGED_SLOT), v) ∈ s.table.storage.slots) :
    ∃ sv, tableNumericField p tableId COMPILE_CHARGED_SLOT = some sv := by
  have hlisted := (h.fields _ v Val.isField_zero).1 hslot
  obtain ⟨⟨sk, sv⟩, hmem, hkey, -⟩ := mem_of_forall₂_left h.saves hlisted
  rw [tableNumericField, h.stored, Option.bind_some]
  cases hf : entries.findSome? _ with
  | some sv => exact ⟨sv, rfl⟩
  | none =>
    rw [List.findSome?_eq_none_iff] at hf
    have hnone := hf _ hmem
    cases sk with
    | num bits =>
      simp only [SavedVal.Saves.bits_eq hkey (by decide)] at hnone
      cases hnone
    | _ => cases hkey

theorem integerIndex_eq_some {n : F64} {maximum i : Nat} :
    integerIndex n maximum = some i ↔ n.exactNat = some i ∧ i ≤ maximum := by
  rw [integerIndex]
  cases n.exactNat with
  | none => simp
  | some m =>
    by_cases hm : m ≤ maximum
    · simp only [hm, if_true, Option.some.injEq]
      exact ⟨fun h => ⟨h, h ▸ hm⟩, fun h => h.1⟩
    · simp only [hm, if_false, Option.some.injEq, reduceCtorEq, false_iff]
      exact fun h => hm (h.1 ▸ h.2)

theorem GmatchState.ListedBy.isSome_of_ne_nil (h : s.ListedBy p tableId listed entries)
    {f : List UInt8} (hne : s.field f ≠ .nil) : ∃ sv, tableField p tableId f = some sv := by
  cases hf : tableField p tableId f with
  | none => exact absurd (h.field_of_none hf) hne
  | some sv => exact ⟨sv, rfl⟩

/-- The validation reads an index as the iterator does. -/
theorem GmatchState.ListedBy.integerField (h : s.ListedBy p tableId listed entries)
    (maximum i : Nat) (reason : GmatchCorruption) :
    gmatchIntegerField p tableId f maximum reason = .ok i ↔
      (s.field f).IsIndex i ∧ i ≤ maximum := by
  constructor
  · intro hok
    rw [gmatchIntegerField] at hok
    split at hok
    · rename_i bits hf
      split at hok
      · rename_i n hn
        cases hok
        obtain ⟨hexact, hle⟩ := integerIndex_eq_some.1 hn
        refine ⟨?_, hle⟩
        have hnan := F64.not_isNan_of_exactNat hexact
        obtain ⟨hsaves, -⟩ := h.field_of_some hf
        generalize s.field f = v at hsaves
        cases hsaves with
        | @num x _ hx =>
          have hbits := hx.resolve_right fun hx => by simp [hnan] at hx
          exact ⟨x, rfl, hbits ▸ hexact⟩
      · cases hok
    · cases hok
  · rintro ⟨⟨n, hfield, hexact⟩, hle⟩
    obtain ⟨sv, hf⟩ := h.isSome_of_ne_nil (ne_of_eq_of_ne hfield Val.noConfusion)
    obtain ⟨hsaves, -⟩ := h.field_of_some hf
    rw [hfield] at hsaves
    cases sv with
    | num bits =>
      have hbits := hsaves.bits_eq (F64.not_isNan_of_exactNat hexact)
      have hindex := integerIndex_eq_some.2 ⟨hexact, hle⟩
      rw [← hbits] at hindex
      simp only [gmatchIntegerField, hf, hindex]
    | _ => cases hsaves

/-- A saved string is the string of the state. -/
theorem GmatchState.ListedBy.stringField (h : s.ListedBy p tableId listed entries) {id : UInt32}
    (hf : tableField p tableId f = some (.str id)) :
    ∃ ptr bytes, s.field f = .str ptr ∧ s.pool.get ptr = some bytes ∧
      p.strings[id.toNat]? = some bytes := by
  obtain ⟨hsaves, -⟩ := h.field_of_some hf
  generalize s.field f = v at hsaves ⊢
  cases hsaves with
  | str hptr hid => exact ⟨_, _, rfl, hptr, hid⟩

theorem GmatchState.ListedBy.stringField_isSome {ptr : StringPtr} {bytes : List UInt8}
    (h : s.ListedBy p tableId listed entries) (hfield : s.field f = .str ptr)
    (hptr : s.pool.get ptr = some bytes) :
    ∃ id, tableField p tableId f = some (.str id) ∧ p.strings[id.toNat]? = some bytes := by
  obtain ⟨sv, hf⟩ := h.isSome_of_ne_nil (ne_of_eq_of_ne hfield Val.noConfusion)
  obtain ⟨hsaves, -⟩ := h.field_of_some hf
  rw [hfield] at hsaves
  cases hsaves with
  | str hptr' hid =>
    rw [Option.some.inj (hptr.symm.trans hptr')]
    exact ⟨_, hf, hid⟩

end Fields

/-! ## The validation -/

section Validation

variable {s : GmatchState} {p : SavePayload} {tableId : UInt32} {listed : List (Val × Val)}
  {entries : List (SavedVal × SavedVal)} {made emptyPattern : Bool}

theorem GmatchState.ListedBy.validate_lastMatch {len : Nat} (h : s.ListedBy p tableId listed entries)
    (hlive : ∀ k v, (.live k, v) ∈ s.table.storage.slots → v ≠ .nil)
    (hlast : s.field LAST_MATCH_FIELD = .nil ∨
      ∃ i, (s.field LAST_MATCH_FIELD).IsIndex i ∧ i ≤ len) :
    validateGmatchLastMatch p tableId len = .ok () := by
  cases hf : tableField p tableId LAST_MATCH_FIELD with
  | none => simp [validateGmatchLastMatch, hf, pure, Except.pure]
  | some sv =>
    obtain ⟨-, k, hslot⟩ := h.field_of_some hf
    obtain ⟨i, hi⟩ := hlast.resolve_left (hlive k _ hslot)
    have hfield := (h.integerField len i .lastMatchInvalid).2 hi
    simp [validateGmatchLastMatch, hf, hfield, Bind.bind, Except.bind, pure, Except.pure]

theorem GmatchState.ListedBy.lastMatch {len : Nat} {u : Unit} (h : s.ListedBy p tableId listed entries)
    (hv : validateGmatchLastMatch p tableId len = .ok u) :
    s.field LAST_MATCH_FIELD = .nil ∨ ∃ i, (s.field LAST_MATCH_FIELD).IsIndex i ∧ i ≤ len := by
  cases hf : tableField p tableId LAST_MATCH_FIELD with
  | none => exact .inl (h.field_of_none hf)
  | some sv =>
    cases hi : gmatchIntegerField p tableId LAST_MATCH_FIELD len .lastMatchInvalid with
    | error e => simp [validateGmatchLastMatch, hf, hi, Bind.bind, Except.bind] at hv
    | ok i => exact .inr ⟨i, (h.integerField _ _ _).1 hi⟩

theorem GmatchState.ListedBy.validate_compileState (h : s.ListedBy p tableId listed entries)
    (hlive : ∀ k v, (.live k, v) ∈ s.table.storage.slots → v ≠ .nil) (ht : s.table.Tidy)
    (hok : s.table.Ok)
    (hkey : ∃ ptr, s.table.get (.num COMPILE_CHARGED_SLOT) = .str ptr ∧
      s.pool.get ptr = some COMPILE_CHARGED_FIELD)
    (hflag : s.field COMPILE_CHARGED_FIELD = .nil ∨ s.field COMPILE_CHARGED_FIELD = .bool true) :
    validateGmatchCompileState p tableId = .ok () := by
  obtain ⟨ptr, hget, hptr⟩ := hkey
  have hzero : (Val.num COMPILE_CHARGED_SLOT).IsField := Val.isField_zero
  -- The library writes the key as positive zero.
  obtain ⟨k, hk, hslot⟩ := Table.slot_of_get hok hzero (ne_of_eq_of_ne hget Val.noConfusion)
  have hkey : k = .num COMPILE_CHARGED_SLOT := by
    have hstate := ht.keys _ (mem_liveEntries.2 ⟨hslot, Val.isLive_iff.2 (hlive _ _ hslot)⟩)
    cases k with
    | num n => exact congrArg _ hstate
    | str p => cases hk
    | _ => exact hstate.elim
  rw [hkey] at hslot
  obtain ⟨sv, hf⟩ := h.flagKey_isSome hslot
  have hsaves := h.flagKey_of_some hf
  rw [hget] at hsaves
  cases hsaves with
  | @str _ id bytes hptr' hid =>
    rw [← Option.some.inj (hptr.symm.trans hptr')] at hid
    rw [validateGmatchCompileState, hf]
    simp only [hid, ne_eq, not_true_eq_false, if_false]
    cases hcharged : tableField p tableId COMPILE_CHARGED_FIELD with
    | none => rfl
    | some sv =>
      obtain ⟨hsaves, k, hslot⟩ := h.field_of_some hcharged
      rw [hflag.resolve_left (hlive k _ hslot)] at hsaves
      cases hsaves
      rfl

theorem GmatchState.ListedBy.compileState {u : Unit} (h : s.ListedBy p tableId listed entries)
    (hv : validateGmatchCompileState p tableId = .ok u) :
    (∃ ptr, s.table.get (.num COMPILE_CHARGED_SLOT) = .str ptr ∧
      s.pool.get ptr = some COMPILE_CHARGED_FIELD) ∧
    (s.field COMPILE_CHARGED_FIELD = .nil ∨ s.field COMPILE_CHARGED_FIELD = .bool true) := by
  rw [validateGmatchCompileState] at hv
  split at hv
  · rename_i id hf
    have hsaves := h.flagKey_of_some hf
    split at hv
    · cases hv
    · rename_i key hid
      split at hv
      · cases hv
      · rename_i hkey
        refine ⟨?_, ?_⟩
        · generalize s.table.get (.num COMPILE_CHARGED_SLOT) = v at hsaves ⊢
          cases hsaves with
          | str hptr hid' =>
            rw [Option.some.inj (hid'.symm.trans hid), not_not.1 hkey] at hptr
            exact ⟨_, rfl, hptr⟩
        · split at hv
          · rename_i hnone
            exact .inl (h.field_of_none hnone)
          · rename_i htrue
            obtain ⟨hsaves, -⟩ := h.field_of_some htrue
            generalize s.field COMPILE_CHARGED_FIELD = v at hsaves ⊢
            cases hsaves
            exact .inr rfl
          · cases hv
  · cases hv

/-- The fields of a state in order pass the validation, if the saved table has no deleted ones. -/
theorem GmatchState.ListedBy.validate (h : s.ListedBy p tableId listed entries)
    (hlive : ∀ k v, (.live k, v) ∈ s.table.storage.slots → v ≠ .nil) (ht : s.table.Tidy)
    (hok : IteratorOk made emptyPattern s) : validateGmatchState p tableId emptyPattern = .ok () := by
  cases emptyPattern with
  | true =>
    obtain ⟨len, hok⟩ := hok
    obtain ⟨pos, hpos, hle⟩ := hok.pos
    have hlen := hok.length
    have hlenField := (h.integerField MAX_STRING_BYTES len .emptyLengthInvalid).2 hlen
    have hposField := (h.integerField (MAX_STRING_BYTES + 1) pos .emptyPositionInvalid).2
      ⟨hpos, by omega⟩
    rw [validateGmatchState, if_pos rfl, validateEmptyState, hlenField]
    simp only [Bind.bind, Except.bind, hposField, if_neg (Nat.not_lt.2 hle)]
    rfl
  | false =>
    obtain ⟨subject, hok⟩ := hok
    obtain ⟨subjectPtr, hsubject, hsubjectBytes⟩ := hok.stored
    obtain ⟨patternPtr, pattern, hpattern, hpatternBytes⟩ := hok.pattern
    obtain ⟨pos, hpos, hle⟩ := hok.pos
    have hsize := hok.size
    obtain ⟨subjectId, hsubjectField, hsubjectId⟩ := h.stringField_isSome hsubject hsubjectBytes
    obtain ⟨patternId, hpatternField, -⟩ := h.stringField_isSome hpattern hpatternBytes
    have hposField := (h.integerField (MAX_STRING_BYTES + 1) pos .positionInvalid).2
      ⟨hpos, by omega⟩
    have hlast := h.validate_lastMatch hlive hok.last
    have hflag := h.validate_compileState hlive ht hok.rooted.ok hok.flagKey hok.flag
    simp only [validateGmatchState, Bool.false_eq_true, if_false, hsubjectField, hsubjectId,
      hpatternField, hposField, Bind.bind, Except.bind, if_neg (Nat.not_lt.2 hle), hlast, hflag]

/-- What the validation accepts is a state in order, once it is loaded. -/
theorem GmatchState.ListedBy.iteratorOk (h : s.ListedBy p tableId listed entries) (hroot : s.Rooted made)
    (hsize : ∀ bytes ∈ p.strings, bytes.length ≤ MAX_STRING_BYTES)
    (hv : validateGmatchState p tableId emptyPattern = .ok ()) : IteratorOk made emptyPattern s := by
  cases emptyPattern with
  | true =>
    rw [validateGmatchState, if_pos rfl, validateEmptyState] at hv
    cases hlen : gmatchIntegerField p tableId LENGTH_FIELD MAX_STRING_BYTES .emptyLengthInvalid with
    | error e =>
      rw [hlen] at hv
      cases hv
    | ok len =>
      rw [hlen] at hv
      cases hpos : gmatchIntegerField p tableId POSITION_FIELD (MAX_STRING_BYTES + 1)
          .emptyPositionInvalid with
      | error e =>
        simp only [Bind.bind, Except.bind, hpos] at hv
        cases hv
      | ok pos =>
        simp only [Bind.bind, Except.bind, hpos] at hv
        split at hv
        · cases hv
        · rename_i hle
          obtain ⟨hposIndex, -⟩ := (h.integerField _ _ _).1 hpos
          exact ⟨len, hroot, (h.integerField _ _ _).1 hlen, pos, hposIndex, Nat.not_lt.1 hle⟩
  | false =>
    rw [validateGmatchState, if_neg Bool.false_ne_true] at hv
    split at hv
    · rename_i subjectId hsubject
      split at hv
      · cases hv
      · rename_i subject hsubjectId
        split at hv
        · rename_i patternId hpattern
          cases hpos : gmatchIntegerField p tableId POSITION_FIELD (MAX_STRING_BYTES + 1)
              .positionInvalid with
          | error e =>
            simp only [Bind.bind, Except.bind, hpos] at hv
            cases hv
          | ok pos =>
            simp only [Bind.bind, Except.bind, hpos] at hv
            split at hv
            · cases hv
            · rename_i hle
              obtain ⟨hposIndex, -⟩ := (h.integerField _ _ _).1 hpos
              obtain ⟨ptr, bytes, hfield, hptr, hid⟩ := h.stringField hsubject
              rw [Option.some.inj (hid.symm.trans hsubjectId)] at hptr
              obtain ⟨ptr', bytes', hfield', hptr', -⟩ := h.stringField hpattern
              have hbound := hsize subject (List.mem_of_getElem? hsubjectId)
              cases hlast : validateGmatchLastMatch p tableId subject.length with
              | error e =>
                simp only [hlast] at hv
                cases hv
              | ok u =>
                simp only [hlast] at hv
                obtain ⟨hflagKey, hflag⟩ := h.compileState hv
                exact ⟨subject, hroot, hbound, ⟨ptr, hfield, hptr⟩, ⟨ptr', bytes', hfield', hptr'⟩,
                  ⟨pos, hposIndex, Nat.not_lt.1 hle⟩, h.lastMatch hlast, hflagKey, hflag⟩
        · cases hv
    · cases hv

end Validation

/-! ## Saving -/

section Saving

variable {s : GmatchState} {p : SavePayload} {tableId : UInt32}

/-- The state table of an iterator is in a payload, in the form of a snapshot. -/
def GmatchState.SavedIn (s : GmatchState) (p : SavePayload) (tableId : UInt32) : Prop :=
  ∃ arrayLen arraySlots entries metatable,
    p.objects[tableId.toNat]? = some (.table arrayLen arraySlots entries metatable) ∧
    arrayLen.toNat = s.table.snapshotEntries.1 ∧ arraySlots.toNat = s.table.snapshotEntries.2.1 ∧
    List.Forall₂ (SavesEntry p s.pool) s.table.snapshotEntries.2.2 entries

/-- Nothing is deleted in a clean table. -/
theorem Table.live_of_clean {t : Table} (h : t.Ok) (hc : t.Clean) {k v : Val}
    (hm : (.live k, v) ∈ t.storage.slots) : v ≠ .nil ∧ (k, v) ∈ t.flat.contents.hash := by
  rw [slots_of_clean h hc] at hm
  obtain ⟨⟨k', v'⟩, he, heq⟩ := List.mem_map.1 hm
  obtain ⟨hk, rfl⟩ := Prod.mk.inj heq
  obtain rfl := TableKey.live.inj hk
  exact ⟨Val.isLive_iff.1 (mem_liveEntries.1 he).2, he⟩

/-- The snapshot of a clean table lists its fields. -/
theorem Table.mem_snapshot_of_clean {t : Table} (h : t.Ok) (hc : t.Clean) {k v : Val} (hk : k.IsField) :
    (.live k, v) ∈ t.storage.slots ↔ (k, v) ∈ t.snapshotEntries.2.2 := by
  obtain ⟨marker, hmarker, hsnap⟩ := snapshotEntries_of_clean h hc
  rw [hsnap, List.mem_append]
  constructor
  · intro hm
    exact .inr (live_of_clean h hc hm).2
  · rintro (hm | hm)
    · rcases hmarker with rfl | rfl
      · exact absurd hm List.not_mem_nil
      · obtain ⟨rfl, -⟩ := Prod.mk.inj (List.mem_singleton.1 hm)
        exact absurd hk.valid Bool.false_ne_true
    · exact (mem_liveEntries.1 hm).1

/-- The state of an iterator that the library made passes the validation. -/
theorem GmatchState.SavedIn.validate {emptyPattern : Bool} (h : s.SavedIn p tableId)
    (hok : IteratorOk true emptyPattern s) : validateGmatchState p tableId emptyPattern = .ok () := by
  have hroot : s.Rooted true := by
    cases emptyPattern with
    | true =>
      obtain ⟨len, hok⟩ := hok
      exact hok.rooted
    | false =>
      obtain ⟨subject, hok⟩ := hok
      exact hok.rooted
  have ht := hroot.tidy rfl
  obtain ⟨arrayLen, arraySlots, entries, metatable, hobject, -, -, hsaves⟩ := h
  have hlisted : s.ListedBy p tableId s.table.snapshotEntries.2.2 entries :=
    { ok := hroot.ok
      stored := by rw [tableEntries, hobject]
      saves := hsaves
      fields := fun k v hk => Table.mem_snapshot_of_clean hroot.ok ht.clean hk }
  exact hlisted.validate (fun k v hm => (Table.live_of_clean hroot.ok ht.clean hm).1) ht hok

end Saving

/-! ## Loading -/

/-- Add a key to those of a table. -/
def insertRuntimeKey (getString : StringPtr → List UInt8) (keys : List RuntimeTableKey) (value : Val)
    (index : Nat) (reason : CorruptionReason) (location : SaveLocation) :
    Except SnapshotError (List RuntimeTableKey) := do
  let key ← runtimeTableKey getString value index location
  insertUnique keys key reason index location

/-- Decode the entries of a table from an index on. The keys of the hash part differ, apart from
    those of vacant slots. -/
def decodeEntries (ctx : DecodeCtx) (getString : StringPtr → List UInt8) (object hashStart : Nat) :
    Nat → List (SavedVal × SavedVal) → List RuntimeTableKey → Except SnapshotError (List (Val × Val))
  | _, [], _ => .ok []
  | index, (key, value) :: entries, keys => do
    let key ← decodeVal ctx key
    let keys ← (if hashStart ≤ index ∧ key ≠ .nil then
        insertRuntimeKey getString keys key index (.duplicate .tableKey .materialized)
          (.tableEntries object)
      else .ok keys)
    let value ← decodeVal ctx value
    let entries ← decodeEntries ctx getString object hashStart (index + 1) entries keys
    return (key, value) :: entries

/-- Rebuild a saved table, apart from its metatable. -/
def materializeTable (ctx : DecodeCtx) (getString : StringPtr → List UInt8) (object : Nat)
    (arrayLen : UInt64) (arraySlots : UInt32) (entries : List (SavedVal × SavedVal)) :
    Except SnapshotError Table := do
  let entries ← decodeEntries ctx getString object arraySlots.toNat 0 entries []
  match Table.empty.rebuildFromSnapshot arrayLen.toNat arraySlots.toNat entries with
  | (.ok (), table) => .ok table
  | (.error failure, _) => .error (.invalidTable (.object object) failure)

/-- The state table of an iterator was loaded from a payload, with its strings interned. -/
def GmatchState.LoadedFrom (s : GmatchState) (p : SavePayload) (tableId : UInt32) : Prop :=
  ∃ ctx arrayLen arraySlots entries metatable,
    p.objects[tableId.toNat]? = some (.table arrayLen arraySlots entries metatable) ∧
    List.Forall₂ (fun ptr bytes => s.pool.get ptr = some bytes) ctx.strings p.strings ∧
    materializeTable ctx (fun ptr => (s.pool.get ptr).getD []) tableId.toNat arrayLen arraySlots
      entries = .ok s.table

section Loading

variable {s : GmatchState} {p : SavePayload} {pool : StringPool} {tableId : UInt32} {ctx : DecodeCtx}
  {getString : StringPtr → List UInt8} {object hashStart index : Nat}

theorem getElem?_of_forall₂ {α β : Type} {R : α → β → Prop} {l : List α} {l' : List β}
    (h : List.Forall₂ R l l') {i : Nat} {a : α} (ha : l[i]? = some a) : ∃ b, l'[i]? = some b ∧ R a b := by
  induction h generalizing i with
  | nil => simp at ha
  | cons hr _ ih =>
    cases i with
    | zero =>
      cases ha
      exact ⟨_, rfl, hr⟩
    | succ i => exact ih ha

/-- A decoded value is what was saved. -/
theorem saves_of_decodeVal {v : Val} {sv : SavedVal}
    (hstrings : List.Forall₂ (fun ptr bytes => pool.get ptr = some bytes) ctx.strings p.strings)
    (h : decodeVal ctx sv = .ok v) : SavedVal.Saves p pool v sv := by
  cases sv with
  | nil =>
    cases h
    exact .nil
  | bool b =>
    cases h
    exact .bool b
  | num bits =>
    cases h
    exact .num (.inl rfl)
  | str id =>
    rw [decodeVal] at h
    split at h
    · rename_i ptr hptr
      cases h
      obtain ⟨bytes, hid, hbytes⟩ := getElem?_of_forall₂ hstrings hptr
      exact .str hbytes hid
    · cases h
  | obj id =>
    rw [decodeVal] at h
    split at h
    · cases h
      exact .obj _ _
    · cases h
  | fn name =>
    rw [decodeVal] at h
    split at h
    · cases h
      exact .fn _ _
    · cases h
  | envObj token =>
    rw [decodeVal] at h
    split at h
    · cases h
      exact .envObj _ _
    · cases h

/-- Equal values have one runtime key. -/
theorem runtimeTableKey_congr {a b : Val} {ka kb : RuntimeTableKey} {i j : Nat}
    {l l' : SaveLocation}
    (ha : runtimeTableKey getString a i l = .ok ka) (hb : runtimeTableKey getString b j l' = .ok kb)
    (he : a.eq b = true) : ka = kb := by
  cases a with
  | num x =>
    cases b with
    | num y =>
      have hx : x.isNan = false := by
        cases hn : x.isNan with
        | false => rfl
        | true => simp [runtimeTableKey, normalizeTableKey, hn, corrupt] at ha
      have hy : y.isNan = false := by
        cases hn : y.isNan with
        | false => rfl
        | true => simp [runtimeTableKey, normalizeTableKey, hn, corrupt] at hb
      have hkey := (Val.eq_iff_tableKey (by simp [Val.isValidTableKey, hx])
        (by simp [Val.isValidTableKey, hy])).1 he
      simp only [Val.tableKey, normalizeTableKey, hx, hy, Bool.false_eq_true, if_false,
        Except.ok.injEq, NormalizedTableKey.number.injEq] at hkey
      simp only [runtimeTableKey, normalizeTableKey, hx, hy, Bool.false_eq_true, if_false,
        Except.ok.injEq] at ha hb
      rw [← ha, ← hb, hkey]
    | _ => cases he
  | nil => cases ha
  | bool x =>
    cases b with
    | bool y =>
      obtain rfl : x = y := eq_of_beq he
      cases ha
      cases hb
      rfl
    | _ => cases he
  | str x =>
    cases b with
    | str y =>
      obtain rfl : x = y := eq_of_beq he
      cases ha
      cases hb
      rfl
    | _ => cases he
  | obj x =>
    cases b with
    | obj y =>
      obtain rfl : x = y := eq_of_beq he
      cases ha
      cases hb
      rfl
    | _ => cases he
  | rustFn x =>
    cases b with
    | rustFn y =>
      obtain rfl : x = y := eq_of_beq he
      cases ha
      cases hb
      rfl
    | _ => cases he

/-- Decoded entries are what was saved, and the keys of the hash part differ from each other and
    from those decoded before. -/
theorem decodeEntries_spec {entries : List (SavedVal × SavedVal)} {keys : List RuntimeTableKey}
    {decoded : List (Val × Val)}
    (hstrings : List.Forall₂ (fun ptr bytes => pool.get ptr = some bytes) ctx.strings p.strings)
    (h : decodeEntries ctx getString object hashStart index entries keys = .ok decoded) :
    List.Forall₂ (SavesEntry p pool) decoded entries ∧
      Table.KeysDiffer (decoded.drop (hashStart - index)) ∧
      ∀ e ∈ decoded.drop (hashStart - index), e.1 ≠ .nil →
        ∃ key i l, runtimeTableKey getString e.1 i l = .ok key ∧ key ∉ keys := by
  induction entries generalizing index keys decoded with
  | nil =>
    cases h
    exact ⟨.nil, by simp [Table.KeysDiffer], by simp⟩
  | cons e entries ih =>
    obtain ⟨key, value⟩ := e
    rw [decodeEntries] at h
    obtain ⟨k, hk, h⟩ := except_bind_eq_ok.1 h
    obtain ⟨keys', hkeys, h⟩ := except_bind_eq_ok.1 h
    obtain ⟨v, hv, h⟩ := except_bind_eq_ok.1 h
    obtain ⟨rest, hrest, h⟩ := except_bind_eq_ok.1 h
    cases h
    obtain ⟨hsaves, hdiffer, hnew⟩ := ih hrest
    refine ⟨.cons ⟨saves_of_decodeVal hstrings hk, saves_of_decodeVal hstrings hv⟩ hsaves, ?_⟩
    by_cases hle : hashStart ≤ index
    · rw [Nat.sub_eq_zero_of_le (Nat.le_succ_of_le hle), List.drop_zero] at hdiffer hnew
      rw [Nat.sub_eq_zero_of_le hle, List.drop_zero]
      by_cases hnil : k = .nil
      · rw [if_neg fun hcond => hcond.2 hnil] at hkeys
        cases hkeys
        refine ⟨List.pairwise_cons.2 ⟨fun e _ hne => absurd hnil hne, hdiffer⟩, fun e he hne => ?_⟩
        rcases List.mem_cons.1 he with rfl | he
        · exact absurd hnil hne
        · exact hnew e he hne
      · rw [if_pos ⟨hle, hnil⟩] at hkeys
        obtain ⟨runtimeKey, hruntime, hinsert⟩ := except_bind_eq_ok.1 hkeys
        obtain ⟨hfresh, rfl⟩ := insertUnique_eq_ok hinsert
        refine ⟨List.pairwise_cons.2 ⟨fun e he _ => ?_, hdiffer⟩, fun e he hne => ?_⟩
        · by_contra heq
          have heq : k.eq e.1 = true := by simpa using heq
          have hne : e.1 ≠ .nil := by
            intro h
            rw [h] at heq
            exact hnil (Val.eq_nil heq)
          obtain ⟨key', i, l, hkey', hnot⟩ := hnew e he hne
          exact hnot (runtimeTableKey_congr hruntime hkey' heq ▸ List.mem_cons_self)
        · rcases List.mem_cons.1 he with rfl | he
          · exact ⟨runtimeKey, _, _, hruntime, hfresh⟩
          · obtain ⟨key', i, l, hkey', hnot⟩ := hnew e he hne
            exact ⟨key', i, l, hkey', fun hm => hnot (List.mem_cons_of_mem _ hm)⟩
    · rw [if_neg fun hcond => hle hcond.1] at hkeys
      cases hkeys
      obtain ⟨n, hn⟩ : ∃ n, hashStart - index = n + 1 := ⟨hashStart - index - 1, by omega⟩
      have hn' : hashStart - (index + 1) = n := by omega
      rw [hn'] at hdiffer hnew
      rw [hn, List.drop_succ_cons]
      exact ⟨hdiffer, hnew⟩

/-- A loaded state lists what was saved, and its strings are in use. -/
theorem GmatchState.LoadedFrom.listedBy (h : s.LoadedFrom p tableId) :
    s.Rooted false ∧ ∃ listed entries, s.ListedBy p tableId listed entries := by
  obtain ⟨ctx, arrayLen, arraySlots, entries, metatable, hobject, hstrings, hmaterialize⟩ := h
  obtain ⟨listed, hdecode, hrebuild⟩ := except_bind_eq_ok.1 hmaterialize
  obtain ⟨hsaves, hdiffer, -⟩ := decodeEntries_spec hstrings hdecode
  cases hr : Table.empty.rebuildFromSnapshot arrayLen.toNat arraySlots.toNat listed with
  | mk result t =>
    rw [hr] at hrebuild
    cases result with
    | error e => cases hrebuild
    | ok u =>
      cases hrebuild
      obtain ⟨hok, hplain, hfields, hvalues⟩ := Table.rebuilt_spec hdiffer hr
      have hstring : ∀ {q : StringPtr} {sv : SavedVal}, SavedVal.Saves p s.pool (.str q) sv →
          s.pool.get q ≠ none := by
        intro q sv hsaved
        cases hsaved with
        | str hptr _ =>
          rw [hptr]
          exact Option.some_ne_none _
      have hlisted : s.ListedBy p tableId listed entries :=
        { ok := hok
          stored := by rw [tableEntries, hobject]
          saves := hsaves
          fields := hfields }
      refine ⟨⟨hok, hplain, fun hmade => absurd hmade Bool.false_ne_true, fun q hq => ?_,
        fun k q hq => ?_⟩, listed, entries, hlisted⟩
      · obtain ⟨k, hk, hslot⟩ := Table.slot_of_get hok (Val.isField_str q) hq
        obtain rfl : k = .str q := by cases k <;> simp_all [Val.eq]
        have hm := (hfields _ _ (Val.isField_str q)).1 hslot
        obtain ⟨_, -, hkey, -⟩ := mem_of_forall₂_left hsaves hm
        exact hstring hkey
      · obtain ⟨k', hm⟩ := hvalues k (ne_of_eq_of_ne hq Val.noConfusion)
        obtain ⟨_, -, -, hval⟩ := mem_of_forall₂_left hsaves hm
        exact hstring (hq ▸ hval)

end Loading

/-! ## Iterators of a payload -/

/-- A state that `string.gmatch` and calls of the iterator it made lead to. -/
def GmatchState.Reached (emptyPattern : Bool) (s : GmatchState) : Prop :=
  ∃ (H : GmatchHost) (subject pattern : List UInt8) (a b : StringArg) (init : Option Int)
    (u v w : GmatchState) (events : List GmatchEvent), a.Holds u subject ∧ b.Holds u pattern ∧
    subject.length ≤ MAX_STRING_BYTES ∧ gmatch H a b init u = .ok emptyPattern v ∧
    GmatchCalls emptyPattern v events w ∧ w.Drifts s

/-- Whatever calls are made from a state, none of them fails for a bug of the library, and the
    next one ends, with values or with an error that is no bug either. -/
def GmatchState.Safe (emptyPattern : Bool) (s : GmatchState) : Prop :=
  ∀ events w, GmatchCalls emptyPattern s events w → (∀ e, .failed e ∈ events → ¬e.IsInternal) ∧
    ∀ (H : GmatchHost) (w' : GmatchState), w.Drifts w' →
      (∃ results w'', gmatchNext H emptyPattern w' = .ok results w'') ∨
        ∃ e w'', gmatchNext H emptyPattern w' = .fail e w'' ∧ ¬e.IsInternal

/-- The closure of an iterator captures the function and the state table. -/
def SavedIterator (p : SavePayload) (upvalues : List UInt32) : Prop :=
  ∃ i j emptyPattern tableId s, upvalues = [i, j] ∧
    p.upvalues[i.toNat]? = some (.fn (if emptyPattern then EMPTY_ITERATOR_ID else ITERATOR_ID)) ∧
    p.upvalues[j.toNat]? = some (.obj tableId) ∧ GmatchState.Reached emptyPattern s ∧
    s.SavedIn p tableId

/-- Other closures do not capture the function of an iterator. -/
def SavedOther (p : SavePayload) (upvalues : List UInt32) : Prop :=
  ∀ id ∈ upvalues, ∃ sv, p.upvalues[id.toNat]? = some sv ∧ sv ≠ .fn ITERATOR_ID ∧
    sv ≠ .fn EMPTY_ITERATOR_ID

section Iterators

variable {emptyPattern made : Bool} {s : GmatchState} {p : SavePayload} {tableId : UInt32}
  {index : Nat} {upvalues : List UInt32} {objects : List SavedObject} {validated : List (UInt32 × Bool)}

theorem GmatchState.Reached.iteratorOk (h : s.Reached emptyPattern) : IteratorOk true emptyPattern s := by
  obtain ⟨H, subject, pattern, a, b, init, u, v, w, events, ha, hb, hsize, hmade, hcalls, hdrift⟩ := h
  have hstart := @wp_gmatch H u (fun _ => True) subject pattern a b ha hb hsize init
  rw [wp, hmade] at hstart
  obtain ⟨rfl, hat⟩ := hstart
  exact (iteratorOk_of_calls hcalls hat.ok).1.drifts hdrift

theorem IteratorOk.safe (h : IteratorOk made emptyPattern s) : s.Safe emptyPattern := by
  intro events w hcalls
  obtain ⟨hok, hfaults⟩ := iteratorOk_of_calls hcalls h
  exact ⟨hfaults, fun H w' hdrift => (hok.drifts hdrift).next⟩

/-- What the validation accepts is safe to call, once it is loaded. -/
theorem GmatchState.LoadedFrom.safe (h : s.LoadedFrom p tableId)
    (hsize : ∀ bytes ∈ p.strings, bytes.length ≤ MAX_STRING_BYTES)
    (hv : validateGmatchState p tableId emptyPattern = .ok ()) : s.Safe emptyPattern := by
  obtain ⟨hroot, listed, entries, hlisted⟩ := h.listedBy
  exact (hlisted.iteratorOk hroot hsize hv).safe

theorem iteratorParts_of_other (h : SavedOther p upvalues) (parts : IteratorParts) :
    ∃ parts', iteratorParts p index upvalues parts = .ok parts' ∧ parts'.kind = parts.kind := by
  induction upvalues generalizing parts with
  | nil => exact ⟨parts, rfl, rfl⟩
  | cons id upvalues ih =>
    obtain ⟨sv, hsv, hne, hne'⟩ := h id List.mem_cons_self
    have hrest : SavedOther p upvalues := fun id hid => h id (List.mem_cons_of_mem _ hid)
    rw [iteratorParts]
    cases sv with
    | fn name =>
      have hname : ¬(name = ITERATOR_ID ∨ name = EMPTY_ITERATOR_ID) := by
        rintro (rfl | rfl)
        · exact hne rfl
        · exact hne' rfl
      simp only [hsv, if_neg hname]
      exact ih hrest parts
    | obj id =>
      simp only [hsv]
      exact ih hrest _
    | _ =>
      simp only [hsv]
      exact ih hrest parts

/-- A payload in which the iterators were saved from states they reach passes the validation. -/
theorem validateIterators_of_saved
    (h : ∀ chunk upvalues, .closure chunk upvalues ∈ objects →
      SavedOther p upvalues ∨ SavedIterator p upvalues) :
    validateIterators p index objects validated = .ok () := by
  induction objects generalizing index validated with
  | nil => rfl
  | cons object objects ih =>
    have hrest : ∀ chunk upvalues, .closure chunk upvalues ∈ objects →
        SavedOther p upvalues ∨ SavedIterator p upvalues :=
      fun chunk upvalues hm => h chunk upvalues (List.mem_cons_of_mem _ hm)
    cases object with
    | table arrayLen arraySlots entries metatable =>
      rw [validateIterators]
      exact ih hrest
    | closure chunk upvalues =>
      rw [validateIterators]
      rcases h chunk upvalues List.mem_cons_self with hother | hiterator
      · obtain ⟨parts, hparts, hkind⟩ := iteratorParts_of_other hother {}
        rw [hparts]
        simp only [Bind.bind, Except.bind, hkind]
        exact ih hrest
      · obtain ⟨i, j, emptyPattern, tableId, s, rfl, hi, hj, hreached, hsaved⟩ := hiterator
        have hparts : iteratorParts p index [i, j] {} =
            .ok ⟨some emptyPattern, some tableId, false⟩ := by
          cases emptyPattern with
          | true => simp [iteratorParts, hi, hj]
          | false =>
            have hid : ITERATOR_ID ≠ EMPTY_ITERATOR_ID := by decide
            simp [iteratorParts, hi, hj, hid]
        have hvalid := hsaved.validate hreached.iteratorOk
        obtain ⟨arrayLen, arraySlots, entries, metatable, hobject, -⟩ := hsaved
        have hentries : (tableEntries p tableId).isNone = false := by rw [tableEntries, hobject]; rfl
        rw [hparts]
        simp only [Bind.bind, Except.bind, hentries, hvalid, Bool.false_eq_true, if_false]
        split
        · exact ih hrest
        · exact ih hrest

/-- Every iterator of a payload that passes the validation has a state that does. -/
theorem validateIterators_sound (hv : validateIterators p index objects validated = .ok ())
    (hvalidated : ∀ state ∈ validated, validateGmatchState p state.1 state.2 = .ok ()) :
    ∀ chunk upvalues, .closure chunk upvalues ∈ objects → ∃ index parts,
      iteratorParts p index upvalues {} = .ok parts ∧ ∀ emptyPattern, parts.kind = some emptyPattern →
        ∃ tableId, parts.stateTable = some tableId ∧
          validateGmatchState p tableId emptyPattern = .ok () := by
  induction objects generalizing index validated with
  | nil => exact fun _ _ hm => absurd hm List.not_mem_nil
  | cons object objects ih =>
    intro chunk upvalues hm
    cases object with
    | table arrayLen arraySlots entries metatable =>
      rw [validateIterators] at hv
      rcases List.mem_cons.1 hm with hm | hm
      · cases hm
      · exact ih hv hvalidated chunk upvalues hm
    | closure chunk' upvalues' =>
      rw [validateIterators] at hv
      obtain ⟨parts, hparts, hv⟩ := except_bind_eq_ok.1 hv
      cases hkind : parts.kind with
      | none =>
        rw [hkind] at hv
        rcases List.mem_cons.1 hm with hm | hm
        · cases hm
          refine ⟨index, parts, hparts, fun emptyPattern hsome => ?_⟩
          rw [hkind] at hsome
          cases hsome
        · exact ih hv hvalidated chunk upvalues hm
      | some kind =>
        simp only [hkind] at hv
        split at hv
        · cases hv
        · cases hstate : parts.stateTable with
          | none =>
            simp only [hstate] at hv
            cases hv
          | some tableId =>
            simp only [hstate] at hv
            split at hv
            · cases hv
            · have hvalid : validateGmatchState p tableId kind = .ok () ∧
                  validateIterators p (index + 1) objects ((tableId, kind) :: validated) = .ok () := by
                split at hv
                · obtain ⟨_, hvalid, hv⟩ := except_bind_eq_ok.1 hv
                  exact ⟨hvalid, hv⟩
                · rename_i hmem
                  exact ⟨hvalidated _ (not_not.1 hmem), hv⟩
              obtain ⟨hvalid, hv⟩ := hvalid
              rcases List.mem_cons.1 hm with hm | hm
              · cases hm
                refine ⟨index, parts, hparts, fun emptyPattern hsome => ⟨tableId, hstate, ?_⟩⟩
                obtain rfl : kind = emptyPattern := Option.some.inj (hkind.symm.trans hsome)
                exact hvalid
              · exact ih hv (List.forall_mem_cons.2 ⟨hvalid, hvalidated⟩) chunk upvalues hm

end Iterators

/-- The validation of iterators is exact: it passes every state that `string.gmatch` and calls of
    the iterator lead to, however it was saved, and no payload with such iterators only is refused;
    and a state that it passes is safe to call any number of times once it is loaded. -/
theorem gmatch_validation_exact :
    (∀ (emptyPattern : Bool) (s : GmatchState) (p : SavePayload) (tableId : UInt32),
      s.Reached emptyPattern → s.SavedIn p tableId →
        validateGmatchState p tableId emptyPattern = .ok ()) ∧
    (∀ p : SavePayload, (∀ chunk upvalues, .closure chunk upvalues ∈ p.objects →
        SavedOther p upvalues ∨ SavedIterator p upvalues) → validateGmatchIterators p = .ok ()) ∧
    (∀ (emptyPattern : Bool) (s : GmatchState) (p : SavePayload) (tableId : UInt32),
      (∀ bytes ∈ p.strings, bytes.length ≤ SnapshotField.luaString.limit) →
        validateGmatchState p tableId emptyPattern = .ok () → s.LoadedFrom p tableId →
        s.Safe emptyPattern) ∧
    ∀ p : SavePayload, validateGmatchIterators p = .ok () →
      ∀ chunk upvalues, .closure chunk upvalues ∈ p.objects → ∃ index parts,
        iteratorParts p index upvalues {} = .ok parts ∧
          ∀ emptyPattern, parts.kind = some emptyPattern → ∃ tableId,
            parts.stateTable = some tableId ∧ validateGmatchState p tableId emptyPattern = .ok () := by
  refine ⟨fun emptyPattern s p tableId hreached hsaved => hsaved.validate hreached.iteratorOk,
    fun p h => validateIterators_of_saved h,
    fun emptyPattern s p tableId hsize hv hloaded => hloaded.safe hsize hv, fun p hv => ?_⟩
  exact validateIterators_sound hv fun _ hm => absurd hm List.not_mem_nil

/-- The iterator over the empty pattern and the empty subject, saved before its first call. -/
def iteratorPayload : SavePayload :=
  { emptyPayload with
    strings := [POSITION_FIELD, LENGTH_FIELD]
    upvalues := [.fn EMPTY_ITERATOR_ID, .obj 0]
    objects := [.table 0 0 [(.str 0, .num 0), (.str 1, .num 0)] none, .closure 0 [0, 1]] }

/-- What a computation gives, and what it leaves. -/
theorem exists_state_of_ok {σ ε α β : Type} {m : Effect σ ε α} {s : σ} {a : α} {b : β} (f : σ → β)
    (h : ∃ w, (m >>= fun a => Effect.get >>= fun s => pure (a, f s)) s = .ok (a, b) w) :
    ∃ v, m s = .ok a v ∧ f v = b := by
  obtain ⟨w, h⟩ := h
  have hbind : (m >>= fun a => Effect.get >>= fun s => pure (a, f s)) s =
      Effect.bind m (fun a => Effect.get >>= fun s => pure (a, f s)) s := rfl
  rw [hbind, Effect.bind] at h
  cases hm : m s with
  | ok =>
    rw [hm] at h
    cases h
    exact ⟨_, rfl, rfl⟩
  | _ =>
    rw [hm] at h
    cases h

theorem gmatch_validation_exact_empty :
    (∃ s : GmatchState, s.Reached true ∧ s.SavedIn iteratorPayload 0) ∧
      validateGmatchState iteratorPayload 0 true = .ok () ∧
      validateGmatchIterators iteratorPayload = .ok () ∧
      ∃ s : GmatchState, s.LoadedFrom iteratorPayload 0 ∧ s.Safe true := by
  let H : GmatchHost := ⟨fun _ => false, fun _ => false, .exact⟩
  let u : GmatchState := ⟨.empty, .empty, ⟨.off, .zero, none, 0⟩, 0, 0⟩
  let form (s : GmatchState) := (s.table.snapshotEntries, s.pool.strings)
  have hrun : ∃ w, (gmatch H (.rendered []) (.rendered []) none >>= fun made =>
      Effect.get >>= fun s => pure (made, form s)) u =
        .ok (true, (0, 0, [(.str ⟨0, 0⟩, .num (F64.ofNat 0)), (.str ⟨1, 0⟩, .num (F64.ofNat 0))]),
          [(⟨0, 0⟩, POSITION_FIELD), (⟨1, 0⟩, LENGTH_FIELD)]) w :=
    exists_ok_of_check (fun r => decide (r = _)) (fun _ => of_decide_eq_true) (by decide +kernel)
  obtain ⟨v, hmade, hv⟩ := exists_state_of_ok form hrun
  obtain ⟨hsnap, hstrings⟩ := Prod.mk.inj hv
  have hpos : v.pool.get ⟨0, 0⟩ = some POSITION_FIELD := by
    rw [StringPool.get, hstrings]
    rfl
  have hlen : v.pool.get ⟨1, 0⟩ = some LENGTH_FIELD := by
    rw [StringPool.get, hstrings]
    rfl
  have hzero : SavedVal.Saves iteratorPayload v.pool (.num (F64.ofNat 0)) (.num 0) :=
    .num (.inl (by decide))
  have hreached : v.Reached true :=
    ⟨H, [], [], .rendered [], .rendered [], none, u, v, v, [], rfl, rfl, Nat.zero_le _, hmade,
      .nil v, (GmatchState.Extends.refl v).drifts⟩
  have hsaved : v.SavedIn iteratorPayload 0 := by
    refine ⟨0, 0, _, none, rfl, ?_, ?_, ?_⟩
    · rw [hsnap]
      rfl
    · rw [hsnap]
      rfl
    · rw [hsnap]
      exact .cons ⟨.str hpos rfl, hzero⟩ (.cons ⟨.str hlen rfl, hzero⟩ .nil)
  obtain ⟨hstate, hiterators, hsafe, -⟩ := gmatch_validation_exact
  have hvalid := hstate true v iteratorPayload 0 hreached hsaved
  refine ⟨⟨v, hreached, hsaved⟩, hvalid, hiterators iteratorPayload fun chunk upvalues hm => ?_, ?_⟩
  · have hclosure : upvalues = [0, 1] := by
      rcases List.mem_cons.1 hm with hm | hm
      · cases hm
      · cases List.mem_singleton.1 hm
        rfl
    exact .inr ⟨0, 1, true, 0, v, hclosure, rfl, rfl, hreached, hsaved⟩
  · let ctx : DecodeCtx := ⟨[⟨0, 0⟩, ⟨1, 0⟩], [], fun _ => none, fun _ => none⟩
    let pool := ((StringPool.empty.alloc POSITION_FIELD).2.alloc LENGTH_FIELD).2
    have hget₀ : pool.get ⟨0, 0⟩ = some POSITION_FIELD := by decide +kernel
    have hget₁ : pool.get ⟨1, 0⟩ = some LENGTH_FIELD := by decide +kernel
    have htable : (materializeTable ctx (fun ptr => (pool.get ptr).getD []) 0 0 0
        [(.str 0, .num 0), (.str 1, .num 0)]).isOk = true := by decide +kernel
    cases ht : materializeTable ctx (fun ptr => (pool.get ptr).getD []) 0 0 0
        [(.str 0, .num 0), (.str 1, .num 0)] with
    | error e =>
      rw [ht] at htable
      cases htable
    | ok t =>
      let s : GmatchState := ⟨pool, t, ⟨.off, .zero, none, 0⟩, 0, 0⟩
      have hloaded : s.LoadedFrom iteratorPayload 0 :=
        ⟨ctx, 0, 0, _, none, rfl, .cons hget₀ (.cons hget₁ .nil), ht⟩
      refine ⟨_, hloaded, hsafe true _ iteratorPayload 0 ?_ hvalid hloaded⟩
      decide +kernel

end Dellingr
