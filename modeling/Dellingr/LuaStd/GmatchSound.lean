import Dellingr.LuaStd.Gmatch
import Dellingr.Patterns.ReferenceLoop
import Dellingr.Vm.Table.Field
import Mathlib.Data.List.Forall2

/-!
# Iterators keep their states

What the state of an iterator must be for its calls to succeed (`GeneralOk`,
`EmptyOk`), and that each call leaves it so, whether it succeeds or fails
(`wp_gmatchNext`). A call never raises an internal fault and never panics: in
particular no index is outside the subject.

Strings may be collected and interned between calls, as long as those of the state
table stay (`Drifts`).
-/

namespace Dellingr

open Effect GmatchSchema Patterns

/-- A key of the state tables the library makes. -/
def Val.IsStateKey : Val → Prop
  | .str _ => True
  | .num n => n = COMPILE_CHARGED_SLOT
  | _ => False

/-- A table as the library makes and keeps it. -/
structure Table.Tidy (t : Table) : Prop where
  clean : t.Clean
  keys : ∀ e ∈ t.flat.contents.hash, e.1.IsStateKey

theorem Table.tidy_empty : Table.empty.Tidy := ⟨clean_empty, fun _ h => nomatch h⟩

theorem Table.Tidy.assigns {t t' : Table} {key v : Val} (h : t.Tidy) (ha : t.Assigns key v t')
    (hk : key.IsStateKey) : t'.Tidy := by
  refine ⟨ha.clean h.clean, fun e he => ?_⟩
  rw [ha.contents] at he
  rcases AssocList.key_of_mem_assign he with heq | ⟨e', he', heq⟩
  · rw [heq]
    exact hk
  · rw [← heq]
    exact h.keys e' he'

namespace GmatchState

variable {made : Bool} {s s' : GmatchState} {f g : List UInt8} {p q : StringPtr} {v : Val}

/-- The value of a field of the state table. -/
def field (s : GmatchState) (f : List UInt8) : Val :=
  match s.pool.find f with
  | some p => s.table.get (.str p)
  | none => .nil

/-- The state table is in order, and its strings are in use. One that the library made
    is tidy; one that was loaded may hold more. -/
structure Rooted (made : Bool) (s : GmatchState) : Prop where
  ok : s.table.Ok
  plain : s.table.Plain
  tidy : made = true → s.table.Tidy
  keys : ∀ q, s.table.get (.str q) ≠ .nil → s.pool.get q ≠ none
  values : ∀ k q, s.table.get k = .str q → s.pool.get q ≠ none

/-- The same state table, with all strings it had and perhaps more. -/
structure Extends (s s' : GmatchState) : Prop where
  table : s'.table = s.table
  pool : ∀ q b, s.pool.get q = some b → s'.pool.get q = some b

theorem Extends.refl (s : GmatchState) : s.Extends s := ⟨rfl, fun _ _ h => h⟩

theorem Extends.trans {s'' : GmatchState} (h : s.Extends s') (h' : s'.Extends s'') :
    s.Extends s'' := ⟨h'.table.trans h.table, fun q b hb => h'.pool q b (h.pool q b hb)⟩

/-- Between calls strings come and go, but those the state table holds stay. -/
structure Drifts (s s' : GmatchState) : Prop where
  table : s'.table = s.table
  keys : ∀ q b, s.table.get (.str q) ≠ .nil → s.pool.get q = some b → s'.pool.get q = some b
  values : ∀ k q b, s.table.get k = .str q → s.pool.get q = some b → s'.pool.get q = some b

theorem Extends.drifts (h : s.Extends s') : s.Drifts s' :=
  ⟨h.table, fun q b _ => h.pool q b, fun _ q b _ => h.pool q b⟩

theorem Rooted.drifts (h : s.Rooted made) (hd : s.Drifts s') : s'.Rooted made where
  ok := hd.table ▸ h.ok
  plain := hd.table ▸ h.plain
  tidy := hd.table ▸ h.tidy
  keys q hq := by
    rw [hd.table] at hq
    obtain ⟨b, hb⟩ := Option.ne_none_iff_exists'.1 (h.keys q hq)
    rw [hd.keys q b hq hb]
    exact Option.some_ne_none b
  values k q hq := by
    rw [hd.table] at hq
    obtain ⟨b, hb⟩ := Option.ne_none_iff_exists'.1 (h.values k q hq)
    rw [hd.values k q b hq hb]
    exact Option.some_ne_none b

/-- A field is read through the handle of its name. -/
theorem field_of_get (hp : s.pool.get p = some f) : s.field f = s.table.get (.str p) := by
  rw [field, StringPool.find_eq_some.2 hp]

/-- Fields keep their values between calls. -/
theorem Rooted.field_drifts (h : s.Rooted made) (hd : s.Drifts s') (f : List UInt8) :
    s'.field f = s.field f := by
  by_cases hnil : s.field f = .nil
  · -- A field without a value has none, under whatever handle its name has now.
    rw [hnil, field]
    cases hf : s'.pool.find f with
    | none => rfl
    | some p =>
      have hp' := StringPool.find_eq_some.1 hf
      rw [hd.table]
      by_contra hne
      obtain ⟨b, hb⟩ := Option.ne_none_iff_exists'.1 (h.keys p hne)
      have hbf : b = f := Option.some.inj ((hd.keys p b hne hb).symm.trans hp')
      rw [hbf] at hb
      rw [field_of_get hb] at hnil
      exact hne hnil
  · have hfind : ∃ p, s.pool.get p = some f := by
      cases hf : s.pool.find f with
      | none => simp [field, hf] at hnil
      | some p => exact ⟨p, StringPool.find_eq_some.1 hf⟩
    obtain ⟨p, hp⟩ := hfind
    rw [field_of_get hp] at hnil ⊢
    rw [field_of_get (hd.keys p f hnil hp), hd.table]

/-! ## Writes -/

/-- A field of the state table was written. -/
structure Writes (s : GmatchState) (f : List UInt8) (v : Val) (s' : GmatchState) : Prop where
  key : ∃ p, s.pool.get p = some f ∧ s.table.Assigns (.str p) v s'.table
  pool : s'.pool = s.pool

theorem Writes.rooted (hw : s.Writes f v s') (h : s.Rooted made)
    (hv : ∀ q, v = .str q → s.pool.get q ≠ none) : s'.Rooted made := by
  obtain ⟨⟨p, hp, ha⟩, hpool⟩ := hw
  have hget : ∀ k, s'.table.get k = v ∨ s'.table.get k = s.table.get k := by
    intro k
    cases hk : (Val.str p).eq k with
    | true =>
      obtain rfl : k = .str p := by cases k <;> simp_all [Val.eq]
      exact .inl (ha.get_key (Val.isField_str p))
    | false => exact .inr (ha.get_other k hk)
  refine ⟨ha.ok, ha.plain, fun hm => (h.tidy hm).assigns ha trivial, fun q hq => ?_,
    fun k q hq => ?_⟩
  · rw [hpool]
    by_cases heq : q = p
    · rw [heq, hp]
      exact Option.some_ne_none f
    · rw [ha.get_other (.str q) (by simpa [Val.eq] using Ne.symm heq)] at hq
      exact h.keys q hq
  · rw [hpool]
    rcases hget k with hk | hk
    · exact hv q (hk.symm.trans hq)
    · exact h.values k q (hk.symm.trans hq)

theorem Writes.field_self (hw : s.Writes f v s') : s'.field f = v := by
  obtain ⟨⟨p, hp, ha⟩, hpool⟩ := hw
  rw [field_of_get (hpool ▸ hp), ha.get_key (Val.isField_str p)]

theorem Writes.field_other (hw : s.Writes f v s') (hg : g ≠ f) : s'.field g = s.field g := by
  obtain ⟨⟨p, hp, ha⟩, hpool⟩ := hw
  rw [field, field, hpool]
  cases hf : s.pool.find g with
  | none => rfl
  | some q =>
    have hq := StringPool.find_eq_some.1 hf
    refine ha.get_other (.str q) ?_
    have hne : p ≠ q := by
      rintro rfl
      exact hg (Option.some.inj (hq.symm.trans hp))
    simpa [Val.eq] using hne

theorem Writes.get_num (hw : s.Writes f v s') (n : F64) :
    s'.table.get (.num n) = s.table.get (.num n) := by
  obtain ⟨⟨p, -, ha⟩, -⟩ := hw
  exact ha.get_other _ rfl

end GmatchState

/-! ## States that iterators accept -/

/-- A value is a natural number. -/
def Val.IsIndex (v : Val) (i : Nat) : Prop := ∃ n, v = .num n ∧ n.exactNat = some i

theorem Val.isIndex_ofNat {i : Nat} (h : i ≤ 2 ^ 53) : (Val.ofNat i).IsIndex i :=
  ⟨_, rfl, F64.exactNat_ofNat h⟩

/-- A state of the general iterator over a subject. -/
structure GeneralOk (made : Bool) (subject : List UInt8) (s : GmatchState) : Prop where
  rooted : s.Rooted made
  size : subject.length ≤ MAX_STRING_BYTES
  stored : ∃ p, s.field SUBJECT_FIELD = .str p ∧ s.pool.get p = some subject
  pattern : ∃ p b, s.field PATTERN_FIELD = .str p ∧ s.pool.get p = some b
  pos : ∃ i, (s.field POSITION_FIELD).IsIndex i ∧ i ≤ subject.length + 1
  last : s.field LAST_MATCH_FIELD = .nil ∨
    ∃ i, (s.field LAST_MATCH_FIELD).IsIndex i ∧ i ≤ subject.length
  flagKey : ∃ p, s.table.get (.num COMPILE_CHARGED_SLOT) = .str p ∧
    s.pool.get p = some COMPILE_CHARGED_FIELD
  flag : s.field COMPILE_CHARGED_FIELD = .nil ∨ s.field COMPILE_CHARGED_FIELD = .bool true

/-- A state of the iterator over the empty pattern, of a subject of the given length. -/
structure EmptyOk (made : Bool) (len : Nat) (s : GmatchState) : Prop where
  rooted : s.Rooted made
  length : (s.field LENGTH_FIELD).IsIndex len ∧ len ≤ MAX_STRING_BYTES
  pos : ∃ i, (s.field POSITION_FIELD).IsIndex i ∧ i ≤ len + 1

/-- A state of the iterator over the empty pattern, or of the general one. -/
def IteratorOk (made emptyPattern : Bool) (s : GmatchState) : Prop :=
  match emptyPattern with
  | true => ∃ len, EmptyOk made len s
  | false => ∃ subject, GeneralOk made subject s

section States

variable {made : Bool} {s s' : GmatchState} {subject : List UInt8} {len : Nat}

/-- A string of the state table keeps its bytes between calls. -/
theorem GmatchState.Drifts.get {p : StringPtr} {b f : List UInt8} (hd : s.Drifts s') (hf : s.field f = .str p) (hb : s.pool.get p = some b) :
    s'.pool.get p = some b := by
  rw [GmatchState.field] at hf
  cases hq : s.pool.find f with
  | none => simp [hq] at hf
  | some q =>
    rw [hq] at hf
    exact hd.values _ p b hf hb

theorem GeneralOk.drifts (h : GeneralOk made subject s) (hd : s.Drifts s') : GeneralOk made subject s' := by
  have hfield := h.rooted.field_drifts hd
  refine ⟨h.rooted.drifts hd, h.size, ?_, ?_, ?_, ?_, ?_, ?_⟩
  · obtain ⟨p, hp, hb⟩ := h.stored
    exact ⟨p, (hfield _).trans hp, hd.get hp hb⟩
  · obtain ⟨p, b, hp, hb⟩ := h.pattern
    exact ⟨p, b, (hfield _).trans hp, hd.get hp hb⟩
  · rw [hfield]
    exact h.pos
  · rw [hfield]
    exact h.last
  · obtain ⟨p, hp, hb⟩ := h.flagKey
    exact ⟨p, hd.table ▸ hp, hd.values _ p _ hp hb⟩
  · rw [hfield]
    exact h.flag

theorem EmptyOk.drifts (h : EmptyOk made len s) (hd : s.Drifts s') : EmptyOk made len s' := by
  have hfield := h.rooted.field_drifts hd
  refine ⟨h.rooted.drifts hd, ?_, ?_⟩
  · rw [hfield]
    exact h.length
  · rw [hfield]
    exact h.pos

theorem IteratorOk.drifts {emptyPattern : Bool} (h : IteratorOk made emptyPattern s)
    (hd : s.Drifts s') : IteratorOk made emptyPattern s' := by
  cases emptyPattern with
  | true =>
    obtain ⟨len, h⟩ := h
    exact ⟨len, h.drifts hd⟩
  | false =>
    obtain ⟨subject, h⟩ := h
    exact ⟨subject, h.drifts hd⟩

/-- The position is moved. -/
theorem GeneralOk.writePos {v : Val} {i : Nat} (h : GeneralOk made subject s)
    (hw : s.Writes POSITION_FIELD v s') (hv : v.IsIndex i) (hi : i ≤ subject.length + 1) :
    GeneralOk made subject s' := by
  obtain ⟨n, rfl, hn⟩ := hv
  refine ⟨hw.rooted h.rooted (by simp), h.size, ?_, ?_, ⟨i, ⟨n, hw.field_self, hn⟩, hi⟩, ?_, ?_, ?_⟩
  · rw [hw.field_other (by decide), hw.pool]
    exact h.stored
  · rw [hw.field_other (by decide), hw.pool]
    exact h.pattern
  · rw [hw.field_other (by decide)]
    exact h.last
  · rw [hw.get_num, hw.pool]
    exact h.flagKey
  · rw [hw.field_other (by decide)]
    exact h.flag

/-- The end of the last match is recorded. -/
theorem GeneralOk.writeLast {v : Val} {i : Nat} (h : GeneralOk made subject s)
    (hw : s.Writes LAST_MATCH_FIELD v s') (hv : v.IsIndex i) (hi : i ≤ subject.length) :
    GeneralOk made subject s' := by
  obtain ⟨n, rfl, hn⟩ := hv
  refine ⟨hw.rooted h.rooted (by simp), h.size, ?_, ?_, ?_, .inr ⟨i, ⟨n, hw.field_self, hn⟩, hi⟩, ?_, ?_⟩
  · rw [hw.field_other (by decide), hw.pool]
    exact h.stored
  · rw [hw.field_other (by decide), hw.pool]
    exact h.pattern
  · rw [hw.field_other (by decide)]
    exact h.pos
  · rw [hw.get_num, hw.pool]
    exact h.flagKey
  · rw [hw.field_other (by decide)]
    exact h.flag

/-- The flag is set. -/
theorem GeneralOk.writeFlag (h : GeneralOk made subject s)
    (hw : s.Writes COMPILE_CHARGED_FIELD (.bool true) s') : GeneralOk made subject s' := by
  refine ⟨hw.rooted h.rooted (by simp), h.size, ?_, ?_, ?_, ?_, ?_, .inr hw.field_self⟩
  · rw [hw.field_other (by decide), hw.pool]
    exact h.stored
  · rw [hw.field_other (by decide), hw.pool]
    exact h.pattern
  · rw [hw.field_other (by decide)]
    exact h.pos
  · rw [hw.field_other (by decide)]
    exact h.last
  · rw [hw.get_num, hw.pool]
    exact h.flagKey

theorem EmptyOk.writePos {v : Val} {i : Nat} (h : EmptyOk made len s)
    (hw : s.Writes POSITION_FIELD v s') (hv : v.IsIndex i) (hi : i ≤ len + 1) : EmptyOk made len s' := by
  obtain ⟨n, rfl, hn⟩ := hv
  refine ⟨hw.rooted h.rooted (by simp), ?_, ⟨i, ⟨n, hw.field_self, hn⟩, hi⟩⟩
  rw [hw.field_other (by decide)]
  exact h.length

end States

/-! ## Where an iterator is -/

/-- The value of the field of the last match. -/
def Val.IsLast (v : Val) : Option Nat → Prop
  | none => v = .nil
  | some i => v.IsIndex i

/-- A state of the general iterator over a subject and a pattern, at a position, with the end of
    the last match. -/
structure GeneralAt (made : Bool) (subject pattern : List UInt8) (pos : Nat) (last : Option Nat)
    (s : GmatchState) : Prop where
  ok : GeneralOk made subject s
  text : ∃ p, s.field PATTERN_FIELD = .str p ∧ s.pool.get p = some pattern
  here : (s.field POSITION_FIELD).IsIndex pos
  previous : (s.field LAST_MATCH_FIELD).IsLast last

/-- A state of the iterator over the empty pattern, at a position. -/
structure EmptyAt (made : Bool) (len pos : Nat) (s : GmatchState) : Prop where
  ok : EmptyOk made len s
  here : (s.field POSITION_FIELD).IsIndex pos

section Positions

variable {made : Bool} {s s' : GmatchState} {subject pattern : List UInt8} {pos len : Nat}
  {last : Option Nat}

theorem Val.IsIndex.unique {v : Val} {i j : Nat} (h : v.IsIndex i) (h' : v.IsIndex j) : i = j := by
  obtain ⟨n, rfl, hi⟩ := h
  obtain ⟨_, ⟨⟩, hj⟩ := h'
  exact Option.some.inj (hi.symm.trans hj)

/-- Every iterator is somewhere. -/
theorem GeneralOk.exists_at (h : GeneralOk made subject s) :
    ∃ pattern pos last, GeneralAt made subject pattern pos last s := by
  obtain ⟨p, pattern, htext⟩ := h.pattern
  obtain ⟨pos, hpos, -⟩ := h.pos
  rcases h.last with hnil | ⟨i, hi, -⟩
  · exact ⟨pattern, pos, none, h, ⟨p, htext⟩, hpos, hnil⟩
  · exact ⟨pattern, pos, some i, h, ⟨p, htext⟩, hpos, hi⟩

theorem EmptyOk.exists_at (h : EmptyOk made len s) : ∃ pos, EmptyAt made len pos s := by
  obtain ⟨pos, hpos, -⟩ := h.pos
  exact ⟨pos, h, hpos⟩

theorem GeneralAt.pos_le (h : GeneralAt made subject pattern pos last s) : pos ≤ subject.length + 1 := by
  obtain ⟨i, hi, hle⟩ := h.ok.pos
  rwa [h.here.unique hi]

theorem GeneralAt.last_le (h : GeneralAt made subject pattern pos last s) :
    ∀ i ∈ last, i ≤ subject.length := by
  rintro i hmem
  obtain rfl : last = some i := hmem
  have hlast : (s.field LAST_MATCH_FIELD).IsIndex i := h.previous
  rcases h.ok.last with hnil | ⟨j, hj, hle⟩
  · obtain ⟨n, hn, -⟩ := hlast
    rw [hnil] at hn
    cases hn
  · rwa [hlast.unique hj]

theorem EmptyAt.pos_le (h : EmptyAt made len pos s) : pos ≤ len + 1 := by
  obtain ⟨i, hi, hle⟩ := h.ok.pos
  rwa [h.here.unique hi]

theorem GeneralAt.drifts (h : GeneralAt made subject pattern pos last s) (hd : s.Drifts s') :
    GeneralAt made subject pattern pos last s' := by
  have hfield := h.ok.rooted.field_drifts hd
  obtain ⟨p, hp, hb⟩ := h.text
  refine ⟨h.ok.drifts hd, ⟨p, (hfield _).trans hp, hd.get hp hb⟩, ?_, ?_⟩
  · rw [hfield]
    exact h.here
  · rw [hfield]
    exact h.previous

theorem EmptyAt.drifts (h : EmptyAt made len pos s) (hd : s.Drifts s') : EmptyAt made len pos s' := by
  refine ⟨h.ok.drifts hd, ?_⟩
  rw [h.ok.rooted.field_drifts hd]
  exact h.here

theorem GeneralAt.extends (h : GeneralAt made subject pattern pos last s) (s' : GmatchState)
    (he : s.Extends s') : GeneralAt made subject pattern pos last s' := h.drifts he.drifts

theorem EmptyAt.extends (h : EmptyAt made len pos s) (s' : GmatchState) (he : s.Extends s') :
    EmptyAt made len pos s' := h.drifts he.drifts

theorem GeneralAt.writePos {v : Val} {i : Nat} (h : GeneralAt made subject pattern pos last s)
    (hw : s.Writes POSITION_FIELD v s') (hv : v.IsIndex i) (hi : i ≤ subject.length + 1) :
    GeneralAt made subject pattern i last s' := by
  refine ⟨h.ok.writePos hw hv hi, ?_, hw.field_self.symm ▸ hv, ?_⟩
  · rw [hw.field_other (by decide), hw.pool]
    exact h.text
  · rw [hw.field_other (by decide)]
    exact h.previous

theorem GeneralAt.writeLast {v : Val} {i : Nat} (h : GeneralAt made subject pattern pos last s)
    (hw : s.Writes LAST_MATCH_FIELD v s') (hv : v.IsIndex i) (hi : i ≤ subject.length) :
    GeneralAt made subject pattern pos (some i) s' := by
  refine ⟨h.ok.writeLast hw hv hi, ?_, ?_, ?_⟩
  · rw [hw.field_other (by decide), hw.pool]
    exact h.text
  · rw [hw.field_other (by decide)]
    exact h.here
  · rw [hw.field_self]
    exact hv

theorem GeneralAt.writeFlag (h : GeneralAt made subject pattern pos last s)
    (hw : s.Writes COMPILE_CHARGED_FIELD (.bool true) s') :
    GeneralAt made subject pattern pos last s' := by
  refine ⟨h.ok.writeFlag hw, ?_, ?_, ?_⟩
  · rw [hw.field_other (by decide), hw.pool]
    exact h.text
  · rw [hw.field_other (by decide)]
    exact h.here
  · rw [hw.field_other (by decide)]
    exact h.previous

theorem EmptyAt.writePos {v : Val} {i : Nat} (h : EmptyAt made len pos s)
    (hw : s.Writes POSITION_FIELD v s') (hv : v.IsIndex i) (hi : i ≤ len + 1) : EmptyAt made len i s' :=
  ⟨h.ok.writePos hw hv hi, hw.field_self.symm ▸ hv⟩

end Positions

/-! ## Steps -/

section Steps

variable {H : GmatchHost} {made : Bool} {s : GmatchState} {I : GmatchState → Prop}
  {M : PatternError → Prop} {α : Type}

/-- A call may fail, but not for a bug, and leaves a state with the property `I`; an error of the
    pattern satisfies `M`. -/
def Fails (M : PatternError → Prop) (I : GmatchState → Prop) (e : GmatchError) (s : GmatchState) :
    Prop :=
  ¬e.IsInternal ∧ (∀ pe, e = .pattern pe → M pe) ∧ I s

theorem wp_pushSlot {Q : Unit → GmatchState → Prop} (hI : ∀ s', s.Extends s' → I s')
    (h : ∀ s', s.Extends s' → Q () s') : wp (pushSlot H) Q (Fails M I) s := by
  have hext : s.Extends { s with pushes := s.pushes + 1 } := ⟨rfl, fun _ _ h => h⟩
  simp only [pushSlot, wp_bind, wp_get, wp_modify]
  split
  · exact ⟨id, by rintro _ ⟨⟩, hI _ hext⟩
  · exact h _ hext

theorem wp_pushBytes {bytes : List UInt8} {Q : StringPtr → GmatchState → Prop}
    (hI : ∀ s', s.Extends s' → I s')
    (h : ∀ p s', s.Extends s' → s'.pool.get p = some bytes → Q p s') :
    wp (pushBytes H bytes) Q (Fails M I) s := by
  rw [pushBytes, wp_bind]
  refine wp_pushSlot hI fun s₁ h₁ => ?_
  split
  · exact ⟨id, by rintro _ ⟨⟩, hI s₁ h₁⟩
  · obtain ⟨hp, hold, -⟩ := StringPool.alloc_spec (p := (s₁.pool.alloc bytes).1) rfl
    simp only [wp_bind, wp_get, wp_modify, wp_pure]
    exact h _ _ (h₁.trans ⟨rfl, hold⟩) hp

theorem wp_getField {f : List UInt8} {Q : Val → GmatchState → Prop} (hr : s.Rooted made)
    (hI : ∀ s', s.Extends s' → I s') (h : ∀ s', s.Extends s' → Q (s.field f) s') :
    wp (getField H f) Q (Fails M I) s := by
  rw [getField, wp_bind]
  refine wp_pushBytes hI fun p s₁ h₁ hp => ?_
  have := h s₁ h₁
  rw [← hr.field_drifts h₁.drifts, GmatchState.field_of_get hp] at this
  exact this

theorem wp_toBytes {p : StringPtr} {b : List UInt8} {Q : List UInt8 → GmatchState → Prop}
    (hp : s.pool.get p = some b) (h : Q b s) : wp (toBytes p) Q (Fails M I) s := by
  simp only [toBytes, wp_bind, wp_get, wp_demand hp]
  exact h

theorem wp_chargeGmatch {units : Nat} {Q : Unit → GmatchState → Prop}
    (hI : ∀ s', s.Extends s' → I s') (h : ∀ s', s.Extends s' → Q () s') :
    wp (chargeGmatch units) Q (Fails M I) s := by
  simp only [chargeGmatch, wp_bind, wp_get, wp_modify]
  split
  · exact h _ ⟨rfl, fun _ _ h => h⟩
  · exact ⟨id, by rintro _ ⟨⟩, hI _ ⟨rfl, fun _ _ h => h⟩⟩

theorem wp_withGmatchMatcher {m : Effect Clock MatchError α} {P : α → Prop}
    {Q : α → GmatchState → Prop}
    (hm : ∀ clock, wp m (fun a _ => P a) (fun e _ => ∀ pe, e = .pattern pe → M pe) clock)
    (hI : ∀ s', s.Extends s' → I s') (h : ∀ a s', P a → s.Extends s' → Q a s') :
    wp (withGmatchMatcher m) Q (Fails M I) s := by
  have := hm ⟨s.cost.meter.withUnit (s.cost.weight .stringGmatch), s.polls⟩
  simp only [wp, withGmatchMatcher] at this ⊢
  cases hr : m ⟨s.cost.meter.withUnit (s.cost.weight .stringGmatch), s.polls⟩ with
  | ok a clock =>
    rw [hr] at this
    exact h a _ this ⟨rfl, fun _ _ h => h⟩
  | fail e clock =>
    rw [hr] at this
    refine ⟨?_, ?_, hI _ ⟨rfl, fun _ _ h => h⟩⟩
    · cases e <;> exact id
    · rintro pe hpe
      cases e with
      | pattern pe' =>
        cases hpe
        exact this pe rfl
      | budgetExceeded => cases hpe
      | interrupted => cases hpe
  | panic => simp [hr] at this
  | timeout => trivial

/-- Writing the state table. -/
theorem wp_insertField {key v : Val} {Q : Unit → GmatchState → Prop} (hr : s.Rooted made)
    (hk : key.IsField) (hv : v ≠ .nil)
    (h : ∀ t', s.table.Assigns key v t' → Q () { s with table := t' }) :
    wp (setTableRaw H key v) Q (Fails M I) s := by
  obtain ⟨t', ho, ha⟩ := Table.insert_field hr.ok hr.plain hk hv H.alloc
  simp only [setTableRaw, wp_bind, wp_get, wp_demand ho, wp_modify, wp_pure]
  exact h t' ha

/-- Writing a field of the state table. -/
theorem wp_setTableRaw {f : List UInt8} {p : StringPtr} {v : Val} {Q : Unit → GmatchState → Prop}
    (hr : s.Rooted made) (hp : s.pool.get p = some f) (hv : v ≠ .nil)
    (h : ∀ s', s.Writes f v s' → Q () s') :
    wp (setTableRaw H (.str p) v) Q (Fails M I) s :=
  wp_insertField hr (Val.isField_str p) hv fun _ ha => h _ ⟨⟨p, hp, ha⟩, rfl⟩

theorem wp_gmatchStateIndex {f : List UInt8} {v : Val} {i maximum : Nat}
    {Q : Nat → GmatchState → Prop} (hv : v.IsIndex i) (hi : i ≤ maximum) (h : Q i s) :
    wp (gmatchStateIndex f maximum v) Q (Fails M I) s := by
  obtain ⟨n, rfl, hn⟩ := hv
  simp only [gmatchStateIndex, integerIndex, hn, if_pos hi, wp_pure]
  exact h

/-! ## Calls -/

/-- A value that a call returns for a capture. -/
def Denotes (s : GmatchState) (subject : List UInt8) : LuaCapture → Val → Prop
  | .bytes start stop, v => ∃ p, v = .str p ∧ s.pool.get p = some ((subject.take stop).drop start)
  | .position offset, v => v = Val.ofNat (offset + 1)
  | .unfinished, _ => False

theorem Denotes.mono {s' : GmatchState} {subject : List UInt8} {c : LuaCapture} {v : Val}
    (h : Denotes s subject c v) (hpool : ∀ q b, s.pool.get q = some b → s'.pool.get q = some b) :
    Denotes s' subject c v := by
  cases c with
  | bytes start stop =>
    obtain ⟨p, hv, hp⟩ := h
    exact ⟨p, hv, hpool p _ hp⟩
  | position offset => exact h
  | unfinished => exact h

/-- A call of the iterator over the empty pattern returns an empty string and goes on, or it returns
    nil at the end. -/
theorem wp_gmatchEmptyIter {len pos : Nat} (h : EmptyAt made len pos s) :
    wp (gmatchEmptyIter H)
      (fun results s' =>
        if len < pos then results = [.nil] ∧ EmptyAt made len pos s'
        else (∃ p, results = [.str p] ∧ s'.pool.get p = some []) ∧ EmptyAt made len (pos + 1) s')
      (Fails M (EmptyAt made len pos)) s := by
  have hle := h.pos_le
  have hlen := h.ok.length.2
  rw [gmatchEmptyIter, wp_bind]
  refine wp_getField h.ok.rooted h.extends fun s₁ h₁ => ?_
  rw [wp_bind]
  refine wp_gmatchStateIndex h.here (by omega) ?_
  have at₁ := h.extends s₁ h₁
  rw [wp_bind]
  refine wp_getField at₁.ok.rooted at₁.extends fun s₂ h₂ => ?_
  rw [wp_bind]
  refine wp_gmatchStateIndex at₁.ok.length.1 hlen ?_
  have at₂ := at₁.extends s₂ h₂
  rw [if_neg (by omega)]
  split
  · rw [wp_bind]
    exact wp_pushSlot at₂.extends fun s₃ h₃ => ⟨rfl, at₂.extends s₃ h₃⟩
  · rw [wp_bind]
    refine wp_pushBytes at₂.extends fun result s₃ h₃ hresult => ?_
    have at₃ := at₂.extends s₃ h₃
    rw [wp_bind]
    refine wp_pushBytes at₃.extends fun key s₄ h₄ hkey => ?_
    have at₄ := at₃.extends s₄ h₄
    rw [wp_bind]
    refine wp_pushSlot at₄.extends fun s₅ h₅ => ?_
    have at₅ := at₄.extends s₅ h₅
    rw [wp_bind]
    refine wp_setTableRaw at₅.ok.rooted (h₅.pool _ _ hkey) (by simp [Val.ofNat]) fun s₆ hw => ?_
    refine ⟨⟨result, rfl, ?_⟩, at₅.writePos hw (Val.isIndex_ofNat (i := pos + 1) ?_) (by omega)⟩
    · rw [hw.pool]
      exact h₅.pool _ _ (h₄.pool _ _ hresult)
    · rw [MAX_STRING_BYTES] at hlen
      omega

/-- A match is found within the subject. -/
def FoundIn (subject : List UInt8) (r : Option LuaPattern) (_ : Clock) : Prop :=
  ∀ m, r = some m → ∃ init, m.Found subject init

theorem wp_gmatchTry {interrupt : Nat → Bool} {subject : List UInt8} {lastmatch : Option Nat}
    {search : Nat} {m : LuaPattern} {clock : Clock}
    {again : LuaPattern → Effect Clock MatchError (Option LuaPattern)} (hm : m.Ready)
    (hs : search ≤ subject.length)
    (hagain : search < subject.length → ∀ m clock, m.Ready →
      wp (again m) (FoundIn subject) (fun _ _ => True) clock) :
    wp (gmatchTry interrupt subject lastmatch search m again) (FoundIn subject) (fun _ _ => True)
      clock := by
  rw [gmatchTry, wp_bind]
  refine wp_mono_ok (LuaPattern.wp_matchesBytesFrom hm hs) fun r clock hr => ?_
  obtain ⟨found, m⟩ := r
  dsimp only
  split
  · rename_i hf
    have hfound := hr.2 hf
    obtain ⟨start, stop, hrange, -⟩ := hfound.range
    rw [wp_bind, wp_demand hrange]
    split
    · split
      · rintro m ⟨⟩
      · rename_i hne
        exact hagain (Nat.lt_of_le_of_ne hs hne) m clock hr.1
    · rintro m ⟨⟩
      exact ⟨search, hfound⟩
  · rintro m ⟨⟩

/-- The next match from a position of the subject on. -/
theorem wp_gmatchLoop {interrupt : Nat → Bool} {subject : List UInt8} {lastmatch : Option Nat}
    {n search : Nat} {m : LuaPattern} {clock : Clock} (hm : m.Ready)
    (hn : search + n = subject.length) :
    wp (gmatchLoop interrupt subject lastmatch n search m) (FoundIn subject) (fun _ _ => True)
      clock := by
  induction n generalizing search m clock with
  | zero => exact wp_gmatchTry hm (by omega) fun hlt => by omega
  | succ n ih => exact wp_gmatchTry hm (by omega) fun _ m clock hm => ih hm (by omega)

/-- What a search gives: a range and captures within the subject. -/
def Matched (n : Nat) (r : Option ((Nat × Nat) × List LuaCapture)) : Prop :=
  ∀ range captures, r = some (range, captures) →
    range.2 ≤ n ∧ captures ≠ [] ∧ ∀ c ∈ captures, c.Within n

theorem wp_gmatchSearch {interrupt : Nat → Bool} {subject pattern : List UInt8} {pos : Nat}
    {lastmatch : Option Nat} (hp : pos ≤ subject.length) (clock : Clock) :
    wp (gmatchSearch interrupt subject pattern pos lastmatch)
      (fun r _ => Matched subject.length r) (fun _ _ => True) clock := by
  rw [gmatchSearch, wp_bind]
  refine wp_mono_ok (wp_gmatchLoop (ready_compile _ _) (by omega)) fun r clock hr => ?_
  cases r with
  | none =>
    rintro range captures ⟨⟩
  | some m =>
    obtain ⟨init, hfound⟩ := hr m rfl
    obtain ⟨start, stop, hrange, -, -, hstop⟩ := hfound.range
    rw [wp_bind, wp_demand hrange, wp_bind]
    have hmap := wp_mapM (l := List.range m.nMatch) (g := fun i => demand (m.capture i))
      (P := LuaCapture.Within subject.length) (I := fun _ => True)
      (E := fun (_ : MatchError) (_ : Clock) => True) (s := clock) (fun i hi clock _ => by
        obtain ⟨c, hc, hwithin⟩ := hfound.captures i (List.mem_range.1 hi)
        rw [wp_demand hc]
        exact ⟨hwithin, trivial⟩) trivial
    refine wp_mono_ok hmap fun captures clock hc => ?_
    rintro range captures ⟨⟩
    refine ⟨hstop, ?_, hc.2.1⟩
    rintro rfl
    have := hc.1
    rw [List.length_range] at this
    exact absurd this.symm hfound.nonempty.ne'

variable {subject : List UInt8}

theorem wp_pushGmatchStringField {f : List UInt8} {p : StringPtr}
    {Q : StringPtr → GmatchState → Prop} (hr : s.Rooted made) (hf : s.field f = .str p)
    (hI : ∀ s', s.Extends s' → I s') (h : ∀ s', s.Extends s' → Q p s') :
    wp (pushGmatchStringField H f) Q (Fails M I) s := by
  rw [pushGmatchStringField, wp_bind]
  refine wp_getField hr hI fun s₁ h₁ => ?_
  rw [hf]
  exact h s₁ h₁

theorem wp_lastMatch {pattern : List UInt8} {pos : Nat} {last : Option Nat}
    {Q : Option Nat → GmatchState → Prop} (h : GeneralAt made subject pattern pos last s)
    (hQ : ∀ s', s.Extends s' → Q last s') :
    wp (lastMatch H) Q (Fails M (GeneralAt made subject pattern pos last)) s := by
  rw [lastMatch, wp_bind]
  refine wp_getField h.ok.rooted h.extends fun s₁ h₁ => ?_
  have hprevious := h.previous
  cases last with
  | none =>
    rw [show s.field LAST_MATCH_FIELD = .nil from hprevious]
    exact hQ s₁ h₁
  | some i =>
    have hle := h.last_le i rfl
    have hmax := h.ok.size
    obtain ⟨n, hn, hin⟩ := hprevious
    rw [hn]
    simp only [wp_map]
    exact wp_gmatchStateIndex ⟨n, rfl, hin⟩ (by omega) (hQ s₁ h₁)

section Advance

variable {pattern : List UInt8} {pos : Nat} {last : Option Nat}

/-- The flag and its key are as they should be. -/
theorem wp_compileCharged {Q : StringPtr × Bool → GmatchState → Prop}
    (h : GeneralAt made subject pattern pos last s) (hQ : ∀ r s', s.Extends s' → Q r s') :
    wp (compileCharged H) Q (Fails M (GeneralAt made subject pattern pos last)) s := by
  rw [compileCharged, wp_bind]
  refine wp_pushSlot h.extends fun s₁ h₁ => ?_
  have ok₁ := (h.extends s₁ h₁).ok
  obtain ⟨p, hp, hb⟩ := ok₁.flagKey
  simp only [getTableRaw, wp_bind, wp_get, wp_pure, hp]
  refine wp_toBytes hb ?_
  simp only [if_true, wp_bind, wp_get, wp_pure]
  rw [← GmatchState.field_of_get hb]
  rcases ok₁.flag with hflag | hflag <;> rw [hflag] <;> exact hQ _ s₁ h₁

/-- Charging for the pattern sets the flag, or fails before it is set. -/
theorem wp_chargeCompile {p : StringPtr} {b : List UInt8} (h : GeneralAt made subject pattern pos last s)
    (hp : s.pool.get p = some b) :
    wp (chargeCompile H p)
      (fun _ s' => GeneralAt made subject pattern pos last s' ∧
        ∀ q b, s.pool.get q = some b → s'.pool.get q = some b)
      (Fails M (GeneralAt made subject pattern pos last)) s := by
  rw [chargeCompile, wp_bind]
  refine wp_toBytes hp ?_
  rw [wp_bind]
  refine wp_chargeGmatch h.extends fun s₁ h₁ => ?_
  have at₁ := h.extends s₁ h₁
  rw [wp_bind]
  refine wp_pushSlot at₁.extends fun s₂ h₂ => ?_
  have at₂ := at₁.extends s₂ h₂
  obtain ⟨key, hkey, hbytes⟩ := at₂.ok.flagKey
  simp only [getTableRaw, wp_bind, wp_get, wp_pure, hkey]
  refine wp_pushSlot at₂.extends fun s₃ h₃ => ?_
  have at₃ := at₂.extends s₃ h₃
  refine wp_setTableRaw at₃.ok.rooted (h₃.pool _ _ hbytes) (by simp) fun s₄ hw => ?_
  refine ⟨at₃.writeFlag hw, fun q b hq => ?_⟩
  rw [hw.pool]
  exact h₃.pool q b (h₂.pool q b (h₁.pool q b hq))

/-- Adding the bytes of the captures up changes nothing. -/
theorem wp_captureBytes {captures : List LuaCapture} {Q : Nat → GmatchState → Prop} (hI : I s)
    (hM : .unfinished ∈ captures → M .unfinishedCapture) (h : ∀ n, Q n s) :
    wp (captureBytes captures) Q (Fails M I) s := by
  induction captures generalizing Q with
  | nil => exact h 0
  | cons c captures ih =>
    have hrest := fun hmem => hM (List.mem_cons_of_mem c hmem)
    cases c with
    | unfinished =>
      refine ⟨id, ?_, hI⟩
      rintro _ ⟨⟩
      exact hM List.mem_cons_self
    | bytes start stop =>
      rw [captureBytes, wp_bind]
      exact ih hrest fun n => h _
    | position offset => exact ih hrest h

theorem wp_pushGmatchCapture {p : StringPtr} {c : LuaCapture} {Q : Val → GmatchState → Prop}
    (hp : s.pool.get p = some subject) (hc : c.Within subject.length)
    (hM : .unfinished = c → M .unfinishedCapture) (hI : ∀ s', s.Extends s' → I s')
    (h : ∀ v s', s.Extends s' → Denotes s' subject c v → Q v s') :
    wp (pushGmatchCapture H p c) Q (Fails M I) s := by
  cases c with
  | bytes start stop =>
    rw [pushGmatchCapture, wp_bind]
    refine wp_toBytes hp ?_
    have hrange : start ≤ stop ∧ stop ≤ subject.length := hc
    rw [if_pos hrange, wp_bind]
    exact wp_pushBytes hI fun q s₁ h₁ hq => h _ s₁ h₁ ⟨q, rfl, hq⟩
  | position offset =>
    rw [pushGmatchCapture, wp_bind]
    exact wp_pushSlot hI fun s₁ h₁ => h _ s₁ h₁ rfl
  | unfinished =>
    refine ⟨id, ?_, hI s (.refl s)⟩
    rintro _ ⟨⟩
    exact hM rfl

/-- Captures are pushed one after the other. -/
theorem wp_pushCaptures {p : StringPtr} {captures : List LuaCapture} {Q : List Val → GmatchState → Prop}
    (hp : s.pool.get p = some subject) (hc : ∀ c ∈ captures, c.Within subject.length)
    (hM : .unfinished ∈ captures → M .unfinishedCapture) (hI : ∀ s', s.Extends s' → I s')
    (h : ∀ vs s', s.Extends s' → List.Forall₂ (Denotes s' subject) captures vs → Q vs s') :
    wp (captures.mapM (pushGmatchCapture H p)) Q (Fails M I) s := by
  induction captures generalizing s Q with
  | nil => exact h [] s (.refl s) .nil
  | cons c captures ih =>
    rw [List.mapM_cons, wp_bind]
    refine wp_pushGmatchCapture hp (hc c List.mem_cons_self)
      (fun hu => hM (hu ▸ List.mem_cons_self)) hI fun v s₁ h₁ hv => ?_
    rw [wp_bind]
    refine ih (h₁.pool _ _ hp) (fun c hmem => hc c (List.mem_cons_of_mem _ hmem))
      (fun hmem => hM (List.mem_cons_of_mem _ hmem)) (fun s₂ h₂ => hI s₂ (h₁.trans h₂))
      fun vs s₂ h₂ hvs => ?_
    exact h _ s₂ (h₁.trans h₂) (.cons (hv.mono h₂.pool) hvs)

/-- The captures that a call returns: those of the pattern, or the whole match where it has none. -/
def returnedCaptures (captures : List LuaCapture) : List LuaCapture :=
  if 1 < captures.length then captures.drop 1 else captures.take 1

theorem mem_of_mem_returned {c : LuaCapture} {captures : List LuaCapture}
    (h : c ∈ returnedCaptures captures) : c ∈ captures := by
  rw [returnedCaptures] at h
  split at h
  · exact List.mem_of_mem_drop h
  · exact List.mem_of_mem_take h

/-- Pushing what a match returns leaves the state table alone. -/
theorem wp_returnCaptures {p : StringPtr} {captures : List LuaCapture}
    {Q : List Val → GmatchState → Prop} (hp : s.pool.get p = some subject)
    (hne : captures ≠ []) (hc : ∀ c ∈ captures, c.Within subject.length)
    (hM : .unfinished ∈ captures → M .unfinishedCapture) (hI : ∀ s', s.Extends s' → I s')
    (h : ∀ vs s', s.Extends s' → List.Forall₂ (Denotes s' subject) (returnedCaptures captures) vs →
      Q vs s') :
    wp (returnCaptures H p captures) Q (Fails M I) s := by
  have hM' : .unfinished ∈ returnedCaptures captures → M .unfinishedCapture :=
    fun hmem => hM (mem_of_mem_returned hmem)
  have hrun : returnCaptures H p captures = (do
      preflightCaptureBytes (returnedCaptures captures)
      if 255 < (returnedCaptures captures).length then fail .tooManyResults
      else (returnedCaptures captures).mapM (pushGmatchCapture H p)) := by
    rw [returnCaptures, require, if_pos hne, pure_bind]
    rfl
  simp only [hrun, wp_bind, preflightCaptureBytes]
  refine wp_captureBytes (hI s (.refl s)) hM' fun n => wp_chargeGmatch hI fun s₁ h₁ => ?_
  split
  · exact ⟨id, by rintro _ ⟨⟩, hI s₁ h₁⟩
  · exact wp_pushCaptures (h₁.pool _ _ hp) (fun c hmem => hc c (mem_of_mem_returned hmem)) hM'
      (fun s₂ h₂ => hI s₂ (h₁.trans h₂)) fun vs s₂ h₂ => h vs s₂ (h₁.trans h₂)

/-- Where a match ended is recorded. -/
theorem wp_commitMatch {stop : Nat} (h : GeneralAt made subject pattern pos last s)
    (hs : stop ≤ subject.length) :
    wp (commitMatch H stop)
      (fun _ s' => GeneralAt made subject pattern stop (some stop) s' ∧
        ∀ q b, s.pool.get q = some b → s'.pool.get q = some b)
      (Fails M (GeneralAt made subject pattern pos last)) s := by
  have hidx : (Val.ofNat stop).IsIndex stop := by
    have := h.ok.size
    rw [MAX_STRING_BYTES] at this
    exact Val.isIndex_ofNat (by omega)
  rw [commitMatch, wp_bind]
  refine wp_pushBytes h.extends fun position s₁ h₁ hposition => ?_
  have at₁ := h.extends s₁ h₁
  rw [wp_bind]
  refine wp_pushSlot at₁.extends fun s₂ h₂ => ?_
  have at₂ := at₁.extends s₂ h₂
  rw [wp_bind]
  refine wp_pushBytes at₂.extends fun key s₃ h₃ hkey => ?_
  have at₃ := at₂.extends s₃ h₃
  rw [wp_bind]
  refine wp_pushSlot at₃.extends fun s₄ h₄ => ?_
  have at₄ := at₃.extends s₄ h₄
  rw [wp_bind]
  refine wp_setTableRaw at₄.ok.rooted (h₄.pool _ _ hkey) (by simp [Val.ofNat]) fun s₅ hw => ?_
  have at₅ := at₄.writeLast hw hidx hs
  have hext := ((h₁.trans h₂).trans h₃).trans h₄
  have hposition₅ : s₅.pool.get position = some POSITION_FIELD := by
    rw [hw.pool]
    exact h₄.pool _ _ (h₃.pool _ _ (h₂.pool _ _ hposition))
  refine wp_setTableRaw at₅.ok.rooted hposition₅ (by simp [Val.ofNat]) fun s₆ hw' => ?_
  refine ⟨at₅.writePos hw' hidx (by omega), fun q b hq => ?_⟩
  rw [hw'.pool, hw.pool]
  exact hext.pool q b hq

/-- What a call leaves when the search gave a match or none. -/
def Advances (made : Bool) (subject pattern : List UInt8) (pos : Nat) (last : Option Nat)
    (r : Option ((Nat × Nat) × List LuaCapture)) (results : List Val) (s' : GmatchState) : Prop :=
  match r with
  | none => results = [.nil] ∧ GeneralAt made subject pattern pos last s'
  | some ((_, stop), captures) =>
    List.Forall₂ (Denotes s' subject) (returnedCaptures captures) results ∧
      GeneralAt made subject pattern stop (some stop) s'

/-- What is known of a search. -/
structure Searches (H : GmatchHost) (M : PatternError → Prop)
    (P : Option ((Nat × Nat) × List LuaCapture) → Prop) (subject pattern : List UInt8) (pos : Nat)
    (last : Option Nat) : Prop where
  finds : ∀ clock, wp (gmatchSearch H.interrupt subject pattern pos last)
    (fun r _ => P r ∧ Matched subject.length r) (fun e _ => ∀ pe, e = .pattern pe → M pe) clock
  unfinished : ∀ range captures, P (some (range, captures)) → .unfinished ∈ captures →
    M .unfinishedCapture

variable {P : Option ((Nat × Nat) × List LuaCapture) → Prop}

theorem wp_gmatchAdvance {p q : StringPtr} (h : GeneralAt made subject pattern pos last s)
    (hp : s.pool.get p = some subject) (hq : s.pool.get q = some pattern)
    (hsearch : Searches H M P subject pattern pos last) :
    wp (gmatchAdvance H p q subject pos last)
      (fun results s' => ∃ r, P r ∧ Advances made subject pattern pos last r results s')
      (Fails M (GeneralAt made subject pattern pos last)) s := by
  rw [gmatchAdvance, wp_bind]
  refine wp_toBytes hq ?_
  rw [wp_bind]
  refine wp_withGmatchMatcher hsearch.finds h.extends fun r s₁ hr h₁ => ?_
  have at₁ := h.extends s₁ h₁
  cases r with
  | none =>
    rw [wp_bind]
    exact wp_pushSlot at₁.extends fun s₂ h₂ => ⟨none, hr.1, rfl, at₁.extends s₂ h₂⟩
  | some r =>
    obtain ⟨⟨start, stop⟩, captures⟩ := r
    obtain ⟨hstop, hne, hwithin⟩ := hr.2 _ _ rfl
    rw [wp_bind]
    refine wp_returnCaptures (h₁.pool _ _ hp) hne hwithin (hsearch.unfinished _ _ hr.1) at₁.extends
      fun vs s₂ h₂ hvs => ?_
    rw [wp_bind]
    refine wp_mono_ok (wp_commitMatch (at₁.extends s₂ h₂) hstop) fun _ s₃ h₃ => ?_
    exact ⟨_, hr.1, hvs.imp fun _ _ hv => hv.mono h₃.2, h₃.1⟩

/-- A call of the general iterator past the end of the subject, or one that searches. -/
theorem wp_gmatchIter (h : GeneralAt made subject pattern pos last s)
    (hsearch : pos ≤ subject.length → Searches H M P subject pattern pos last) :
    wp (gmatchIter H)
      (fun results s' =>
        if subject.length < pos then
          results = [.nil] ∧ GeneralAt made subject pattern pos last s'
        else ∃ r, P r ∧ Advances made subject pattern pos last r results s')
      (Fails M (GeneralAt made subject pattern pos last)) s := by
  obtain ⟨p, hp, hsub⟩ := h.ok.stored
  rw [gmatchIter, wp_bind]
  refine wp_pushGmatchStringField h.ok.rooted hp h.extends fun s₁ h₁ => ?_
  have at₁ := h.extends s₁ h₁
  have hsub₁ := h₁.pool _ _ hsub
  obtain ⟨q, hq, hpat₁⟩ := at₁.text
  rw [wp_bind]
  refine wp_pushGmatchStringField at₁.ok.rooted hq at₁.extends fun s₂ h₂ => ?_
  have at₂ := at₁.extends s₂ h₂
  have hle := h.pos_le
  have hmax := h.ok.size
  rw [wp_bind]
  refine wp_getField at₂.ok.rooted at₂.extends fun s₃ h₃ => ?_
  rw [wp_bind]
  refine wp_gmatchStateIndex at₂.here (by omega) ?_
  have at₃ := at₂.extends s₃ h₃
  rw [wp_bind]
  refine wp_lastMatch at₃ fun s₄ h₄ => ?_
  have at₄ := at₃.extends s₄ h₄
  have hext : s₁.Extends s₄ := (h₂.trans h₃).trans h₄
  have hsub₄ := hext.pool _ _ hsub₁
  have hpat₄ := hext.pool _ _ hpat₁
  rw [wp_bind]
  refine wp_toBytes hsub₄ ?_
  have hany : last.any (subject.length < ·) = false := by
    have hlast := h.last_le
    cases last with
    | none => rfl
    | some i => simpa using hlast i rfl
  rw [if_neg (by omega), hany, if_neg (by simp)]
  split
  · rw [wp_bind]
    exact wp_pushSlot at₄.extends fun s₅ h₅ => ⟨rfl, at₄.extends s₅ h₅⟩
  · rename_i hin
    have hsearch := hsearch (Nat.le_of_not_lt hin)
    rw [wp_bind]
    refine wp_compileCharged at₄ fun r s₅ h₅ => ?_
    have at₅ := at₄.extends s₅ h₅
    obtain ⟨key, charged⟩ := r
    -- Compiling is charged at the first call that searches.
    dsimp only
    split
    · rw [wp_bind]
      refine wp_mono_ok (wp_chargeCompile at₅ (h₅.pool _ _ hpat₄)) fun _ s₆ h₆ => ?_
      exact wp_gmatchAdvance h₆.1 (h₆.2 _ _ (h₅.pool _ _ hsub₄)) (h₆.2 _ _ (h₅.pool _ _ hpat₄))
        hsearch
    · exact wp_gmatchAdvance at₅ (h₅.pool _ _ hsub₄) (h₅.pool _ _ hpat₄) hsearch

end Advance

/-- A call of either iterator keeps its state in order. -/
theorem wp_gmatchNext {emptyPattern : Bool} (h : IteratorOk made emptyPattern s) :
    wp (gmatchNext H emptyPattern) (fun _ => IteratorOk made emptyPattern)
      (Fails (fun _ => True) (IteratorOk made emptyPattern)) s := by
  cases emptyPattern with
  | true =>
    obtain ⟨len, h⟩ := h
    obtain ⟨pos, h⟩ := h.exists_at
    refine wp_mono (wp_gmatchEmptyIter h) (fun results s' h' => ⟨len, ?_⟩) fun _ _ h =>
      ⟨h.1, h.2.1, len, h.2.2.ok⟩
    split at h'
    · exact h'.2.ok
    · exact h'.2.ok
  | false =>
    obtain ⟨subject, h⟩ := h
    obtain ⟨pattern, pos, last, h⟩ := h.exists_at
    have hsearch : pos ≤ subject.length →
        Searches H (fun _ => True) (fun _ => True) subject pattern pos last := fun hpos =>
      ⟨fun clock => wp_mono (wp_gmatchSearch hpos clock) (fun _ _ h => ⟨trivial, h⟩)
        fun _ _ _ _ _ => trivial, fun _ _ _ _ => trivial⟩
    refine wp_mono (wp_gmatchIter h hsearch) (fun results s' h' => ⟨subject, ?_⟩) fun _ _ h =>
      ⟨h.1, h.2.1, subject, h.2.2.ok⟩
    split at h'
    · exact h'.2.ok
    · obtain ⟨r, -, hr⟩ := h'
      rcases r with _ | ⟨⟨start, stop⟩, captures⟩
      · exact hr.2.ok
      · exact hr.2.ok

/-! ## The constructor -/

/-- A state table being filled: the values of its fields, and what is under the number
    key. -/
structure Stage (F : List UInt8 → Val) (w : Val) (s : GmatchState) : Prop where
  rooted : s.Rooted true
  fields : ∀ f, s.field f = F f
  slot : s.table.get (.num COMPILE_CHARGED_SLOT) = w

section Constructor

variable {F : List UInt8 → Val} {w v : Val} {s' : GmatchState} {f : List UInt8}

theorem Stage.extends (h : Stage F w s) (he : s.Extends s') : Stage F w s' :=
  ⟨h.rooted.drifts he.drifts, fun f => (h.rooted.field_drifts he.drifts f).trans (h.fields f),
    he.table ▸ h.slot⟩

theorem Stage.writes (h : Stage F w s) (hw : s.Writes f v s')
    (hv : ∀ q, v = .str q → s.pool.get q ≠ none) : Stage (Function.update F f v) w s' := by
  refine ⟨hw.rooted h.rooted hv, fun g => ?_, (hw.get_num _).trans h.slot⟩
  by_cases hg : g = f
  · rw [hg, Function.update_self]
    exact hw.field_self
  · rw [Function.update_of_ne hg, hw.field_other hg]
    exact h.fields g

/-- The number key is written. -/
theorem Stage.writeSlot {t' : Table} {p : StringPtr} (h : Stage F w s)
    (hp : s.pool.get p ≠ none)
    (ha : s.table.Assigns (.num COMPILE_CHARGED_SLOT) (.str p) t') :
    Stage F (.str p) { s with table := t' } := by
  have hstr : ∀ q, t'.get (.str q) = s.table.get (.str q) := fun q => ha.get_other (.str q) rfl
  refine ⟨⟨ha.ok, ha.plain, fun _ => (h.rooted.tidy rfl).assigns ha rfl, fun q hq => ?_,
    fun k q hq => ?_⟩, fun f => ?_, ha.get_key Val.isField_zero⟩
  · rw [hstr] at hq
    exact h.rooted.keys q hq
  · cases hk : (Val.num COMPILE_CHARGED_SLOT).eq k with
    | true =>
      have hget : t'.get k = .str p := ha.get_eq k hk
      rw [Val.str.inj (hq.symm.trans hget)]
      exact hp
    | false =>
      rw [ha.get_other k hk] at hq
      exact h.rooted.values k q hq
  · rw [← h.fields f, GmatchState.field, GmatchState.field]
    cases s.pool.find f with
    | none => rfl
    | some q => exact hstr q

theorem stage_empty : Stage (fun _ => .nil) .nil { s with table := .empty } := by
  have hget : ∀ k, Table.empty.get k = .nil := Table.get_empty
  refine ⟨⟨Table.empty_ok, rfl, fun _ => Table.tidy_empty, fun q hq => absurd (hget _) hq,
    fun k q hq => ?_⟩, fun f => ?_, hget _⟩
  · rw [hget] at hq
    cases hq
  · rw [GmatchState.field]
    split
    · exact hget _
    · rfl

theorem wp_setField {Q : Unit → GmatchState → Prop} (h : Stage F w s) (hv : v ≠ .nil)
    (hstr : ∀ q, v ≠ .str q)
    (hQ : ∀ s₁ s', s.Extends s₁ → s'.pool = s₁.pool → Stage (Function.update F f v) w s' → Q () s') :
    wp (setField H f v) Q (Fails M fun _ => True) s := by
  rw [setField, wp_bind]
  refine wp_pushBytes (fun _ _ => trivial) fun key s₁ h₁ hkey => ?_
  rw [wp_bind]
  refine wp_pushSlot (fun _ _ => trivial) fun s₂ h₂ => ?_
  have stage₂ := (h.extends h₁).extends h₂
  refine wp_setTableRaw stage₂.rooted (h₂.pool _ _ hkey) hv fun s₃ hw => ?_
  exact hQ s₂ s₃ (h₁.trans h₂) hw.pool (stage₂.writes hw fun q hq => absurd hq (hstr q))

/-- An argument is a string in use, or a rendering, of admissible length. -/
def StringArg.Holds (s : GmatchState) (bytes : List UInt8) : StringArg → Prop
  | .slot p => s.pool.get p = some bytes
  | .rendered b => b = bytes

theorem StringArg.Holds.extends {a : StringArg} {b : List UInt8} (h : a.Holds s b)
    (he : s.Extends s') : a.Holds s' b := by
  cases a with
  | slot p => exact he.pool p b h
  | rendered b' => exact h

theorem wp_stringArgBytes {a : StringArg} {b : List UInt8} {Q : List UInt8 → GmatchState → Prop}
    (h : a.Holds s b) (hQ : Q b s) : wp (stringArgBytes a) Q (Fails M I) s := by
  cases a with
  | slot p => exact wp_toBytes h hQ
  | rendered b' =>
    rw [StringArg.Holds] at h
    rw [stringArgBytes, wp_pure, h]
    exact hQ

theorem wp_pushStringArg {a : StringArg} {b : List UInt8} {Q : StringPtr → GmatchState → Prop}
    (h : a.Holds s b) (hI : ∀ s', s.Extends s' → I s')
    (hQ : ∀ p s', s.Extends s' → s'.pool.get p = some b → Q p s') :
    wp (pushStringArg H a) Q (Fails M I) s := by
  cases a with
  | slot p =>
    rw [pushStringArg, wp_bind]
    exact wp_pushSlot hI fun s₁ h₁ => hQ p s₁ h₁ (h₁.pool p b h)
  | rendered b' =>
    rw [StringArg.Holds] at h
    rw [pushStringArg, h]
    exact wp_pushBytes hI fun p s₁ h₁ hp => hQ p s₁ h₁ hp

/-- An iterator over a subject and a pattern, at a position. -/
def IteratorAt (made : Bool) (subject pattern : List UInt8) (pos : Nat) (last : Option Nat)
    (s : GmatchState) : Prop :=
  if pattern = [] then EmptyAt made subject.length pos s
  else GeneralAt made subject pattern pos last s

/-- The position an iterator starts at; one past the end is where it returns nil. -/
def startPosition (subject : List UInt8) (init : Option Int) : Nat :=
  min (init.elim 0 (luaStartIndex subject.length)) (subject.length + 1)

/-- An iterator that was made is at its start position. -/
theorem wp_gmatch {subject pattern : List UInt8} {a b : StringArg} (ha : a.Holds s subject)
    (hb : b.Holds s pattern) (hsize : subject.length ≤ MAX_STRING_BYTES) (init : Option Int) :
    wp (gmatch H a b init)
      (fun emptyPattern s' => emptyPattern = decide (pattern = []) ∧
        IteratorAt true subject pattern (startPosition subject init) none s')
      (Fails M fun _ => True) s := by
  have hpos : startPosition subject init ≤ subject.length + 1 := Nat.min_le_right _ _
  have hindex : ∀ {n : Nat}, n ≤ subject.length + 1 → (Val.ofNat n).IsIndex n := fun h => by
    rw [MAX_STRING_BYTES] at hsize
    exact Val.isIndex_ofNat (by omega)
  have hany : ∀ s' : GmatchState, s.Extends s' → True := fun _ _ => trivial
  rw [gmatch, wp_bind]
  refine wp_stringArgBytes ha ?_
  rw [wp_bind]
  refine wp_stringArgBytes hb ?_
  rw [wp_bind]
  refine wp_chargeGmatch hany fun s₁ h₁ => ?_
  rw [wp_bind]
  refine wp_pushSlot (fun _ _ => trivial) fun s₂ h₂ => ?_
  have ha₂ := (ha.extends h₁).extends h₂
  have hb₂ := (hb.extends h₁).extends h₂
  rw [wp_bind, wp_modify]
  show wp (if pattern.length = 0 then _ else _) _ _ { s₂ with table := .empty }
  have hstage : Stage (fun _ => .nil) .nil { s₂ with table := .empty } := stage_empty
  have ha₃ : a.Holds { s₂ with table := .empty } subject := by
    cases a <;> exact ha₂
  have hb₃ : b.Holds { s₂ with table := .empty } pattern := by
    cases b <;> exact hb₂
  refine wp_ite (fun hempty => ?_) fun hne => ?_
  · -- The iterator over the empty pattern has a position and a length.
    obtain rfl : pattern = [] := List.length_eq_zero_iff.1 hempty
    rw [wp_bind]
    refine wp_setField hstage (by simp [Val.ofNat]) (by simp [Val.ofNat]) fun s₃ s₄ h₃ hpool₄ stage₄ => ?_
    rw [wp_bind]
    refine wp_setField stage₄ (by simp [Val.ofNat]) (by simp [Val.ofNat]) fun s₅ s₆ h₅ hpool₆ stage₆ => ?_
    refine ⟨rfl, ?_⟩
    have hlength : s₆.field LENGTH_FIELD = Val.ofNat subject.length := by
      rw [stage₆.fields, Function.update_self]
    have hposition : s₆.field POSITION_FIELD = Val.ofNat (startPosition subject init) := by
      rw [stage₆.fields, Function.update_of_ne (by decide), Function.update_self]
      rfl
    rw [IteratorAt, if_pos rfl]
    refine ⟨⟨stage₆.rooted, ⟨?_, hsize⟩, startPosition subject init, ?_, hpos⟩, ?_⟩
    · rw [hlength]
      exact hindex (Nat.le_succ _)
    · rw [hposition]
      exact hindex hpos
    · rw [hposition]
      exact hindex hpos
  · have hpattern : pattern ≠ [] := fun h => hne (List.length_eq_zero_iff.2 h)
    rw [wp_bind]
    refine wp_pushSlot (fun _ _ => trivial) fun s₃ h₃ => ?_
    rw [wp_bind]
    refine wp_pushBytes (fun _ _ => trivial) fun flagKey s₄ h₄ hflag₄ => ?_
    have stage₄ := (hstage.extends h₃).extends h₄
    rw [wp_bind]
    refine wp_insertField stage₄.rooted Val.isField_zero (by simp) fun t' hassigns => ?_
    have stage₅ := stage₄.writeSlot (by rw [hflag₄]; exact Option.some_ne_none _) hassigns
    have ha₅ : a.Holds { s₄ with table := t' } subject := by
      have := (ha₃.extends h₃).extends h₄
      cases a <;> exact this
    have hb₅ : b.Holds { s₄ with table := t' } pattern := by
      have := (hb₃.extends h₃).extends h₄
      cases b <;> exact this
    have hflag₅ : ({ s₄ with table := t' } : GmatchState).pool.get flagKey = some COMPILE_CHARGED_FIELD :=
      hflag₄
    generalize ({ s₄ with table := t' } : GmatchState) = s₅ at stage₅ ha₅ hb₅ hflag₅ ⊢
    rw [wp_bind]
    refine wp_pushBytes (fun _ _ => trivial) fun subjectKey s₆ h₆ hkey₆ => ?_
    rw [wp_bind]
    refine wp_pushStringArg (ha₅.extends h₆) (fun _ _ => trivial) fun p s₇ h₇ hp₇ => ?_
    have stage₇ := (stage₅.extends h₆).extends h₇
    rw [wp_bind]
    refine wp_setTableRaw stage₇.rooted (h₇.pool _ _ hkey₆) (by simp) fun s₈ hw₈ => ?_
    have stage₈ := stage₇.writes hw₈ fun q hq => by
      obtain rfl : p = q := Val.str.inj hq
      rw [hp₇]
      exact Option.some_ne_none _
    have hp₈ : s₈.pool.get p = some subject := by rw [hw₈.pool, hp₇]
    have hflag₈ : s₈.pool.get flagKey = some COMPILE_CHARGED_FIELD := by
      rw [hw₈.pool]
      exact h₇.pool _ _ (h₆.pool _ _ hflag₅)
    have hb₈ : b.Holds s₈ pattern := by
      have := (hb₅.extends h₆).extends h₇
      cases b with
      | slot q =>
        rw [StringArg.Holds, hw₈.pool]
        exact this
      | rendered bytes => exact this
    rw [wp_bind]
    refine wp_pushBytes (fun _ _ => trivial) fun patternKey s₉ h₉ hkey₉ => ?_
    rw [wp_bind]
    refine wp_pushStringArg (hb₈.extends h₉) (fun _ _ => trivial) fun q s₁₀ h₁₀ hq₁₀ => ?_
    have stage₁₀ := (stage₈.extends h₉).extends h₁₀
    rw [wp_bind]
    refine wp_setTableRaw stage₁₀.rooted (h₁₀.pool _ _ hkey₉) (by simp) fun s₁₁ hw₁₁ => ?_
    have stage₁₁ := stage₁₀.writes hw₁₁ fun r hr => by
      obtain rfl : q = r := Val.str.inj hr
      rw [hq₁₀]
      exact Option.some_ne_none _
    have hq₁₁ : s₁₁.pool.get q = some pattern := by rw [hw₁₁.pool, hq₁₀]
    have hkeep₁₁ : ∀ r c, s₈.pool.get r = some c → s₁₁.pool.get r = some c := fun r c hr => by
      rw [hw₁₁.pool]
      exact h₁₀.pool r c (h₉.pool r c hr)
    rw [wp_bind]
    refine wp_setField stage₁₁ (by simp [Val.ofNat]) (by simp [Val.ofNat]) fun s₁₂ s₁₃ h₁₂ hpool stage₁₃ => ?_
    refine ⟨(decide_eq_false hpattern).symm, ?_⟩
    have hkeep₁₃ : ∀ r c, s₁₁.pool.get r = some c → s₁₃.pool.get r = some c := fun r c hr => by
      rw [hpool]
      exact h₁₂.pool r c hr
    have hposition : s₁₃.field POSITION_FIELD = Val.ofNat (startPosition subject init) := by
      rw [stage₁₃.fields, Function.update_self]
      rfl
    have hpatternField : s₁₃.field PATTERN_FIELD = .str q := by
      rw [stage₁₃.fields, Function.update_of_ne (by decide), Function.update_self]
    have hsubjectField : s₁₃.field SUBJECT_FIELD = .str p := by
      rw [stage₁₃.fields, Function.update_of_ne (by decide), Function.update_of_ne (by decide),
        Function.update_self]
    have hnil : ∀ f, f ≠ POSITION_FIELD → f ≠ PATTERN_FIELD → f ≠ SUBJECT_FIELD →
        s₁₃.field f = .nil := fun f h h' h'' => by
      rw [stage₁₃.fields, Function.update_of_ne h, Function.update_of_ne h', Function.update_of_ne h'']
    have htext : ∃ r, s₁₃.field PATTERN_FIELD = .str r ∧ s₁₃.pool.get r = some pattern :=
      ⟨q, hpatternField, hkeep₁₃ _ _ hq₁₁⟩
    rw [IteratorAt, if_neg hpattern]
    refine ⟨⟨stage₁₃.rooted, hsize, ⟨p, hsubjectField, hkeep₁₃ _ _ (hkeep₁₁ _ _ hp₈)⟩, ?_,
      ⟨startPosition subject init, ?_, hpos⟩, .inl (hnil _ (by decide) (by decide) (by decide)),
      ⟨flagKey, stage₁₃.slot, hkeep₁₃ _ _ (hkeep₁₁ _ _ hflag₈)⟩,
      .inl (hnil _ (by decide) (by decide) (by decide))⟩, htext, ?_,
      hnil _ (by decide) (by decide) (by decide)⟩
    · obtain ⟨r, hr⟩ := htext
      exact ⟨r, pattern, hr⟩
    · rw [hposition]
      exact hindex hpos
    · rw [hposition]
      exact hindex hpos

end Constructor

end Steps

end Dellingr
