import Dellingr.LuaStd.GmatchSound
import Dellingr.LuaStd.GsubReference

/-!
# The matches of `string.gmatch`

The calls of an iterator of `string.gmatch` return the captures of the matches that the loop of
`string.gsub` replaces, one after the other, and nil from then on (`enumerates_of_calls`). A call that
fails, because a limit stops it or the host refuses it something, is made again: it has not moved the
iterator.

A `^` at the start of a pattern is an anchor to `string.gsub` and a byte to `string.gmatch`, so the two
agree on the patterns that do not start with one.
-/

namespace Dellingr

open Effect Patterns

namespace Patterns.Reference

/-- The next step that is not a copy, and the steps after it. -/
def upcoming : List Piece → Option (Piece × List Piece)
  | [] => none
  | .copy _ :: rest => upcoming rest
  | piece :: rest => some (piece, rest)

theorem upcoming_runs (runs : List (List UInt8)) (rest : List Piece) :
    upcoming (runs.map .copy ++ rest) = upcoming rest := by
  induction runs with
  | nil => rfl
  | cons run runs ih => exact ih

theorem upcoming_copies (bytes : List UInt8) (rest : List Piece) :
    upcoming (copies bytes ++ rest) = upcoming rest := by
  rw [copies_eq]
  exact upcoming_runs _ rest

theorem upcoming_copies_only (runs : List (List UInt8)) : upcoming (runs.map .copy) = none := by
  have := upcoming_runs runs []
  rwa [List.append_nil] at this

/-- No start of a pattern is an anchor to `string.gmatch`. -/
theorem strFind_literal {lone : UInt8 → Bool} {subject pattern : List UInt8} {pos : Nat} :
    strFind lone subject pattern (AnchorMode.literal.effective pattern) pos =
      searchLoop lone subject false pattern (subject.length - pos) pos := by
  rw [AnchorMode.effective]
  split
  · rfl
  · rename_i hhead
    rw [strFind, beq_false_of_ne hhead]
    rfl

end Patterns.Reference

open Patterns.Reference

section Search

variable {interrupt : Nat → Bool} {subject pattern : List UInt8} {last : Option Nat} {m : LuaPattern}
  {pieces : List Piece} {fuel n search cnt pos : Nat} {clock : Clock}

/-- The loop over the matches of a pattern from a position on has these steps. -/
def Remaining (subject pattern : List UInt8) (pos : Nat) (last : Option Nat) (pieces : List Piece) : Prop :=
  ∃ fuel cnt, gsubLoop literalLone subject false pattern none fuel pos cnt last = some pieces

/-- Why a search fails with an error of the pattern: it is malformed, or it is too deep for the
    matcher, or the match has a capture that is not closed. -/
def MatchFault (pattern : List UInt8) (next : Option (Piece × List Piece)) (pe : PatternError) : Prop :=
  (∃ rest, next = some (.malformed pe, rest)) ∨
    (pe = .matchDepthExceeded ∧ maxCCalls ≤
      (compile pattern (AnchorMode.literal.effective pattern)).items.countP Item.deepens) ∨
    (pe = .unfinishedCapture ∧ ∃ start stop caps rest,
      next = some (.replace start stop caps, rest) ∧ .unfinished ∈ seenCaptures start stop caps)

/-- What a search finds is the next match that is replaced. -/
def NextMatch (subject pattern : List UInt8) (next : Option (Piece × List Piece)) :
    Option LuaPattern → Prop
  | none => next = none
  | some m => ∃ start stop caps rest,
    m.Reports pattern (AnchorMode.literal.effective pattern) subject start stop caps ∧
      next = some (.replace start stop caps, rest) ∧ Remaining subject pattern stop (some stop) rest

theorem wp_answers {mode : AnchorMode} (hm : m.compiled = compile pattern mode)
    (hslots : m.slots.length = luaMaxCaptures) (hpos : pos ≤ subject.length) :
    wp (m.matchesBytesFrom subject pos interrupt)
      (fun r clock => LuaPattern.Answers pattern mode subject interrupt
        (strFind literalLone subject pattern mode pos) (.ok r clock))
      (fun e clock => LuaPattern.Answers pattern mode subject interrupt
        (strFind literalLone subject pattern mode pos) (.fail e clock)) clock := by
  have h := @LuaPattern.matchesBytesFrom_answers m pattern subject mode interrupt pos hm hslots hpos clock
  rw [wp]
  cases hr : m.matchesBytesFrom subject pos interrupt clock with
  | timeout => trivial
  | _ =>
    rw [hr] at h
    exact h

/-- A search finds the next match that is replaced, or it goes on with the next position. -/
theorem wp_gmatchTry_next {again : LuaPattern → Effect Clock MatchError (Option LuaPattern)}
    (hm : m.compiled = compile pattern (AnchorMode.literal.effective pattern))
    (hslots : m.slots.length = luaMaxCaptures) (hsearch : search ≤ subject.length)
    (hlast : ∀ l ∈ last, l ≤ search) (h : Remaining subject pattern search last pieces)
    (hagain : search < subject.length → ∀ (m : LuaPattern) (rest : List Piece) (clock : Clock),
      m.compiled = compile pattern (AnchorMode.literal.effective pattern) →
        m.slots.length = luaMaxCaptures → upcoming rest = upcoming pieces →
          Remaining subject pattern (search + 1) last rest →
            wp (again m) (fun r _ => NextMatch subject pattern (upcoming pieces) r)
              (fun e _ => ∀ pe, e = .pattern pe → MatchFault pattern (upcoming pieces) pe) clock) :
    wp (gmatchTry interrupt subject last search m again)
      (fun r _ => NextMatch subject pattern (upcoming pieces) r)
      (fun e _ => ∀ pe, e = .pattern pe → MatchFault pattern (upcoming pieces) pe) clock := by
  obtain ⟨fuel, cnt, h⟩ := h
  have hlimit : ¬(none : Option Nat).any (· ≤ cnt) = true := Bool.false_ne_true
  have hreaches := @searchLoop_reaches literalLone subject false pattern search
    (subject.length - search) (by omega)
  rw [gmatchTry, wp_bind]
  refine wp_mono (wp_answers hm hslots hsearch) ?_ ?_
  · rintro ⟨_ | _, m⟩ clock hanswer
    · have hnone := strFind_literal.symm.trans (show strFind _ _ _ _ _ = .ok none from hanswer)
      rw [hnone] at hreaches
      obtain ⟨start, hreach, hmatch, hend⟩ := hreaches
      obtain ⟨runs, rfl, -⟩ := gsubLoop_missed hreach hmatch hend hlimit h
      exact upcoming_copies_only runs
    · obtain ⟨start, stop, caps, href, hreports⟩ := hanswer
      rw [strFind_literal.symm.trans href] at hreaches
      obtain ⟨hreach, hmatch⟩ := hreaches
      obtain ⟨hle, hstop⟩ : start ≤ stop ∧ stop ≤ subject.length :=
        hreports.within _ List.mem_cons_self
      simp only [if_true, wp_bind, wp_demand hreports.range]
      refine wp_ite (fun hrejected => ?_) fun haccepted => ?_
      · obtain ⟨rfl, hl⟩ := hrejected
        obtain rfl : start = search := Nat.le_antisymm (hlast start hl) hreach.le
        rcases gsubLoop_rejected hmatch hl hlimit h with ⟨hge, rfl⟩ | ⟨fuel, rest, hlt, rfl, hrest⟩
        · rw [if_pos (Nat.le_antisymm hsearch hge)]
          exact upcoming_copies_only [subject.drop start]
        · rw [if_neg (Nat.ne_of_lt hlt)]
          exact hagain hlt m rest clock hreports.compiled hreports.slots (upcoming_copies _ rest).symm
            ⟨fuel, cnt, hrest⟩
      · have hne : last ≠ some stop := fun hl => haccepted ⟨by
          have := hlast stop hl
          have := hreach.le
          omega, hl⟩
        obtain ⟨fuel, rest, rfl, hrest⟩ := gsubLoop_found hreach hmatch hne hlimit h
        exact ⟨start, stop, caps, rest, hreports, upcoming_copies _ _, fuel, cnt + 1, hrest⟩
  · rintro e clock (hlim | ⟨pe', rfl, href⟩) pe hpe
    · subst hpe
      cases pe with
      | matchDepthExceeded => exact .inr (.inl ⟨rfl, hlim⟩)
      | _ => exact hlim.elim
    · cases hpe
      rw [strFind_literal.symm.trans href] at hreaches
      obtain ⟨start, hreach, hmatch⟩ := hreaches
      rw [gsubLoop_malformed hreach hmatch hlimit h, upcoming_copies]
      exact .inl ⟨[], rfl⟩

/-- A search from a position on finds the next match that is replaced. -/
theorem wp_gmatchLoop_next
    (hm : m.compiled = compile pattern (AnchorMode.literal.effective pattern))
    (hslots : m.slots.length = luaMaxCaptures) (hn : search + n = subject.length)
    (hlast : ∀ l ∈ last, l ≤ search) (h : Remaining subject pattern search last pieces) :
    wp (gmatchLoop interrupt subject last n search m)
      (fun r _ => NextMatch subject pattern (upcoming pieces) r)
      (fun e _ => ∀ pe, e = .pattern pe → MatchFault pattern (upcoming pieces) pe) clock := by
  induction n generalizing search m pieces clock with
  | zero => exact wp_gmatchTry_next hm hslots (by omega) hlast h fun hlt => by omega
  | succ n ih =>
    refine wp_gmatchTry_next hm hslots (by omega) hlast h fun _ m rest clock hm hslots heq hrest => ?_
    rw [← heq]
    exact ih hm hslots (by omega) (fun l hmem => Nat.le_succ_of_le (hlast l hmem)) hrest

/-- The range and the captures of the next match that is replaced. -/
def NextFound (subject pattern : List UInt8) (next : Option (Piece × List Piece)) :
    Option ((Nat × Nat) × List LuaCapture) → Prop
  | none => next = none
  | some ((_, stop), captures) => ∃ start caps rest, captures = seenCaptures start stop caps ∧
    next = some (.replace start stop caps, rest) ∧ Remaining subject pattern stop (some stop) rest

/-- A search from a position of the subject gives the next match that is replaced. -/
theorem searches_next {H : GmatchHost} (hpos : pos ≤ subject.length) (hlast : ∀ l ∈ last, l ≤ pos)
    (h : Remaining subject pattern pos last pieces) :
    Searches H (MatchFault pattern (upcoming pieces)) (NextFound subject pattern (upcoming pieces)) subject
      pattern pos last where
  finds clock := by
    rw [gmatchSearch, wp_bind]
    refine wp_mono_ok (wp_gmatchLoop_next rfl List.length_replicate (by omega) hlast h) fun r clock hr => ?_
    cases r with
    | none => exact ⟨hr, by rintro _ _ ⟨⟩⟩
    | some m =>
      obtain ⟨start, stop, caps, rest, hreports, hnext, hrest⟩ := hr
      rw [wp_bind, wp_demand hreports.range, mapM_capture hreports, wp_bind, wp_pure]
      refine ⟨⟨start, caps, rest, rfl, hnext, hrest⟩, ?_⟩
      rintro _ _ ⟨⟩
      have hwithin : start ≤ stop ∧ stop ≤ subject.length := hreports.within _ List.mem_cons_self
      exact ⟨hwithin.2, List.cons_ne_nil _ _, hreports.within⟩
  unfinished range captures hfound hmem := by
    obtain ⟨start, stop⟩ := range
    obtain ⟨start, caps, rest, rfl, hnext, -⟩ := hfound
    exact .inr (.inr ⟨rfl, start, stop, caps, rest, hnext, hmem⟩)

end Search

/-! ## A call -/

section Call

variable {H : GmatchHost} {made : Bool} {subject pattern : List UInt8} {pos : Nat} {last : Option Nat}
  {pieces : List Piece} {next : Option (Piece × List Piece)} {s s' : GmatchState}

/-- What an iterator at a position has before it; past the end of the subject there is no match. No
    match ended after the position, and none at a position of the iterator over the empty pattern. -/
structure Pending (subject pattern : List UInt8) (pos : Nat) (last : Option Nat) (pieces : List Piece) :
    Prop where
  remaining : pos ≤ subject.length → Remaining subject pattern pos last pieces
  past : subject.length < pos → upcoming pieces = none
  last_le : ∀ l ∈ last, l ≤ pos
  fresh : pattern = [] → last ≠ some pos

/-- An iterator that has this match before it. -/
def IteratesOn (made : Bool) (subject pattern : List UInt8) (next : Option (Piece × List Piece))
    (s : GmatchState) : Prop :=
  ∃ pos last pieces, IteratorAt made subject pattern pos last s ∧
    Pending subject pattern pos last pieces ∧ upcoming pieces = next

/-- What a call returns: the captures of the next match, or nil when there is none. -/
def Returns (made : Bool) (subject pattern : List UInt8) (next : Option (Piece × List Piece))
    (results : List Val) (s : GmatchState) : Prop :=
  match next with
  | some (.replace start stop caps, rest) =>
    List.Forall₂ (Denotes s subject) (returnedCaptures (seenCaptures start stop caps)) results ∧
      IteratesOn made subject pattern (upcoming rest) s
  | some _ => False
  | none => results = [.nil] ∧ IteratesOn made subject pattern none s

theorem IteratorAt.drifts (h : IteratorAt made subject pattern pos last s) (hd : s.Drifts s') :
    IteratorAt made subject pattern pos last s' := by
  rw [IteratorAt] at h ⊢
  split at h
  · rename_i hempty
    rw [if_pos hempty]
    exact EmptyAt.drifts h hd
  · rename_i hne
    rw [if_neg hne]
    exact GeneralAt.drifts h hd

/-- The iterator keeps its place between calls. -/
theorem IteratesOn.drifts (h : IteratesOn made subject pattern next s) (hd : s.Drifts s') :
    IteratesOn made subject pattern next s' := by
  obtain ⟨pos, last, pieces, hat, hpending⟩ := h
  exact ⟨pos, last, pieces, hat.drifts hd, hpending⟩

/-- The general iterator returns the next match. -/
theorem wp_gmatchIter_next (hne : pattern ≠ []) (h : GeneralAt made subject pattern pos last s)
    (hp : Pending subject pattern pos last pieces) :
    wp (gmatchIter H) (Returns made subject pattern (upcoming pieces))
      (Fails (MatchFault pattern (upcoming pieces)) (IteratesOn made subject pattern (upcoming pieces)))
      s := by
  have hat : ∀ {pos last s}, GeneralAt made subject pattern pos last s →
      IteratorAt made subject pattern pos last s := fun h => by
    rw [IteratorAt, if_neg hne]
    exact h
  refine wp_mono (wp_gmatchIter h fun hpos => searches_next hpos hp.last_le (hp.remaining hpos)) ?_ ?_
  · intro results s' hr
    split at hr
    · rename_i hpast
      rw [hp.past hpast]
      exact ⟨hr.1, pos, last, pieces, hat hr.2, hp, hp.past hpast⟩
    · obtain ⟨r, hfound, hadv⟩ := hr
      rcases r with _ | ⟨⟨start', stop⟩, captures⟩
      · obtain ⟨rfl, hat'⟩ := hadv
        rw [show upcoming pieces = none from hfound]
        exact ⟨rfl, pos, last, pieces, hat hat', hp, hfound⟩
      · obtain ⟨start, caps, rest, rfl, hnext, hrest⟩ := hfound
        rw [hnext]
        refine ⟨hadv.1, stop, some stop, rest, hat hadv.2, ⟨fun _ => hrest, fun hpast => ?_, ?_, ?_⟩, rfl⟩
        · obtain ⟨i, hi, hle⟩ := hadv.2.ok.last.resolve_left fun hnil => by
            obtain ⟨n, hn, -⟩ : (s'.field GmatchSchema.LAST_MATCH_FIELD).IsIndex stop := hadv.2.previous
            rw [hnil] at hn
            cases hn
          rw [Val.IsIndex.unique (hadv.2.previous : Val.IsIndex _ _) hi] at hpast
          omega
        · exact fun l hl => Nat.le_of_eq (Option.some.inj hl).symm
        · exact fun hempty => absurd hempty hne
  · rintro e s' ⟨hinternal, hfault, hat'⟩
    exact ⟨hinternal, hfault, pos, last, pieces, hat hat', hp, rfl⟩

/-- The empty pattern matches everywhere. -/
theorem Pending.empty (hp : Pending subject [] pos last pieces) (hpos : pos ≤ subject.length) :
    ∃ rest rest', upcoming pieces = some (.replace pos pos [], rest) ∧
      upcoming rest = upcoming rest' ∧ Pending subject [] (pos + 1) (some pos) rest' := by
  obtain ⟨fuel, cnt, h⟩ := hp.remaining hpos
  have hmatch : doMatch literalLone subject 0 [] pos [] = .ok (some (pos, [])) := rfl
  have hreach : Reaches literalLone subject false [] pos pos := reaches_self hpos
  have hlimit : ∀ n, ¬(none : Option Nat).any (· ≤ n) = true := fun _ => Bool.false_ne_true
  obtain ⟨fuel, rest, rfl, hrest⟩ := gsubLoop_found hreach hmatch (hp.fresh rfl) (hlimit _) h
  have hlast : ∀ l ∈ some pos, l ≤ pos + 1 := fun l hl => by
    cases hl
    exact Nat.le_succ pos
  have hfresh : ([] : List UInt8) = [] → some pos ≠ some (pos + 1) := fun _ h => by
    cases h
  rcases gsubLoop_rejected hmatch rfl (hlimit _) hrest with ⟨hge, rfl⟩ | ⟨fuel, rest', hlt, rfl, hrest'⟩
  · exact ⟨_, [], upcoming_copies _ _, rfl, fun h => by omega, fun _ => rfl, hlast, hfresh⟩
  · exact ⟨_, rest', upcoming_copies _ _, upcoming_copies _ _, fun _ => ⟨fuel, _, hrest'⟩,
      fun h => by omega, hlast, hfresh⟩

/-- The iterator over the empty pattern returns the next match. -/
theorem wp_gmatchEmptyIter_next (h : EmptyAt made subject.length pos s)
    (hp : Pending subject [] pos last pieces) :
    wp (gmatchEmptyIter H) (Returns made subject [] (upcoming pieces))
      (Fails (MatchFault [] (upcoming pieces)) (IteratesOn made subject [] (upcoming pieces))) s := by
  have hcall := @wp_gmatchEmptyIter H made s (MatchFault [] (upcoming pieces)) subject.length pos h
  refine wp_mono hcall ?_ ?_
  · intro results s' hr
    split at hr
    · rename_i hpast
      rw [hp.past hpast]
      exact ⟨hr.1, pos, last, pieces, hr.2, hp, hp.past hpast⟩
    · rename_i hin
      obtain ⟨⟨p, rfl, hempty⟩, hat⟩ := hr
      obtain ⟨rest, rest', hnext, hrest, hp'⟩ := hp.empty (Nat.le_of_not_lt hin)
      rw [hnext]
      refine ⟨.cons ⟨p, rfl, ?_⟩ .nil, pos + 1, some pos, rest', hat, hp', hrest.symm⟩
      rw [hempty, List.drop_eq_nil_of_le (List.length_take_le _ _)]
  · rintro e s' ⟨hinternal, hfault, hat⟩
    exact ⟨hinternal, hfault, pos, last, pieces, hat, hp, rfl⟩

/-- A call returns the next match, or it fails and leaves the match to the next call. -/
theorem wp_gmatchNext_next (h : IteratesOn made subject pattern next s) :
    wp (gmatchNext H (decide (pattern = []))) (Returns made subject pattern next)
      (Fails (MatchFault pattern next) (IteratesOn made subject pattern next)) s := by
  obtain ⟨pos, last, pieces, hat, hp, rfl⟩ := h
  rw [gmatchNext]
  by_cases hempty : pattern = []
  · subst hempty
    exact wp_gmatchEmptyIter_next hat hp
  · rw [if_neg (by simpa using hempty)]
    rw [IteratorAt, if_neg hempty] at hat
    exact wp_gmatchIter_next hempty hat hp

end Call

/-! ## Calls end -/

section Settles

variable {H : GmatchHost} {subject : List UInt8}

theorem settles_pushSlot : Settles (pushSlot H) :=
  settles_get.bind fun _ => settles_modify.bind fun _ => settles_fail.ite settles_pure

theorem settles_pushBytes {bytes : List UInt8} : Settles (pushBytes H bytes) :=
  settles_pushSlot.bind fun _ => settles_fail.ite (settles_get.bind fun _ => settles_modify.bind fun _ =>
    settles_pure)

theorem settles_getTableRaw {key : Val} : Settles (getTableRaw key) :=
  settles_get.bind fun _ => settles_pure

theorem settles_setTableRaw {key value : Val} : Settles (setTableRaw H key value) := by
  refine settles_get.bind fun _ => settles_demand.bind fun r => settles_modify.bind fun _ => ?_
  rcases r with ⟨e | _, table⟩
  · exact settles_fail
  · exact settles_pure

theorem settles_getField {field : List UInt8} : Settles (getField H field) :=
  settles_pushBytes.bind fun _ => settles_getTableRaw

theorem settles_toBytes {p : StringPtr} : Settles (toBytes p) :=
  settles_get.bind fun _ => settles_demand

theorem settles_chargeGmatch {units : Nat} : Settles (chargeGmatch units) :=
  settles_get.bind fun _ => settles_modify.bind fun _ => settles_pure.ite settles_fail

theorem settles_gmatchStateIndex {field : List UInt8} {maximum : Nat} {v : Val} :
    Settles (gmatchStateIndex field maximum v) := by
  cases v with
  | num n =>
    rw [gmatchStateIndex]
    cases integerIndex n maximum with
    | some i => exact settles_pure
    | none => exact settles_fail
  | _ => exact settles_fail

theorem settles_gmatchEmptyIter : Settles (gmatchEmptyIter H) := by
  refine settles_getField.bind fun _ => settles_gmatchStateIndex.bind fun _ => ?_
  refine settles_getField.bind fun _ => settles_gmatchStateIndex.bind fun _ => ?_
  refine settles_fail.ite ((settles_pushSlot.bind fun _ => settles_pure).ite ?_)
  exact settles_pushBytes.bind fun _ => settles_pushBytes.bind fun _ => settles_pushSlot.bind fun _ =>
    settles_setTableRaw.bind fun _ => settles_pure

theorem settles_pushGmatchStringField {field : List UInt8} : Settles (pushGmatchStringField H field) := by
  refine settles_getField.bind fun v => ?_
  cases v with
  | str p => exact settles_pure
  | _ => exact settles_fail

theorem settles_lastMatch : Settles (lastMatch H) := by
  refine settles_getField.bind fun v => ?_
  cases v with
  | nil => exact settles_pure
  | num n =>
    show Settles (some <$> gmatchStateIndex GmatchSchema.LAST_MATCH_FIELD MAX_STRING_BYTES (.num n))
    rw [map_eq_pure_bind]
    exact settles_gmatchStateIndex.bind fun _ => settles_pure
  | _ => exact settles_fail

theorem settles_gmatchTry {interrupt : Nat → Bool} {last : Option Nat} {search : Nat} {m : LuaPattern}
    {again : LuaPattern → Effect Clock MatchError (Option LuaPattern)} (h : ∀ m, Settles (again m)) :
    Settles (gmatchTry interrupt subject last search m again) := by
  refine LuaPattern.settles_matchesBytesFrom.bind fun r => Settles.ite ?_ settles_pure
  exact settles_demand.bind fun _ => (settles_pure.ite (h _)).ite settles_pure

theorem settles_gmatchLoop {interrupt : Nat → Bool} {last : Option Nat} {n search : Nat}
    {m : LuaPattern} : Settles (gmatchLoop interrupt subject last n search m) := by
  induction n generalizing search m with
  | zero => exact settles_gmatchTry fun _ => settles_panic
  | succ n ih => exact settles_gmatchTry fun _ => ih

theorem settles_mapM {σ ε α β : Type} {l : List α} {f : α → Effect σ ε β} (h : ∀ a, Settles (f a)) :
    Settles (l.mapM f) := by
  induction l with
  | nil => exact settles_pure
  | cons a l ih =>
    rw [List.mapM_cons]
    exact (h a).bind fun _ => ih.bind fun _ => settles_pure

theorem settles_gmatchSearch {interrupt : Nat → Bool} {pattern : List UInt8} {pos : Nat}
    {last : Option Nat} : Settles (gmatchSearch interrupt subject pattern pos last) := by
  refine settles_gmatchLoop.bind fun r => ?_
  cases r with
  | none => exact settles_pure
  | some m =>
    exact settles_demand.bind fun _ => (settles_mapM fun _ => settles_demand).bind fun _ => settles_pure

theorem settles_withGmatchMatcher {α : Type} {m : Effect Clock MatchError α} (h : Settles m) :
    Settles (withGmatchMatcher m) := by
  intro s
  rw [withGmatchMatcher]
  split
  · rintro ⟨⟩
  · rintro ⟨⟩
  · rintro ⟨⟩
  · rename_i hm
    exact absurd hm (h _)

theorem settles_compileCharged : Settles (compileCharged H) := by
  refine settles_pushSlot.bind fun _ => settles_getTableRaw.bind fun v => ?_
  cases v with
  | str key =>
    refine settles_toBytes.bind fun _ => Settles.ite ?_ settles_fail
    refine settles_getTableRaw.bind fun flag => ?_
    cases flag with
    | nil => exact settles_pure
    | bool b =>
      cases b with
      | true => exact settles_pure
      | false => exact settles_fail
    | _ => exact settles_fail
  | _ => exact settles_fail

theorem settles_chargeCompile {p : StringPtr} : Settles (chargeCompile H p) :=
  settles_toBytes.bind fun _ => settles_chargeGmatch.bind fun _ => settles_pushSlot.bind fun _ =>
    settles_getTableRaw.bind fun _ => settles_pushSlot.bind fun _ => settles_setTableRaw

theorem settles_captureBytes {captures : List LuaCapture} : Settles (captureBytes captures) := by
  induction captures with
  | nil => exact settles_pure
  | cons c captures ih =>
    cases c with
    | unfinished => exact settles_fail
    | bytes start stop => exact ih.bind fun _ => settles_pure
    | position offset => exact ih

theorem settles_pushGmatchCapture {p : StringPtr} {c : LuaCapture} :
    Settles (pushGmatchCapture H p c) := by
  cases c with
  | bytes start stop =>
    exact settles_toBytes.bind fun _ => Settles.ite (settles_pushBytes.bind fun _ => settles_pure)
      settles_fail
  | position offset => exact settles_pushSlot.bind fun _ => settles_pure
  | unfinished => exact settles_fail

theorem settles_returnCaptures {p : StringPtr} {captures : List LuaCapture} :
    Settles (returnCaptures H p captures) := by
  refine settles_require.bind fun _ => ?_
  refine (settles_captureBytes.bind fun _ => settles_chargeGmatch).bind fun _ => ?_
  exact settles_fail.ite (settles_mapM fun _ => settles_pushGmatchCapture)

theorem settles_commitMatch {stop : Nat} : Settles (commitMatch H stop) :=
  settles_pushBytes.bind fun _ => settles_pushSlot.bind fun _ => settles_pushBytes.bind fun _ =>
    settles_pushSlot.bind fun _ => settles_setTableRaw.bind fun _ => settles_setTableRaw

theorem settles_gmatchAdvance {p q : StringPtr} {pos : Nat} {last : Option Nat} :
    Settles (gmatchAdvance H p q subject pos last) := by
  refine settles_toBytes.bind fun _ => ?_
  refine (settles_withGmatchMatcher settles_gmatchSearch).bind fun r => ?_
  cases r with
  | none => exact settles_pushSlot.bind fun _ => settles_pure
  | some r =>
    exact settles_returnCaptures.bind fun _ => settles_commitMatch.bind fun _ => settles_pure

theorem settles_gmatchIter : Settles (gmatchIter H) := by
  refine settles_pushGmatchStringField.bind fun _ => settles_pushGmatchStringField.bind fun _ => ?_
  refine settles_getField.bind fun _ => settles_gmatchStateIndex.bind fun _ => ?_
  refine settles_lastMatch.bind fun _ => settles_toBytes.bind fun _ => ?_
  refine settles_fail.ite (settles_fail.ite ((settles_pushSlot.bind fun _ => settles_pure).ite ?_))
  refine settles_compileCharged.bind fun r => ?_
  exact Settles.ite (settles_chargeCompile.bind fun _ => settles_gmatchAdvance) settles_gmatchAdvance

/-- A call of an iterator ends, whatever its state. -/
theorem settles_gmatchNext {emptyPattern : Bool} : Settles (gmatchNext H emptyPattern) :=
  settles_gmatchEmptyIter.ite settles_gmatchIter

end Settles

/-! ## Calls of an iterator -/

/-- What a call of an iterator did: it returned values, which are in the state it left, or it failed. -/
inductive GmatchEvent
  | returned (results : List Val) (s : GmatchState)
  | failed (e : GmatchError)

/-- Calls of an iterator from a state to another one. Each is made on a host of its own, and between
    them strings come and go, but those of the state table stay. -/
inductive GmatchCalls (emptyPattern : Bool) : GmatchState → List GmatchEvent → GmatchState → Prop
  | nil (s : GmatchState) : GmatchCalls emptyPattern s [] s
  | returned {H : GmatchHost} {s s₁ s₂ s' : GmatchState} {results : List Val} {events : List GmatchEvent}
      (hdrift : s.Drifts s₁) (hcall : gmatchNext H emptyPattern s₁ = .ok results s₂)
      (hcalls : GmatchCalls emptyPattern s₂ events s') :
      GmatchCalls emptyPattern s (.returned results s₂ :: events) s'
  | failed {H : GmatchHost} {s s₁ s₂ s' : GmatchState} {e : GmatchError} {events : List GmatchEvent}
      (hdrift : s.Drifts s₁) (hcall : gmatchNext H emptyPattern s₁ = .fail e s₂)
      (hcalls : GmatchCalls emptyPattern s₂ events s') :
      GmatchCalls emptyPattern s (.failed e :: events) s'

/-- Calls return the captures of the matches to come, one after the other, and nil when there are none
    left. A call that fails is no bug of the library; if it fails for the pattern, there is a reason for
    it. -/
def Enumerates (subject pattern : List UInt8) :
    Option (Piece × List Piece) → List GmatchEvent → Prop
  | _, [] => True
  | next, .failed e :: events =>
    ¬e.IsInternal ∧ (∀ pe, e = .pattern pe → MatchFault pattern next pe) ∧
      Enumerates subject pattern next events
  | some (.replace start stop caps, rest), .returned results s :: events =>
    List.Forall₂ (Denotes s subject) (returnedCaptures (seenCaptures start stop caps)) results ∧
      Enumerates subject pattern (upcoming rest) events
  | some _, .returned _ _ :: _ => False
  | none, .returned results _ :: events =>
    results = [.nil] ∧ Enumerates subject pattern none events

section Calls

variable {made : Bool} {subject pattern : List UInt8} {next : Option (Piece × List Piece)}
  {s s' : GmatchState} {events : List GmatchEvent}

/-- The calls of an iterator enumerate the matches it has before it, and the next call ends. -/
theorem enumerates_of_calls (hcalls : GmatchCalls (decide (pattern = [])) s events s')
    (h : IteratesOn made subject pattern next s) :
    Enumerates subject pattern next events ∧ ∃ next, IteratesOn made subject pattern next s' := by
  induction hcalls generalizing next with
  | nil s =>
    cases next with
    | none => exact ⟨trivial, none, h⟩
    | some p => exact ⟨trivial, some p, h⟩
  | @returned H s s₁ s₂ s' results events hdrift hcall hcalls ih =>
    have hret : Returns made subject pattern next results s₂ := by
      have := wp_gmatchNext_next (H := H) (h.drifts hdrift)
      rwa [wp, hcall] at this
    rcases next with _ | ⟨bytes | ⟨start, stop, caps⟩ | e, rest⟩
    · exact ⟨⟨hret.1, (ih hret.2).1⟩, (ih hret.2).2⟩
    · exact hret.elim
    · exact ⟨⟨hret.1, (ih hret.2).1⟩, (ih hret.2).2⟩
    · exact hret.elim
  | @failed H s s₁ s₂ s' e events hdrift hcall hcalls ih =>
    have hfail : Fails (MatchFault pattern next) (IteratesOn made subject pattern next) e s₂ := by
      have := wp_gmatchNext_next (H := H) (h.drifts hdrift)
      rwa [wp, hcall] at this
    obtain ⟨hrest, hnext⟩ := ih hfail.2.2
    refine ⟨?_, hnext⟩
    cases next with
    | none => exact ⟨hfail.1, hfail.2.1, hrest⟩
    | some p => exact ⟨hfail.1, hfail.2.1, hrest⟩

/-- An iterator that was made has the matches of the loop of `string.gsub` before it. -/
theorem iteratesOn_gmatch {H : GmatchHost} {a b : StringArg} {pieces : List Piece} {emptyPattern : Bool}
    (hsize : subject.length ≤ MAX_STRING_BYTES) (hhead : pattern.head? ≠ some (ascii '^'))
    (hpieces : gsubPieces literalLone subject none pattern = some pieces)
    (ha : a.Holds s subject) (hb : b.Holds s pattern)
    (hcall : gmatch H a b none s = .ok emptyPattern s') :
    emptyPattern = decide (pattern = []) ∧ IteratesOn true subject pattern (upcoming pieces) s' := by
  have hmade := @wp_gmatch H s (fun _ => True) subject pattern a b ha hb hsize none
  rw [wp, hcall] at hmade
  obtain ⟨hempty, hat⟩ := hmade
  rw [gsubPieces, beq_false_of_ne hhead, if_neg Bool.false_ne_true] at hpieces
  have hstart : startPosition subject none = 0 := Nat.zero_min _
  rw [hstart] at hat
  exact ⟨hempty, 0, none, pieces, hat, ⟨fun _ => ⟨_, _, hpieces⟩, fun h => absurd h (Nat.not_lt_zero _),
    by rintro _ ⟨⟩, by rintro - ⟨⟩⟩, rfl⟩

theorem ends_gmatchNext {H : GmatchHost} (h : IteratesOn made subject pattern next s) :
    ends (gmatchNext H (decide (pattern = []))) (fun _ _ => True) s := by
  have hnext := wp_gmatchNext_next (H := H) h
  rw [wp] at hnext
  rw [ends]
  cases hrun : gmatchNext H (decide (pattern = [])) s with
  | ok results s' => trivial
  | fail e s' => trivial
  | panic =>
    rw [hrun] at hnext
    exact hnext
  | timeout => exact absurd hrun (settles_gmatchNext s)

end Calls

/-! ## The paths of `string.gsub`, and `string.gmatch` -/

/-- The paths of `string.gsub` for the empty pattern and for patterns without magic give what the
    general one gives, and that gives what the loop of Lua gives, unless a limit stops one of them; it
    always ends. The calls of an iterator of `string.gmatch`, which all end, return the captures of the
    matches that the loop replaces, if the pattern does not start with `^`. -/
theorem gsub_paths_agree {ι ε : Type} {interrupt : Nat → Bool} {repl : Replacement ι ε}
    (hrepl : repl.Steady interrupt) {subject : List UInt8} (hsize : subject.length ≤ MAX_STRING_BYTES)
    (pattern : List UInt8) (limit : Option Nat) {s t : GsubState ι} (hs : InStep s t) :
    (pattern = [] →
      relUnless (GsubStop interrupt) (GsubStop interrupt)
        (gsubLuaPattern interrupt repl subject limit pattern)
        (gsubEmptyPattern interrupt repl subject limit) (fun r s r' t => r = r' ∧ s.world = t.world)
        s t) ∧
    (isPlain pattern = true → pattern ≠ [] →
      relUnless (GsubStop interrupt) (GsubStop interrupt)
        (gsubLuaPattern interrupt repl subject limit pattern)
        (gsubPlainPattern interrupt repl subject limit pattern)
        (fun r s r' t => r = r' ∧ s.world = t.world) s t) ∧
    (∃ pieces, gsubPieces literalLone subject limit pattern = some pieces ∧
      relUnless (PatternStop interrupt pattern) (ReferenceStop interrupt)
        (gsubLuaPattern interrupt repl subject limit pattern) (gsubReference repl subject pieces)
        (fun r s r' t => r = r' ∧ s.world = t.world) s t) ∧
    ends (gsubLuaPattern interrupt repl subject limit pattern) (fun _ _ => True) s ∧
    (pattern.head? ≠ some (ascii '^') →
      ∃ pieces, gsubPieces literalLone subject none pattern = some pieces ∧
        ∀ (H : GmatchHost) (a b : StringArg) (u v w : GmatchState) (emptyPattern : Bool)
          (events : List GmatchEvent), a.Holds u subject → b.Holds u pattern →
          gmatch H a b none u = .ok emptyPattern v → GmatchCalls emptyPattern v events w →
            Enumerates subject pattern (upcoming pieces) events ∧
              ∀ (H : GmatchHost) (w' : GmatchState), w.Drifts w' →
                ends (gmatchNext H emptyPattern) (fun _ _ => True) w') := by
  refine ⟨?_, ?_, ?_, ends_gsubLuaPattern hrepl hs.size, fun hhead => ?_⟩
  · rintro rfl
    exact gsubEmptyPattern_general hrepl hs
  · intro hplain hne
    have hlt : subject.length < 2 ^ 64 := Nat.lt_of_le_of_lt hsize (by rw [MAX_STRING_BYTES]; omega)
    exact gsubPlainPattern_general hrepl hlt hplain hne hs
  · obtain ⟨pieces, hpieces⟩ := exists_gsubPieces literalLone subject pattern limit
    exact ⟨pieces, hpieces, gsubLuaPattern_reference hrepl hpieces hs⟩
  · obtain ⟨pieces, hpieces⟩ := exists_gsubPieces literalLone subject pattern none
    refine ⟨pieces, hpieces, fun H a b u v w emptyPattern events ha hb hcall hcalls => ?_⟩
    obtain ⟨rfl, hiterates⟩ := iteratesOn_gmatch hsize hhead hpieces ha hb hcall
    obtain ⟨henumerates, next, hlast⟩ := enumerates_of_calls hcalls hiterates
    exact ⟨henumerates, fun H w' hdrift => ends_gmatchNext (hlast.drifts hdrift)⟩

/-- Replacing `a` in `bab`, with an `x`. -/
theorem gsub_paths_agree_letters :
    relUnless (GsubStop fun _ => false) (GsubStop fun _ => false)
      (gsubLuaPattern (fun _ => false) (.string [ascii 'x'] : Replacement Unit Unit)
        [ascii 'b', ascii 'a', ascii 'b'] none [ascii 'a'])
      (gsubPlainPattern (fun _ => false) (.string [ascii 'x'] : Replacement Unit Unit)
        [ascii 'b', ascii 'a', ascii 'b'] none [ascii 'a'])
      (fun r s r' t => r = r' ∧ s.world = t.world) ⟨[], none, ⟨.off, 0⟩, ()⟩ ⟨[], none, ⟨.off, 0⟩, ()⟩ :=
  (@gsub_paths_agree _ _ _ (.string [ascii 'x']) trivial _ (by decide) [ascii 'a'] none _ _
    ⟨rfl, rfl, rfl, by decide⟩).2.1 (by decide) (by decide)

theorem exists_ok_of_check {σ ε α : Type} {m : Effect σ ε α} {s : σ} {a : α} (check : α → Bool)
    (ha : ∀ b, check b = true → b = a)
    (h : (match m s with | .ok b _ => check b | _ => false) = true) : ∃ s', m s = .ok a s' := by
  cases hm : m s with
  | ok b s' =>
    rw [hm] at h
    rw [ha b h]
    exact ⟨s', rfl⟩
  | _ =>
    rw [hm] at h
    cases h

/-- The general loop replaces the match of `^a` in `a`; the iterator takes the `^` for a byte and finds
    no match. -/
theorem gmatch_caret_literal :
    (∃ t, gsubLuaPattern (fun _ => false) (.string [ascii 'x'] : Replacement Unit Unit) [ascii 'a'] none
      [ascii '^', ascii 'a'] ⟨[], none, ⟨.off, 0⟩, ()⟩ = .ok ([ascii 'x'], 1) t) ∧
    ∃ H u w, (gmatch H (.rendered [ascii 'a']) (.rendered [ascii '^', ascii 'a']) none >>=
      gmatchNext H) u = .ok [.nil] w := by
  refine ⟨exists_ok_of_check (· == ([ascii 'x'], 1)) (fun _ => eq_of_beq) (by decide +kernel),
    ⟨fun _ => false, fun _ => false, .exact⟩,
    ⟨⟨[], 0, .nil, nofun⟩, .empty, ⟨.off, .zero, none, 0⟩, 0, 0⟩, ?_⟩
  refine exists_ok_of_check (fun results => decide (results = [.nil])) (fun _ => of_decide_eq_true)
    (by decide +kernel)

end Dellingr
