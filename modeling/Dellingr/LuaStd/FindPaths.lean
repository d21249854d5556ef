import Dellingr.LuaStd.Find
import Dellingr.LuaStd.Gmatch
import Dellingr.Patterns.Plain

/-!
# The paths of `string.find`

`string.find` searches for a pattern without magic by the plain scan (`findPlain`), and for any
other by the matcher (`findPattern`). On a pattern without magic both report the same positions,
whatever the start index (`find_paths_agree`).
-/

namespace Dellingr

open Effect Patterns

section Find

variable (interrupt : Nat → Bool)

/-- The bytes of captures, all of which must be closed. -/
def capturedBytes : List LuaCapture → Scan Nat
  | [] => return 0
  | .unfinished :: _ => fail (.pattern .unfinishedCapture)
  | .bytes start stop :: captures => return (stop - start) + (← capturedBytes captures)
  | .position _ :: captures => capturedBytes captures

/-- The one-based positions of the first and the last byte of an occurrence. An empty string
    occurs at the start itself. -/
def findPlain (subject : List UInt8) (init : Nat) (pattern : List UInt8) :
    Scan (Option (Nat × Nat)) := do
  if subject.length < init then return none
  else
    match ← findSubslice interrupt subject init pattern with
    | none => return none
    | some pos =>
      let start := init + pos + 1
      return some (start, start + pattern.length - 1)

/-- The positions of a match and its captures. -/
def findPattern (subject : List UInt8) (init : Nat) (pattern : List UInt8) :
    Scan (Option ((Nat × Nat) × List LuaCapture)) := do
  if subject.length < init then return none
  else
    let matcher := LuaPattern.fromCompiled (compile pattern .honour)
    let (matched, matcher) ← matcher.matchesBytesFrom subject init interrupt
    if matched then
      let (start, stop) ← demand matcher.range
      let captures ← (List.range' 1 (matcher.nMatch - 1)).mapM fun i => demand (matcher.capture i)
      chargeOnce (← capturedBytes captures)
      return some ((start + 1, stop), captures)
    else return none

/-- `string.find` of a string or a pattern, from a start index on. -/
def find (subject pattern : List UInt8) (init : Option Int) (plain : Bool) :
    Scan (Option ((Nat × Nat) × List LuaCapture)) := do
  chargeOnce (max (subject.length + pattern.length) 1)
  chargeOnce (max pattern.length 1)
  let init := init.elim 0 (luaStartIndex subject.length)
  if plain || isPlainForFind pattern then
    return (← findPlain interrupt subject init pattern).map fun range => (range, [])
  else findPattern interrupt subject init pattern

end Find

/-! ## What the scan finds -/

/-- A search ends with what was found, or because the interrupt was set at a poll or the budget
    is exhausted. -/
def EndsWith {α : Type} (interrupt : Nat → Bool) (found : α) (m : Scan α) (clock : Clock) : Prop :=
  match m clock with
  | .ok a _ => a = found
  | .fail .interrupted clock => ∃ poll < clock.polls, interrupt poll = true
  | .fail .budgetExceeded clock => clock.meter.Exhausted
  | .fail (.pattern _) _ | .panic | .timeout => False

section Naive

variable {haystack needle : List UInt8} {start n : Nat} {meter : CostMeter}

/-- A naive scan fails on an exhausted budget alone. -/
abbrev RunsOut (e : MatchError) (meter : CostMeter) : Prop := e = .budgetExceeded ∧ meter.Exhausted

theorem wp_chargeOne {Q : Unit → CostMeter → Prop} (h : ∀ meter, Q () meter) :
    wp chargeOne Q RunsOut meter := by
  rw [wp, chargeOne]
  rcases meter with _ | ⟨used, unit⟩ | ⟨remaining, used, unit⟩
  · exact h _
  · exact h _
  · rw [CostMeter.consume]
    by_cases hr : 0 < (CostMeter.finiteBudget remaining used unit).unit ∧ remaining ≤ 0
    · rw [if_pos hr]
      exact ⟨rfl, _, _, _, rfl, hr.2⟩
    · rw [if_neg hr]
      exact h _

/-- A scan ends as the naive scan that it simulates. -/
theorem Simulates.endsWith {α : Type} {interrupt : Nat → Bool} {m : Scan α} {naive : NaiveScan α}
    {found : α} {clock : Clock} (h : Simulates interrupt m naive)
    (hn : wp naive (fun a _ => a = found) RunsOut clock.meter) :
    EndsWith interrupt found m clock := by
  have hm := h clock
  rw [EndsWith]
  cases hr : m clock with
  | ok a clock' =>
    rw [hr] at hm
    exact hn.ok hm
  | fail e clock' =>
    rw [hr] at hm
    rcases hm with hfail | ⟨rfl, hpoll⟩
    · obtain ⟨rfl, hexhausted⟩ := hn.error hfail
      exact hexhausted
    · exact hpoll
  | panic =>
    rw [hr] at hm
    exact hm
  | timeout =>
    rw [hr] at hm
    exact hm

theorem wp_chargeEach (n : Nat) : wp (chargeEach n) (fun a _ => a = ()) RunsOut meter := by
  induction n generalizing meter with
  | zero => rfl
  | succ n ih =>
    rw [chargeEach, wp_bind]
    exact wp_chargeOne fun _ => ih

theorem wp_compareEach (hl : needle.length ≤ haystack.length) {Q : Bool → CostMeter → Prop}
    (h : ∀ meter, Q (decide (needle <+: haystack)) meter) :
    wp (compareEach haystack needle) Q RunsOut meter := by
  induction needle generalizing haystack meter with
  | nil =>
    rw [compareEach.eq_def]
    simpa using h meter
  | cons need needle ih =>
    cases haystack with
    | nil => exact absurd hl (Nat.not_succ_le_zero _)
    | cons hay haystack =>
      rw [compareEach, wp_bind]
      simp only [List.cons_prefix_cons] at h
      refine wp_chargeOne fun meter => wp_ite (fun hne => ?_) fun heq => ?_
      · simpa [Ne.symm hne] using h meter
      · refine ih (Nat.le_of_succ_le_succ hl) fun meter => ?_
        simpa [(not_not.1 heq).symm] using h meter

/-- A string does not occur where fewer bytes are left. -/
theorem firstOccurrence_short (hpos : 0 < needle.length)
    (hs : haystack.length < start + needle.length) :
    Reference.firstOccurrence haystack needle n start = none := by
  have hnot : ¬needle <+: haystack.drop start := fun h => by
    have := h.length_le
    rw [List.length_drop] at this
    omega
  induction n generalizing start with
  | zero => rw [Reference.firstOccurrence, if_neg hnot]
  | succ n ih =>
    rw [Reference.firstOccurrence, if_neg hnot]
    refine ih (by omega) fun h => ?_
    have := h.length_le
    rw [List.length_drop] at this
    omega

theorem wp_naiveLoop {more : Nat} (hpos : 0 < needle.length)
    (hn : start + n + needle.length = haystack.length + 1) :
    wp (naiveLoop haystack needle n start)
      (fun found _ => found = Reference.firstOccurrence haystack needle (n + more) start)
      RunsOut meter := by
  induction n generalizing start meter with
  | zero => exact (firstOccurrence_short hpos (by omega)).symm
  | succ n ih =>
    rw [naiveLoop, wp_bind, Nat.succ_add, Reference.firstOccurrence]
    refine wp_compareEach (by rw [List.length_drop]; omega) fun meter => ?_
    by_cases hp : needle <+: haystack.drop start
    · rw [if_pos hp, decide_eq_true hp]
      rfl
    · rw [if_neg hp, decide_eq_false hp]
      exact ih (by omega)

/-- The naive scan finds the first occurrence. -/
theorem wp_naiveFind :
    wp (naiveFind haystack needle)
      (fun found _ => found = Reference.firstOccurrence haystack needle haystack.length 0)
      RunsOut meter := by
  rw [naiveFind]
  refine wp_ite (fun hnil => ?_) fun hne => wp_ite (fun hlt => ?_) fun hle => ?_
  · subst hnil
    rw [wp_pure]
    cases haystack.length <;> rw [Reference.firstOccurrence, if_pos List.nil_prefix]
  · exact (firstOccurrence_short (List.length_pos_iff.2 hne) (by omega)).symm
  · have hpos := List.length_pos_iff.2 hne
    have := @wp_naiveLoop haystack needle 0 (haystack.length - needle.length + 1) meter
      (needle.length - 1) hpos (by omega)
    rwa [show haystack.length - needle.length + 1 + (needle.length - 1) = haystack.length by omega]
      at this

end Naive

section Paths

variable {interrupt : Nat → Bool} {subject pattern : List UInt8} {init : Nat}

/-- An occurrence in what follows a position is one in the whole. -/
theorem firstOccurrence_drop (n pos : Nat) :
    (Reference.firstOccurrence (subject.drop init) pattern n pos).map (init + ·) =
      Reference.firstOccurrence subject pattern n (init + pos) := by
  induction n generalizing pos with
  | zero =>
    rw [Reference.firstOccurrence, Reference.firstOccurrence, List.drop_drop]
    split <;> rfl
  | succ n ih =>
    rw [Reference.firstOccurrence, Reference.firstOccurrence, List.drop_drop]
    split
    · rfl
    · exact ih (pos + 1)

theorem endsWith_findSubslice (hi : init ≤ subject.length) (hl : subject.length < 2 ^ 64)
    (clock : Clock) :
    EndsWith interrupt
      (Reference.firstOccurrence (subject.drop init) pattern (subject.length - init) 0)
      (findSubslice interrupt subject init pattern) clock := by
  have hnaive := @wp_naiveFind (subject.drop init) pattern clock.meter
  rw [List.length_drop] at hnaive
  exact (simulates_findSubslice hi hl).endsWith hnaive

/-- What is done with a result does not stop a search. -/
theorem EndsWith.map {α β : Type} {found : α} {m : Scan α} {clock : Clock}
    (h : EndsWith interrupt found m clock) {f : α → Scan β} {b : β} (hf : f found = pure b) :
    EndsWith interrupt b (m >>= f) clock := by
  rw [EndsWith] at h ⊢
  cases hr : m clock with
  | ok a clock' =>
    rw [hr] at h
    obtain rfl : a = found := h
    rw [run_bind_of_ok hr, hf]
    rfl
  | fail e clock' =>
    rw [hr] at h
    rw [run_bind_of_fail hr]
    cases e <;> exact h
  | panic =>
    rw [hr] at h
    exact h.elim
  | timeout =>
    rw [hr] at h
    exact h.elim

/-- The positions of the first occurrence from a position on. -/
def occurrence (subject pattern : List UInt8) (init : Nat) : Option (Nat × Nat) :=
  if subject.length < init then none
  else (Reference.firstOccurrence subject pattern (subject.length - init) init).map fun start =>
    (start + 1, start + pattern.length)

theorem endsWith_findPlain (hl : subject.length < 2 ^ 64) (clock : Clock) :
    EndsWith interrupt (occurrence subject pattern init) (findPlain interrupt subject init pattern)
      clock := by
  rw [findPlain, occurrence]
  by_cases hlt : subject.length < init
  · rw [if_pos hlt, if_pos hlt]
    rfl
  · rw [if_neg hlt, if_neg hlt]
    refine (endsWith_findSubslice (Nat.le_of_not_lt hlt) hl clock).map ?_
    have hdrop := @firstOccurrence_drop subject pattern init (subject.length - init) 0
    rw [Nat.add_zero] at hdrop
    rw [← hdrop]
    cases Reference.firstOccurrence (subject.drop init) pattern (subject.length - init) 0 with
    | none => rfl
    | some pos =>
      simp only [Option.map_some, Nat.add_sub_cancel, Nat.add_right_comm _ 1]

/-- What is reported of a match without captures. -/
theorem findPattern_of_match (hi : ¬subject.length < init) {clock clock' : Clock} {start stop : Nat}
    {slots : CaptureSlots}
    (h : Search.strMatch ⟨subject, compile pattern .honour, interrupt⟩ init .new clock =
      .ok (some (start, stop), slots) clock')
    (hc : (compile pattern .honour).captures = 0) :
    findPattern interrupt subject init pattern clock = .ok (some ((start + 1, stop), [])) clock' := by
  have hmatch : (LuaPattern.fromCompiled (compile pattern .honour)).matchesBytesFrom subject init
      interrupt clock = .ok (true, ⟨compile pattern .honour, slots, (start, stop), 1⟩) clock' := by
    rw [LuaPattern.matchesBytesFrom]
    exact (run_bind_of_ok h).trans (congrArg (fun n =>
      (pure (true, ⟨compile pattern .honour, slots, (start, stop), n + 1⟩) : Scan (Bool × LuaPattern))
        clock') hc)
  rw [findPattern, if_neg hi]
  refine (run_bind_of_ok hmatch).trans ?_
  show (chargeOnce 0 >>= fun _ => pure (some ((start + 1, stop), []))) clock' = _
  rw [run_bind_of_ok (chargeOnce_zero clock')]
  rfl

theorem findPattern_of_miss (hi : ¬subject.length < init) {clock clock' : Clock} {slots : CaptureSlots}
    (h : Search.strMatch ⟨subject, compile pattern .honour, interrupt⟩ init .new clock =
      .ok (none, slots) clock') :
    findPattern interrupt subject init pattern clock = .ok none clock' := by
  have hmatch : (LuaPattern.fromCompiled (compile pattern .honour)).matchesBytesFrom subject init
      interrupt clock = .ok (false, ⟨compile pattern .honour, slots, (0, 0), 0⟩) clock' :=
    run_bind_of_ok h
  rw [findPattern, if_neg hi]
  exact run_bind_of_ok hmatch

theorem endsWith_findPattern (hp : isPlain pattern = true) (clock : Clock) :
    EndsWith interrupt ((occurrence subject pattern init).map fun range => (range, []))
      (findPattern interrupt subject init pattern) clock := by
  rw [occurrence]
  by_cases hlt : subject.length < init
  · rw [findPattern, if_pos hlt, if_pos hlt]
    rfl
  rw [if_neg hlt, EndsWith]
  let S : Search := ⟨subject, compile pattern .honour, interrupt⟩
  have h : wp (S.strMatch init .new) _ _ clock :=
    S.wp_strMatch pattern .honour rfl (Nat.le_of_not_lt hlt) List.length_replicate
  rw [Reference.strFind_plain hp] at h
  have hsettles : S.strMatch init .new clock ≠ .timeout := Search.settles_strMatch clock
  cases hr : S.strMatch init .new clock with
  | timeout => exact absurd hr hsettles
  | panic =>
    rw [wp, hr] at h
    exact h.elim
  | fail e clock' =>
    have hmatch : findPattern interrupt subject init pattern clock = .fail e clock' := by
      rw [findPattern, if_neg hlt]
      exact run_bind_of_fail (run_bind_of_fail hr)
    rw [hmatch]
    rcases h.error hr with hlimit | ⟨pe, rfl, herror⟩
    · cases e with
      | interrupted => exact hlimit
      | budgetExceeded => exact hlimit
      | pattern pe =>
        -- No item of the pattern goes deeper.
        cases pe with
        | matchDepthExceeded =>
          have hdeep : maxCCalls ≤ (compile pattern .honour).items.countP Item.deepens := hlimit
          rw [deepens_plain hp] at hdeep
          exact absurd hdeep (by decide)
        | _ => exact hlimit
    · cases herror
  | ok r clock' =>
    have hok := h.ok hr
    rcases r with ⟨_ | ⟨start, stop⟩, slots⟩
    · rw [findPattern_of_miss hlt hr]
      rw [Except.ok.injEq, Option.map_eq_none_iff] at hok
      rw [show Reference.firstOccurrence subject pattern (subject.length - init) init = none from hok.2]
      rfl
    · obtain ⟨caps, -, hcaps, hfound⟩ := hok
      obtain ⟨pos, hpos, heq⟩ := Option.map_eq_some_iff.1 (Except.ok.inj hfound)
      obtain ⟨rfl, rfl, rfl⟩ : pos = start ∧ pos + pattern.length = stop ∧ [] = caps := by
        simpa using heq
      rw [findPattern_of_match hlt hr hcaps.symm]
      rw [show Reference.firstOccurrence subject pattern (subject.length - init) init = some pos from hpos]
      rfl

/-- `string.find` takes the plain path on a pattern without magic. -/
theorem find_of_isPlain (hp : isPlain pattern = true) (start : Option Int) (plain : Bool) :
    find interrupt subject pattern start plain = do
      chargeOnce (max (subject.length + pattern.length) 1)
      chargeOnce (max pattern.length 1)
      return (← findPlain interrupt subject (start.elim 0 (luaStartIndex subject.length)) pattern).map
        fun range => (range, []) := by
  simp only [find, isPlainForFind_of_isPlain hp, Bool.or_true, ↓reduceIte]

end Paths

/-- On a pattern without magic both paths report the same positions, whatever the start index,
    unless the interrupt or the budget stops one of them. -/
theorem find_paths_agree (subject pattern : List UInt8) (hp : isPlain pattern = true)
    (hl : subject.length < 2 ^ 64) (init : Option Int) (interrupt : Nat → Bool) :
    let start := init.elim 0 (luaStartIndex subject.length)
    ∃ positions : Option (Nat × Nat), ∀ clock,
      EndsWith interrupt positions (findPlain interrupt subject start pattern) clock ∧
      EndsWith interrupt (positions.map fun range => (range, []))
        (findPattern interrupt subject start pattern) clock :=
  ⟨_, fun clock => ⟨endsWith_findPlain hl clock, endsWith_findPattern hp clock⟩⟩

theorem find_paths_agree_letters :
    ∃ positions : Option (Nat × Nat), ∀ clock,
      EndsWith (fun _ => false) positions
        (findPlain (fun _ => false) ("xab".toList.map ascii) 1 [ascii 'a', ascii 'b']) clock ∧
      EndsWith (fun _ => false) (positions.map fun range => (range, []))
        (findPattern (fun _ => false) ("xab".toList.map ascii) 1 [ascii 'a', ascii 'b']) clock :=
  find_paths_agree ("xab".toList.map ascii) [ascii 'a', ascii 'b'] (by decide) (by decide) (some (-2)) _

end Dellingr
