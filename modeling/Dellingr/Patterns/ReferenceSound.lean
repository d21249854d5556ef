import Dellingr.Patterns.Backtracking

/-!
# Matches are the reference's

A compiled pattern matches from a position as the reference does that reads the text of the
pattern while it matches: with the same match and the same captures, without a match, or with the
error of the malformed point that the reference gets to first (`follows_items`). It may stop
before, where the host or the budget stops it or where it is too deep (`Limit`).

The matcher is taken item by item along the text (`Compiled`): its slots hold the captures the
reference has (`Holding`), and of these those are open that the compiler has open (`Tracks`).
-/

namespace Dellingr.Patterns

open Effect

/-- Whether what follows an item is matched one level deeper. -/
def Item.deepens : Item → Bool
  | .captureStart _ | .captureEnd _ | .positionCapture _ => true
  | .atom _ rep => rep ≠ .one
  | _ => false

namespace Search

variable {S : Search} {slots : CaptureSlots} {clock : Clock} {cls pos : Nat} {set : ByteClass}

/-! ## Limits -/

/-- Why a search stops before its end: an interrupt that was polled, an exhausted budget, or a
    pattern of too many items that go deeper. -/
def Limit (S : Search) : MatchError → Clock → Prop
  | .interrupted, clock => ∃ poll < clock.polls, S.interrupt poll = true
  | .budgetExceeded, clock => clock.meter.Exhausted
  | .pattern .matchDepthExceeded, _ => maxCCalls ≤ S.pattern.items.countP Item.deepens
  | .pattern _, _ => False

/-- A unit is refused where nothing remains. -/
theorem exhausted_of_refused {m m' : CostMeter} {admitted : UInt64}
    (h : m.consumeUnitsAdmitted 1 = (admitted, m')) (ha : admitted ≠ 1) : m'.Exhausted := by
  rcases m with _ | ⟨used, unit⟩ | ⟨remaining, used, unit⟩
  · cases h
    exact absurd rfl ha
  · cases h
    exact absurd rfl ha
  · rw [CostMeter.consumeUnitsAdmitted] at h
    split at h
    · cases h
      exact absurd rfl ha
    rename_i hfree
    split at h
    · cases h
      exact ⟨_, _, _, rfl, ‹_›⟩
    · rename_i hr
      cases h
      refine absurd ?_ ha
      have hunit : unit ≠ 0 := fun hu => hfree (.inr hu)
      have hr' : 0 < remaining.toInt := by
        rw [Int64.le_iff_toInt_le] at hr
        exact not_le.1 hr
      have hcast : remaining.toUInt64.toNat = remaining.toInt.toNat :=
        Int64.toNat_toUInt64_of_le (Int64.le_iff_toInt_le.2 (Int.le_of_lt hr'))
      have hpos : 0 < unit.toNat := by
        rw [Ne, ← UInt64.toNat_inj, UInt64.toNat_zero] at hunit
        omega
      have hdiv : 1 ≤ (remaining.toInt.toNat + (unit.toNat - 1)) / unit.toNat :=
        (Nat.le_div_iff_mul_le hpos).2 (by omega)
      rw [← UInt64.toNat_inj, CostMeter.toNat_min, toNat_divCeil hunit, hcast]
      exact Nat.min_eq_left hdiv

/-! ## Steps -/

section Steps

variable {Err : MatchError → CaptureSlots × Clock → Prop}
  (hE : ∀ e clock, S.Limit e clock → Err e (slots, clock))
include hE

theorem charge_spec {Q : Unit → CaptureSlots × Clock → Prop} (h : ∀ clock, Q () (slots, clock)) :
    wp S.charge Q Err (slots, clock) := by
  simp only [charge, wp_bind, wp_get, wp_modify]
  split
  · rename_i hi
    exact hE .interrupted _ ⟨clock.polls, Nat.lt_succ_self _, hi⟩
  · simp only [wp_bind, wp_modify]
    split
    · exact h _
    · rename_i ha
      exact hE .budgetExceeded _ (exhausted_of_refused rfl ha)

theorem singlematchByte_spec {byte : Option UInt8} {Q : Bool → CaptureSlots × Clock → Prop}
    (hc : S.pattern.classes[cls]? = some set)
    (h : ∀ clock, Q (byte.any set.contains) (slots, clock)) :
    wp (S.singlematchByte byte cls) Q Err (slots, clock) := by
  simp only [singlematchByte, wp_bind]
  refine charge_spec hE fun clock => ?_
  cases byte with
  | none => exact h clock
  | some byte =>
    simp only [classContains, wp_bind, wp_demand hc]
    exact h clock

theorem balanceLoop_spec {opening closing : UInt8} {bytes : List UInt8} {depth cursor : Nat}
    {Q : Option Nat → CaptureSlots × Clock → Prop}
    (h : ∀ clock, Q (Reference.balanceLoop opening closing bytes depth cursor) (slots, clock)) :
    wp (S.balanceLoop opening closing bytes depth cursor) Q Err (slots, clock) := by
  fun_induction Reference.balanceLoop opening closing bytes depth cursor generalizing clock with
  | case1 => exact h clock
  | case2 bytes depth cursor hd =>
    rw [balanceLoop, wp_bind]
    refine charge_spec hE fun clock => ?_
    rw [if_pos rfl, if_pos hd]
    exact h clock
  | case3 bytes depth cursor hd ih =>
    rw [balanceLoop, wp_bind]
    refine charge_spec hE fun clock => ?_
    rw [if_pos rfl, if_neg hd]
    exact ih h
  | case4 bytes depth cursor hc ih =>
    rw [balanceLoop, wp_bind]
    refine charge_spec hE fun clock => ?_
    rw [if_neg hc, if_pos rfl]
    exact ih h
  | case5 byte bytes depth cursor hc ho ih =>
    rw [balanceLoop, wp_bind]
    refine charge_spec hE fun clock => ?_
    rw [if_neg hc, if_neg ho]
    exact ih h

theorem matchBalance_spec {opening closing : UInt8} {Q : Option Nat → CaptureSlots × Clock → Prop}
    (h : ∀ clock, Q (Reference.matchBalance S.subject opening closing pos) (slots, clock)) :
    wp (S.matchBalance pos opening closing) Q Err (slots, clock) := by
  rw [Reference.matchBalance] at h
  rw [matchBalance, wp_bind]
  refine charge_spec hE fun clock => ?_
  split
  · rename_i ho
    rw [if_pos ho] at h
    exact balanceLoop_spec hE h
  · rename_i ho
    rw [if_neg ho] at h
    exact h clock

theorem maxRun_spec {bytes : List UInt8} {stop : Nat} {Q : Nat → CaptureSlots × Clock → Prop}
    (hc : S.pattern.classes[cls]? = some set)
    (h : ∀ clock, Q (stop + (bytes.takeWhile set.contains).length) (slots, clock)) :
    wp (S.maxRun cls bytes stop) Q Err (slots, clock) := by
  induction bytes generalizing stop clock with
  | nil =>
    rw [maxRun, wp_bind]
    exact singlematchByte_spec hE hc fun clock => h clock
  | cons byte bytes ih =>
    rw [maxRun, wp_bind]
    refine singlematchByte_spec hE hc fun clock => ?_
    rw [List.takeWhile_cons] at h
    cases hb : set.contains byte with
    | true =>
      rw [hb] at h
      refine wp_ite (fun _ => ih fun clock => ?_) fun hne => absurd hb hne
      have := h clock
      rwa [if_pos rfl, List.length_cons, Nat.add_comm _ 1, ← Nat.add_assoc] at this
    | false =>
      rw [hb] at h
      exact wp_ite (fun ht => absurd (hb.symm.trans ht) Bool.false_ne_true) fun _ => h clock

/-- Comparing bytes one after the other compares them all. -/
theorem sameBytes_spec {init n : Nat} {Q : Bool → CaptureSlots × Clock → Prop}
    (hi : init + n ≤ S.subject.length)
    (h : ∀ clock, Q (decide (n ≤ S.subject.length - pos ∧
      (S.subject.drop init).take n = (S.subject.drop pos).take n)) (slots, clock)) :
    wp (S.sameBytes init pos n) Q Err (slots, clock) := by
  induction n generalizing init pos clock with
  | zero =>
    rw [sameBytes]
    simpa using h clock
  | succ n ih =>
    have hinit : init < S.subject.length := by omega
    have hcaptured := List.drop_eq_getElem_cons hinit
    rw [sameBytes]
    cases hb : S.subject[pos]? with
    | none =>
      have hge := List.getElem?_eq_none_iff.1 hb
      have := h clock
      rwa [decide_eq_false (by omega)] at this
    | some byte =>
      obtain ⟨hlt, hbyte⟩ := List.getElem?_eq_some_iff.1 hb
      have hhere := List.drop_eq_getElem_cons hlt
      simp only [hcaptured, hhere, hbyte, List.take_succ_cons, List.cons.injEq] at h
      simp only [wp_bind]
      refine charge_spec hE fun clock => ?_
      rw [wp_demand (List.getElem?_eq_getElem hinit)]
      refine wp_ite (fun hne => ?_) fun heq => ih (by omega) fun clock => ?_
      · have := h clock
        rwa [decide_eq_false fun h => hne h.2.1] at this
      · have := h clock
        have hiff : (n + 1 ≤ S.subject.length - pos ∧ S.subject[init] = byte ∧
            (S.subject.drop (init + 1)).take n = (S.subject.drop (pos + 1)).take n) ↔
            n ≤ S.subject.length - (pos + 1) ∧
              (S.subject.drop (init + 1)).take n = (S.subject.drop (pos + 1)).take n := by
          rw [not_not.1 heq]
          constructor
          · exact fun h => ⟨by omega, h.2.2⟩
          · exact fun h => ⟨by omega, rfl, h.2⟩
        simpa only [hiff] using this

end Steps

/-! ## What the reference answers -/

variable {ref ref' : Reference.Result} {m : Matcher (Option Nat)}
  {recurse : Nat → Matcher (Option Nat)} {k : Nat → Reference.Result}

/-- The slots hold these captures, and there are slots for all of them. -/
structure Holding (slots : CaptureSlots) (caps : List Capture) : Prop where
  length : slots.length = luaMaxCaptures
  capture : ∀ i < caps.length, slots[i]? = caps[i]?

/-- A match ends as the reference answers. -/
def Answers (S : Search) (ref : Reference.Result) : Option Nat → CaptureSlots × Clock → Prop
  | none, _ => ref = .ok none
  | some stop, (slots, _) => ∃ caps, ref = .ok (some (stop, caps)) ∧
    caps.length = S.pattern.captures ∧ Holding slots caps

/-- A match stops at a limit, or with the error of the reference. -/
def Raises {α : Type} (S : Search) (ref : Except PatternError α) (e : MatchError)
    (s : CaptureSlots × Clock) : Prop :=
  S.Limit e s.2 ∨ ∃ pe, e = .pattern pe ∧ ref = .error pe

theorem Raises.of_limit {α : Type} (ref : Except PatternError α) (e : MatchError) (clock : Clock)
    (h : S.Limit e clock) : S.Raises ref e (slots, clock) := .inl h

/-- A match does what the reference does, and gives its slots back where it fails. -/
def Follows (S : Search) (ref : Reference.Result) (slots : CaptureSlots)
    (m : Matcher (Option Nat)) : Prop :=
  ∀ clock, wp m (fun r s => S.Answers ref r s ∧ (r = none → s.1 = slots)) (S.Raises ref) (slots, clock)

/-- A match that gives its slots back follows the reference if it answers as the reference. -/
theorem follows_restoring
    (h : ∀ clock, wp m (S.Answers ref) (S.Raises ref) (slots, clock)) :
    S.Follows ref slots (restoring m) := by
  intro clock
  simp only [restoring, wp_bind, wp_get]
  refine wp_mono_ok (h clock) fun r s hs => ?_
  cases r with
  | none => exact ⟨hs, fun _ => rfl⟩
  | some stop => exact ⟨hs, by rintro ⟨⟩⟩

theorem Follows.answers {slots' : CaptureSlots} (h : S.Follows ref slots' m) (clock : Clock) :
    wp m (S.Answers ref) (S.Raises ref) (slots', clock) :=
  wp_mono_ok (h clock) fun _ _ h => h.1

theorem follows_none {m : Matcher (Option Nat)} (h : m = pure none) :
    S.Follows (.ok none) slots m := by
  intro clock
  rw [h, wp_pure]
  exact ⟨rfl, fun _ => rfl⟩

/-- The answer of the reference where another match is tried if the first fails. -/
def orElse (ref ref' : Reference.Result) : Reference.Result :=
  match ref with
  | .ok none => ref'
  | r => r

theorem orElse_none (ref : Reference.Result) : orElse ref (.ok none) = ref := by
  unfold orElse
  split
  · rfl
  · rfl

/-- Where one match fails another is tried. -/
theorem Follows.orElse (h : S.Follows ref slots m) {f : Option Nat → Matcher (Option Nat)}
    (hnone : S.Follows ref' slots (f none)) (hsome : ∀ stop, f (some stop) = pure (some stop)) :
    S.Follows (orElse ref ref') slots (m >>= f) := by
  intro clock
  rw [wp_bind]
  refine wp_mono (h clock) ?_ ?_
  · rintro (_ | stop) ⟨slots', clock'⟩ ⟨hans, hslots⟩
    · obtain rfl : ref = .ok none := hans
      obtain rfl : slots' = slots := hslots rfl
      exact hnone clock'
    · obtain ⟨caps, rfl, hcaps⟩ := hans
      rw [hsome, wp_pure]
      exact ⟨⟨caps, rfl, hcaps⟩, nofun⟩
  · rintro e s (hlimit | ⟨pe, rfl, rfl⟩)
    · exact .inl hlimit
    · exact .inr ⟨pe, rfl, rfl⟩

/-- One byte is tested first. -/
theorem follows_singlematch {f : Bool → Matcher (Option Nat)} {byte : Option UInt8}
    (hc : S.pattern.classes[cls]? = some set)
    (h : S.Follows ref slots (f (byte.any set.contains))) :
    S.Follows ref slots (S.singlematchByte byte cls >>= f) := by
  intro clock
  rw [wp_bind]
  exact singlematchByte_spec (Raises.of_limit ref) hc fun clock => h clock

theorem follows_giveBack {n : Nat} (hr : ∀ stop, pos ≤ stop → stop ≤ pos + n →
    S.Follows (k stop) slots (recurse stop)) :
    S.Follows (Reference.giveBack k pos n) slots (giveBack recurse pos n) := by
  induction n with
  | zero => exact hr pos (Nat.le_refl _) (Nat.le_refl _)
  | succ n ih =>
    rw [Reference.giveBack, giveBack]
    refine (hr (pos + n + 1) (by omega) (by omega)).orElse ?_ fun _ => rfl
    exact ih fun stop h₁ h₂ => hr stop h₁ (by omega)

theorem follows_maxExpand (hc : S.pattern.classes[cls]? = some set) (hp : pos ≤ S.subject.length)
    (hr : ∀ stop, pos ≤ stop → stop ≤ S.subject.length → S.Follows (k stop) slots (recurse stop)) :
    S.Follows (Reference.maxExpand S.subject set.contains k pos) slots
      (S.maxExpand recurse pos cls) := by
  intro clock
  rw [maxExpand, wp_bind]
  refine maxRun_spec (Raises.of_limit _) hc fun clock => ?_
  rw [Nat.add_sub_cancel_left]
  refine follows_giveBack (fun stop h₁ h₂ => hr stop h₁ (Nat.le_trans h₂ ?_)) clock
  have := (@List.takeWhile_prefix _ (S.subject.drop pos) set.contains).length_le
  rw [List.length_drop] at this
  omega

theorem follows_minLoop {bytes : List UInt8} (hc : S.pattern.classes[cls]? = some set)
    (hp : pos + bytes.length = S.subject.length)
    (hr : ∀ stop, pos ≤ stop → stop ≤ S.subject.length → S.Follows (k stop) slots (recurse stop)) :
    S.Follows (Reference.minLoop set.contains k bytes pos) slots (S.minLoop recurse cls bytes pos) := by
  induction bytes generalizing pos with
  | nil =>
    rw [Reference.minLoop, minLoop]
    rw [← orElse_none (k pos)]
    refine (hr pos (Nat.le_refl _) (Nat.le_of_eq hp)).orElse ?_ fun _ => rfl
    exact follows_singlematch hc (follows_none rfl)
  | cons byte bytes ih =>
    rw [List.length_cons] at hp
    rw [Reference.minLoop, minLoop]
    refine (hr pos (Nat.le_refl _) (by omega)).orElse ?_ fun _ => rfl
    refine follows_singlematch hc ?_
    rw [Option.any_some]
    cases hb : set.contains byte with
    | true => exact ih (by omega) fun stop h₁ h₂ => hr stop (by omega) h₂
    | false => exact follows_none rfl

theorem follows_minExpand (hc : S.pattern.classes[cls]? = some set) (hp : pos ≤ S.subject.length)
    (hr : ∀ stop, pos ≤ stop → stop ≤ S.subject.length → S.Follows (k stop) slots (recurse stop)) :
    S.Follows (Reference.minExpand S.subject set.contains k pos) slots
      (S.minExpand recurse pos cls) := by
  refine follows_minLoop hc ?_ hr
  rw [List.length_drop]
  omega

/-! ## Captures -/

/-- The captures of the reference where the compiler is: as many as the compiler has started, and
    of these those are open that it has open. They lie before the position, and end within the
    subject. -/
structure Tracks (S : Search) (c : Compiler) (caps : List Capture) (pos : Nat) : Prop where
  nested : Reads.Nested c
  bound : c.captures ≤ luaMaxCaptures
  length : caps.length = c.captures
  opened : ∀ i capture, caps[i]? = some capture → (capture.len = .unfinished ↔ i ∈ c.captureStack)
  within : ∀ capture ∈ caps, capture.init ≤ pos ∧
    ∀ n, capture.len = .len n → capture.init + n ≤ S.subject.length
  here : pos ≤ S.subject.length

variable {c c' : Compiler} {caps : List Capture} {pos' : Nat}

theorem Tracks.mono (h : S.Tracks c caps pos) (hle : pos ≤ pos') (hp : pos' ≤ S.subject.length) :
    S.Tracks c caps pos' :=
  { h with
    within := fun capture hm => ⟨Nat.le_trans (h.within capture hm).1 hle, (h.within capture hm).2⟩
    here := hp }

/-- An item that starts and ends no capture is passed. -/
theorem Tracks.of_same (h : S.Tracks c caps pos) (hn : c'.captures = c.captures)
    (hs : c'.captureStack = c.captureStack) : S.Tracks c' caps pos where
  nested := h.nested.of_same hn hs
  bound := hn ▸ h.bound
  length := hn ▸ h.length
  opened := hs ▸ h.opened
  within := h.within
  here := h.here

theorem Tracks.lt (h : S.Tracks c caps pos) (hh : Holding slots caps) {slot : Nat}
    (hs : slot ≤ c.captures) (hn : c.captures ≠ luaMaxCaptures) : slot < slots.length := by
  rw [hh.length]
  exact Nat.lt_of_le_of_lt hs (Nat.lt_of_le_of_ne h.bound hn)

/-- A capture is started, or a position taken. -/
theorem Tracks.append (h : S.Tracks c caps pos) {len : CapLen} {c' : Compiler}
    (hc' : Reads.Nested c') (hn : c.captures ≠ luaMaxCaptures) (hn' : c'.captures = c.captures + 1)
    (hlen : ∀ n, len ≠ .len n)
    (hs : ∀ i, i ∈ c'.captureStack ↔ i ∈ c.captureStack ∨ i = c.captures ∧ len = .unfinished) :
    S.Tracks c' (caps ++ [⟨pos, len⟩]) pos where
  nested := hc'
  bound := hn' ▸ Nat.lt_of_le_of_ne h.bound hn
  length := by rw [List.length_append, h.length, hn', List.length_singleton]
  opened i capture hi := by
    rw [hs]
    by_cases hlt : i < caps.length
    · rw [List.getElem?_append_left hlt] at hi
      rw [h.opened i capture hi]
      have hne : i ≠ c.captures := Nat.ne_of_lt (h.length ▸ hlt)
      exact ⟨.inl, fun h => h.resolve_right fun h => hne h.1⟩
    · have hi' := (List.getElem?_eq_some_iff.1 hi).1
      rw [List.length_append, List.length_singleton] at hi'
      obtain rfl : i = caps.length := by omega
      rw [List.getElem?_concat_length, Option.some.injEq] at hi
      subst hi
      rw [h.length]
      have hold : c.captures ∉ c.captureStack := fun hm =>
        absurd (h.nested.below _ hm) (Nat.lt_irrefl _)
      exact ⟨fun hl => .inr ⟨rfl, hl⟩, fun h => (h.resolve_left hold).2⟩
  within capture hm := by
    rcases List.mem_append.1 hm with hm | hm
    · exact h.within capture hm
    · rw [List.mem_singleton.1 hm]
      exact ⟨Nat.le_refl _, fun n hl => absurd hl (hlen n)⟩
  here := h.here

theorem Holding.append (h : Holding slots caps) (hlt : caps.length < slots.length)
    (capture : Capture) : Holding (slots.set caps.length capture) (caps ++ [capture]) where
  length := by rw [List.length_set, h.length]
  capture i hi := by
    by_cases heq : i = caps.length
    · rw [heq, List.getElem?_set_self hlt, List.getElem?_concat_length]
    · rw [List.length_append, List.length_singleton] at hi
      rw [List.getElem?_set_ne (Ne.symm heq), List.getElem?_append_left (by omega)]
      exact h.capture i (by omega)

theorem captureToClose_eq {stack : List Nat} (n : Nat)
    (hopen : ∀ i < n, caps[i]?.map Capture.len = some .unfinished ↔ i ∈ stack)
    (hbelow : ∀ i ∈ stack, i < n) (hinner : stack.Pairwise fun i j => j < i) :
    Reference.captureToClose caps n = stack.head? := by
  induction n with
  | zero =>
    obtain rfl : stack = [] := List.eq_nil_iff_forall_not_mem.2 fun i hi => nomatch hbelow i hi
    rfl
  | succ n ih =>
    rw [Reference.captureToClose]
    split
    · rename_i hn
      have hmem := (hopen n (Nat.lt_succ_self n)).1 hn
      cases stack with
      | nil => cases hmem
      | cons top stack =>
        rcases List.mem_cons.1 hmem with rfl | hmem
        · rfl
        · -- The topmost capture would be above the last one.
          have h₁ := (List.pairwise_cons.1 hinner).1 n hmem
          have h₂ := hbelow top List.mem_cons_self
          omega
    · rename_i hn
      refine ih (fun i hi => hopen i (Nat.lt_succ_of_lt hi)) fun i hi => ?_
      refine Nat.lt_of_le_of_ne (Nat.lt_succ_iff.1 (hbelow i hi)) ?_
      rintro rfl
      exact hn ((hopen i (Nat.lt_succ_self i)).2 hi)

theorem Tracks.captureToClose (h : S.Tracks c caps pos) :
    Reference.captureToClose caps caps.length = c.captureStack.head? := by
  refine captureToClose_eq _ (fun i hi => ?_) (fun i hi => h.length ▸ h.nested.below i hi) h.nested.inner
  rw [List.getElem?_eq_getElem hi, Option.map_some, Option.some.injEq]
  exact h.opened i _ (List.getElem?_eq_getElem hi)

/-- A capture is closed. -/
theorem Tracks.close (h : S.Tracks c caps pos) {slot : Nat} {stack : List Nat}
    (hs : c.captureStack = slot :: stack) (hc' : Reads.Nested c') (hn : c'.captures = c.captures)
    (hs' : c'.captureStack = stack) :
    S.Tracks c' (caps.modify slot fun capture => { capture with len := .len (pos - capture.init) })
      pos where
  nested := hc'
  bound := hn ▸ h.bound
  length := by rw [List.length_modify, h.length, hn]
  opened i capture hi := by
    rw [List.getElem?_modify] at hi
    have hinner := h.nested.inner
    rw [hs] at hinner
    by_cases heq : slot = i
    · subst heq
      obtain ⟨old, -, rfl⟩ := Option.map_eq_some_iff.1 hi
      simp only [↓reduceIte]
      refine ⟨nofun, fun hm => ?_⟩
      exact absurd ((List.pairwise_cons.1 hinner).1 slot (hs' ▸ hm)) (Nat.lt_irrefl _)
    · simp only [if_neg heq, id_map'] at hi
      rw [h.opened i capture hi, hs, hs']
      exact ⟨fun hm => (List.mem_cons.1 hm).resolve_left (Ne.symm heq), List.mem_cons_of_mem _⟩
  within capture hm := by
    obtain ⟨i, hi⟩ := List.mem_iff_getElem?.1 hm
    rw [List.getElem?_modify] at hi
    obtain ⟨old, hold, rfl⟩ := Option.map_eq_some_iff.1 hi
    obtain ⟨hinit, hlen⟩ := h.within old (List.mem_of_getElem? hold)
    have hp := h.here
    split
    · refine ⟨hinit, ?_⟩
      rintro n ⟨⟩
      show old.init + (pos - old.init) ≤ _
      omega
    · exact ⟨hinit, hlen⟩
  here := h.here

theorem Holding.close (h : Holding slots caps) {slot : Nat} {capture : Capture}
    (hc : caps[slot]? = some capture) (hlt : slot < slots.length) {n : Nat}
    (hn : n = pos - capture.init) :
    Holding (slots.set slot ⟨capture.init, .len n⟩)
      (caps.modify slot fun capture => { capture with len := .len (pos - capture.init) }) where
  length := by rw [List.length_set, h.length]
  capture i hi := by
    rw [List.length_modify] at hi
    rw [List.getElem?_modify]
    by_cases heq : slot = i
    · subst heq
      simp only [List.getElem?_set_self hlt, hc, hn, ↓reduceIte]
      rfl
    · simp only [List.getElem?_set_ne heq, h.capture i hi, if_neg heq, id_map']

/-- A capture that is closed can be referred to. -/
theorem Tracks.checkCapture (h : S.Tracks c caps pos) {digit : UInt8} {slot : Nat}
    (hi : (digit.toNat : Int) - (ascii '1').toNat = slot) (hlt : slot < c.captures)
    (hs : slot ∉ c.captureStack) :
    ∃ capture, caps[slot]? = some capture ∧ capture.len ≠ .unfinished ∧
      Reference.checkCapture digit caps = .ok capture := by
  have hlt' : slot < caps.length := h.length ▸ hlt
  have hget := List.getElem?_eq_getElem hlt'
  have hclosed : caps[slot].len ≠ .unfinished := fun hu => hs ((h.opened slot _ hget).1 hu)
  refine ⟨_, hget, hclosed, ?_⟩
  rw [Reference.checkCapture]
  simp only [hi, Int.toNat_natCast, hget]
  rw [if_neg (by omega), if_neg hclosed]

/-! ## Malformed points -/

theorem Tracks.captures_eq (h : S.Tracks c caps pos) (hn : c.captures = luaMaxCaptures) :
    caps.length = luaMaxCaptures := h.length.trans hn

/-- A back reference that is refused is refused by the reference. -/
theorem Tracks.checkCapture_error (h : S.Tracks c caps pos) {digit : UInt8}
    (hi : ¬(0 ≤ (digit.toNat : Int) - (ascii '1').toNat ∧
      ((digit.toNat : Int) - (ascii '1').toNat).toNat < c.captures ∧
      ((digit.toNat : Int) - (ascii '1').toNat).toNat ∉ c.captureStack)) :
    Reference.checkCapture digit caps =
      .error (.invalidCaptureIndex ((digit.toNat : Int) - (ascii '1').toNat)) := by
  rw [Reference.checkCapture]
  generalize (digit.toNat : Int) - (ascii '1').toNat = l at hi ⊢
  split
  · rfl
  rename_i hl
  split
  · rename_i capture hget
    have hlt : l.toNat < c.captures := h.length ▸ (List.getElem?_eq_some_iff.1 hget).1
    have hmem : l.toNat ∈ c.captureStack := by
      by_contra hmem
      exact hi ⟨not_lt.1 hl, hlt, hmem⟩
    rw [if_pos ((h.opened _ _ hget).2 hmem)]
  · rfl

variable {byte : UInt8} {text : List UInt8} {e : PatternError} {fuel : Nat}

theorem doMatch_escape_error {escaped : UInt8} {rest : List UInt8} (h : S.Tracks c caps pos)
    (he : compileEscape escaped { c with rest } = .error e) :
    Reference.doMatch Reference.literalLone S.subject (fuel + 1) (lEsc :: escaped :: rest) pos caps =
      .error e := by
  rw [compileEscape] at he
  rw [Reference.doMatch_escape]
  split at he
  · rename_i hb
    rw [if_pos hb]
    rcases rest with _ | ⟨opening, _ | ⟨closing, rest⟩⟩
    · cases he
      rfl
    · cases he
      rfl
    · cases he
  rename_i hb
  rw [if_neg hb]
  split at he
  · rename_i hf
    rw [if_pos hf]
    split at he
    · rename_i hbracket
      rw [if_pos hbracket, bracketItem_eq]
      cases hclass : bracketClass rest.tail with
      | error e' =>
        simp only [hclass] at he
        cases he
        rfl
      | ok r =>
        simp only [hclass] at he
        cases he
    · rename_i hbracket
      rw [if_neg hbracket]
      cases he
      rfl
  rename_i hf
  rw [if_neg hf]
  split at he
  · rename_i hd
    rw [if_pos hd]
    simp only at he
    split at he
    · cases he
    · rename_i hslot
      cases he
      rw [h.checkCapture_error hslot]
  · cases he

/-- At a malformed point the reference raises the error that was compiled. -/
theorem doMatch_error (h : S.Tracks c caps pos)
    (he : compileItem byte { c with rest := text } = .error e) :
    Reference.doMatch Reference.literalLone S.subject (fuel + 1) (byte :: text) pos caps = .error e := by
  rw [compileItem] at he
  split at he
  · rename_i hch
    obtain rfl := eq_ascii hch
    split at he
    · rename_i hn
      cases he
      conv_lhs => unfold Reference.doMatch
      rw [if_pos rfl, if_pos (h.captures_eq hn)]
    · simp only at he
      split at he <;> cases he
  · rename_i hch
    obtain rfl := eq_ascii hch
    split at he
    · rename_i hs
      cases he
      have hnone := h.captureToClose
      rw [show c.captureStack = [] from hs, List.head?_nil] at hnone
      conv_lhs => unfold Reference.doMatch
      rw [if_neg (by decide), if_pos rfl, hnone]
    · cases he
  · rename_i hch
    obtain rfl := eq_ascii hch
    split at he
    · rename_i hnil
      cases he
      obtain rfl : text = [] := hnil
      rfl
    · rename_i escaped rest hrest
      obtain rfl : text = escaped :: rest := hrest
      exact doMatch_escape_error h he
  · rename_i hch
    obtain rfl := eq_ascii hch
    split at he
    · rename_i e' hclass
      cases he
      have hstarts : AtomStarts (ascii '[') text := by
        refine ⟨by decide, by decide, ?_, fun h => absurd h (by decide)⟩
        rintro ⟨h, -⟩
        exact absurd h (by decide)
      have hitem : Reference.singleItem Reference.literalLone (ascii '[') text = .error e := by
        unfold Reference.singleItem
        rw [if_neg (by decide), if_pos rfl, bracketItem_eq, show bracketClass text = _ from hclass]
        rfl
      rw [Reference.doMatch_atom hstarts, Reference.matchDefault, hitem]
    · cases he
  · cases he
  · split at he <;> cases he

/-! ## Items -/

variable {items : List Item} {depth : Nat}

/-- What follows an item, matched with whatever captures the item leaves. -/
def FollowsFrom (S : Search) (fuel : Nat) (c : Compiler) (m : Nat → Matcher (Option Nat)) : Prop :=
  ∀ caps pos slots, S.Tracks c caps pos → Holding slots caps →
    S.Follows (Reference.doMatch Reference.literalLone S.subject fuel c.rest pos caps) slots (m pos)

/-- One level deeper the match follows too, or is too deep. -/
theorem FollowsFrom.deeper {m : Nat → Matcher (Option Nat)} (h : S.FollowsFrom fuel c m)
    (hd : depth + 1 ≤ S.pattern.items.countP Item.deepens) :
    S.FollowsFrom fuel c fun pos =>
      if maxCCalls ≤ depth + 1 then fail (.pattern .matchDepthExceeded) else m pos := by
  intro caps pos slots ht hh clock
  refine wp_ite (fun hdeep => ?_) fun _ => h caps pos slots ht hh clock
  exact .inl (Nat.le_trans hdeep hd)

/-- A byte that was matched lies in the subject. -/
theorem lt_of_any {test : UInt8 → Bool} (h : S.subject[pos]?.any test = true) :
    pos < S.subject.length := by
  cases hb : S.subject[pos]? with
  | none =>
    rw [hb] at h
    cases h
  | some byte => exact (List.getElem?_eq_some_iff.1 hb).1

/-- An item takes a step before anything else. -/
theorem follows_charge (h : ∀ clock, wp m (S.Answers ref) (S.Raises ref) (slots, clock)) :
    S.Follows ref slots (restoring do
      S.charge
      m) := by
  refine follows_restoring fun clock => ?_
  rw [wp_bind]
  exact charge_spec (Raises.of_limit ref) h

theorem class_of_extends {classes : List ByteClass} {c : Compiler} {id : Nat}
    (h : (c.internClass set).2.classes <+: classes) (hid : id = (c.internClass set).1) :
    classes[id]? = some set := by
  obtain ⟨-, hget, -⟩ := Reads.internClass_get set c
  obtain ⟨more, rfl⟩ := h
  rw [hid, List.getElem?_append_left (List.getElem?_eq_some_iff.1 hget).1, hget]

/-- An item of a single byte: `next` is what follows it at the same depth, and `recurse` what
    follows it one level deeper. -/
theorem follows_atom {id : Nat} {rest : List UInt8} (hc : S.pattern.classes[id]? = some set)
    (hp : pos ≤ S.subject.length) (ha : AtomStarts byte text)
    (hs : Reference.singleItem Reference.literalLone byte text = .ok (set.contains, rest))
    {k : Nat → Reference.Result}
    (hk : k = fun pos => Reference.doMatch Reference.literalLone S.subject fuel
      (if Compiler.repeatSuffix rest = .one then rest else rest.tail) pos caps)
    (hnext : ∀ stop, pos ≤ stop → stop ≤ S.subject.length →
      S.Follows (k stop) slots (S.freshItems items stop depth))
    (hrec : Compiler.repeatSuffix rest ≠ .one → ∀ stop, pos ≤ stop → stop ≤ S.subject.length →
      S.Follows (k stop) slots (if maxCCalls ≤ depth + 1 then fail (.pattern .matchDepthExceeded)
        else S.freshItems items stop (depth + 1))) :
    S.Follows (Reference.doMatch Reference.literalLone S.subject (fuel + 1) (byte :: text) pos caps)
      slots (S.freshItems (.atom id (Compiler.repeatSuffix rest) :: items) pos depth) := by
  rw [Reference.doMatch_atom ha, Reference.matchDefault_eq hs]
  have hlt : S.subject[pos]?.any set.contains = true → pos + 1 ≤ S.subject.length := lt_of_any
  have hskip := hnext pos (Nat.le_refl _) hp
  cases hrep : Compiler.repeatSuffix rest with
  | one =>
    simp only [hrep, ↓reduceIte] at hk
    subst hk
    refine follows_charge (follows_singlematch hc ?_).answers
    cases hb : S.subject[pos]?.any set.contains with
    | true => exact hnext _ (Nat.le_succ _) (hlt hb)
    | false => exact follows_none rfl
  | optional =>
    simp only [hrep, reduceCtorEq, ↓reduceIte] at hk
    subst hk
    refine follows_charge (follows_singlematch hc ?_).answers
    cases hb : S.subject[pos]?.any set.contains with
    | true => exact (hrec (fun h => nomatch hrep.symm.trans h) _ (Nat.le_succ _) (hlt hb)).orElse hskip fun _ => rfl
    | false => exact hskip
  | zeroOrMoreGreedy =>
    simp only [hrep, reduceCtorEq, ↓reduceIte] at hk
    subst hk
    refine follows_charge (follows_singlematch hc ?_).answers
    cases hb : S.subject[pos]?.any set.contains with
    | true => exact follows_maxExpand hc hp (hrec (fun h => nomatch hrep.symm.trans h))
    | false => exact hskip
  | oneOrMoreGreedy =>
    simp only [hrep, reduceCtorEq, ↓reduceIte] at hk
    subst hk
    refine follows_charge (follows_singlematch hc ?_).answers
    cases hb : S.subject[pos]?.any set.contains with
    | true =>
      exact follows_maxExpand hc (hlt hb) fun stop h => hrec (fun h => nomatch hrep.symm.trans h) stop (Nat.le_of_succ_le h)
    | false => exact follows_none rfl
  | zeroOrMoreMinimal =>
    simp only [hrep, reduceCtorEq, ↓reduceIte] at hk
    subst hk
    refine follows_charge (follows_singlematch hc ?_).answers
    cases hb : S.subject[pos]?.any set.contains with
    | true => exact follows_minExpand hc hp (hrec (fun h => nomatch hrep.symm.trans h))
    | false => exact hskip

theorem balanceLoop_le {opening closing : UInt8} {bytes : List UInt8} {level cursor stop : Nat}
    (h : Reference.balanceLoop opening closing bytes level cursor = some stop) :
    cursor ≤ stop ∧ stop ≤ cursor + bytes.length := by
  fun_induction Reference.balanceLoop opening closing bytes level cursor with
  | case1 => cases h
  | case2 bytes level cursor =>
    obtain rfl := Option.some.inj h
    simp only [List.length_cons]
    omega
  | case3 bytes level cursor hd ih | case4 bytes level cursor hc ih | case5 byte bytes level cursor hc ho ih =>
    have := ih h
    simp only [List.length_cons]
    omega

theorem matchBalance_le {opening closing : UInt8} {stop : Nat}
    (h : Reference.matchBalance S.subject opening closing pos = some stop) :
    pos ≤ stop ∧ stop ≤ S.subject.length := by
  rw [Reference.matchBalance] at h
  split at h
  · rename_i hopen
    have hlt := (List.getElem?_eq_some_iff.1 hopen).1
    have := balanceLoop_le h
    rw [List.length_drop] at this
    omega
  · cases h

theorem follows_balance {opening closing : UInt8} {rest : List UInt8}
    (hnext : ∀ stop, pos ≤ stop → stop ≤ S.subject.length →
      S.Follows (Reference.doMatch Reference.literalLone S.subject fuel rest stop caps) slots
        (S.freshItems items stop depth)) :
    S.Follows (Reference.doMatch Reference.literalLone S.subject (fuel + 1)
      (lEsc :: ascii 'b' :: opening :: closing :: rest) pos caps) slots
      (S.freshItems (.balance opening closing :: items) pos depth) := by
  rw [Reference.doMatch_balance]
  refine follows_charge fun clock => ?_
  rw [wp_bind]
  refine matchBalance_spec (Raises.of_limit _) fun clock => ?_
  cases hb : Reference.matchBalance S.subject opening closing pos with
  | none => exact (follows_none rfl).answers clock
  | some stop =>
    obtain ⟨h₁, h₂⟩ := matchBalance_le hb
    exact (hnext stop h₁ h₂).answers clock

theorem follows_frontier {id : Nat} {rest : List UInt8} (hc : S.pattern.classes[id]? = some set)
    (hb : bracketClass text = .ok (set, rest))
    (hnext : S.Follows (Reference.doMatch Reference.literalLone S.subject fuel rest pos caps) slots
      (S.freshItems items pos depth)) :
    S.Follows (Reference.doMatch Reference.literalLone S.subject (fuel + 1)
      (lEsc :: ascii 'f' :: ascii '[' :: text) pos caps) slots
      (S.freshItems (.frontier id :: items) pos depth) := by
  rw [Reference.doMatch_frontier (bracketItem_of_bracketClass hb), Reference.atFrontier]
  refine follows_charge fun clock => ?_
  simp only [classContains, wp_bind, wp_demand hc, wp_pure]
  cases set.contains (if pos = 0 then 0 else S.subject[pos - 1]?.getD 0) with
  | true => exact (follows_none rfl).answers clock
  | false =>
    cases set.contains (S.subject[pos]?.getD 0) with
    | true => exact hnext.answers clock
    | false => exact (follows_none rfl).answers clock

theorem follows_backref {digit : UInt8} {rest : List UInt8} {slot : Nat} (ht : S.Tracks c caps pos)
    (hh : Holding slots caps) (hd : isAsciiDigit digit = true)
    (hi : (digit.toNat : Int) - (ascii '1').toNat = slot) (hlt : slot < c.captures)
    (hclosed : slot ∉ c.captureStack)
    (hnext : ∀ stop, pos ≤ stop → stop ≤ S.subject.length →
      S.Follows (Reference.doMatch Reference.literalLone S.subject fuel rest stop caps) slots
        (S.freshItems items stop depth)) :
    S.Follows (Reference.doMatch Reference.literalLone S.subject (fuel + 1) (lEsc :: digit :: rest)
      pos caps) slots (S.freshItems (.backref slot :: items) pos depth) := by
  obtain ⟨capture, hget, hlen, hcheck⟩ := ht.checkCapture hi hlt hclosed
  have hp := ht.here
  rw [Reference.doMatch_digit hd, hcheck]
  refine follows_charge fun clock => ?_
  rw [wp_bind]
  refine wp_getCapture ((hh.capture slot (ht.length ▸ hlt)).trans hget) ?_
  obtain ⟨init, len⟩ := capture
  cases len with
  | unfinished => exact absurd rfl hlen
  | position => exact (follows_none rfl).answers clock
  | len n =>
    have hwithin := (ht.within _ (List.mem_of_getElem? hget)).2 n rfl
    simp only [Reference.matchCapture, wp_bind]
    refine sameBytes_spec (Raises.of_limit _) hwithin fun clock => ?_
    by_cases hsame : n ≤ S.subject.length - pos ∧
        (S.subject.drop init).take n = (S.subject.drop pos).take n
    · rw [if_pos hsame, decide_eq_true hsame]
      exact (hnext (pos + n) (by omega) (by omega)).answers clock
    · rw [if_neg hsame, decide_eq_false hsame]
      exact (follows_none rfl).answers clock

/-- The items that were compiled follow the text they were compiled from. -/
theorem follows_items (h : Compiled S.pattern.classes S.pattern.captures c items)
    (hf : c.rest.length ≤ fuel)
    (hd : depth + items.countP Item.deepens ≤ S.pattern.items.countP Item.deepens) :
    S.FollowsFrom fuel c fun pos => S.freshItems items pos depth := by
  induction h generalizing fuel depth with
  | @nil c hr hn =>
    intro caps pos slots ht hh clock
    have hend : Reference.doMatch Reference.literalLone S.subject fuel [] pos caps =
        .ok (some (pos, caps)) := by rw [Reference.doMatch]
    rw [hr, hend]
    simp only [freshItems, wp_bind]
    refine charge_spec (Raises.of_limit _) fun clock => ?_
    exact ⟨⟨caps, rfl, ht.length.trans hn, hh⟩, by rintro ⟨⟩⟩
  | @fail c byte text e hr he =>
    intro caps pos slots ht hh
    obtain ⟨fuel, rfl⟩ : ∃ n, fuel = n + 1 := Nat.exists_eq_succ_of_ne_zero fun h => by
      rw [hr, h] at hf
      cases hf
    rw [hr]
    exact follows_charge fun clock => .inr ⟨e, rfl, doMatch_error ht he⟩
  | @cons c c' item items hread hpre hcomp ih =>
    intro caps pos slots ht hh
    have hrest := hread.rest_lt
    obtain ⟨fuel, rfl⟩ : ∃ n, fuel = n + 1 := Nat.exists_eq_succ_of_ne_zero (by omega)
    rw [List.countP_cons] at hd
    have hsame : S.FollowsFrom fuel c' fun pos => S.freshItems items pos depth :=
      ih (by omega) (by omega)
    have hdeep : item.deepens = true → S.FollowsFrom fuel c' fun pos =>
        if maxCCalls ≤ depth + 1 then fail (.pattern .matchDepthExceeded)
        else S.freshItems items pos (depth + 1) := fun hi => by
      rw [if_pos hi] at hd
      exact (ih (by omega) (by omega)).deeper (by omega)
    have hnested := hread.nested ht.nested
    have hlen := ht.length
    cases hread with
    | @position rest hr hn =>
      rw [hr, Reference.doMatch_position (hlen ▸ hn)]
      refine follows_charge fun clock => ?_
      rw [wp_bind]
      have hlt := ht.lt hh (Nat.le_refl _) hn
      refine wp_setCapture hlt (Follows.answers (hdeep rfl _ _ _ ?_ ?_) clock)
      · exact ht.append hnested hn rfl (by rintro _ ⟨⟩) fun i =>
          ⟨.inl, fun h => h.resolve_right fun h => by cases h.2⟩
      · exact hlen ▸ hh.append (hlen ▸ hlt) _
    | @start rest hr hp hn =>
      rw [hr, Reference.doMatch_start (hlen ▸ hn) hp]
      refine follows_charge fun clock => ?_
      rw [wp_bind]
      have hlt := ht.lt hh (Nat.le_refl _) hn
      refine wp_setCapture hlt (Follows.answers (hdeep rfl _ _ _ ?_ ?_) clock)
      · refine ht.append hnested hn rfl (by rintro _ ⟨⟩) fun i => ?_
        exact List.mem_cons.trans ⟨fun h => h.symm.imp_right fun h => ⟨h, rfl⟩,
          fun h => (h.imp_right fun h => h.1).symm⟩
      · exact hlen ▸ hh.append (hlen ▸ hlt) _
    | @finish rest slot stack hr hs =>
      have hclose := ht.captureToClose
      rw [hs, List.head?_cons] at hclose
      rw [hr, Reference.doMatch_finish hclose]
      have hlt : slot < caps.length := hlen ▸ ht.nested.below slot (hs ▸ List.mem_cons_self)
      have hget := List.getElem?_eq_getElem hlt
      have hslot := (hh.capture slot hlt).trans hget
      have hinit := (ht.within _ (List.mem_of_getElem? hget)).1
      refine follows_charge fun clock => ?_
      rw [wp_bind]
      refine wp_getCapture hslot ?_
      rw [wp_bind, wp_demand (checkedSub_of_le hinit), wp_bind]
      have hin := (List.getElem?_eq_some_iff.1 hslot).1
      refine wp_setCapture hin (Follows.answers (hdeep rfl _ _ _ ?_ ?_) clock)
      · exact ht.close hs hnested rfl rfl
      · exact hh.close hget hin rfl
    | @balance opening closing rest hr =>
      rw [hr]
      have ht' : S.Tracks ({ c with rest }.push (.balance opening closing)) caps pos :=
        ht.of_same rfl rfl
      exact follows_balance fun stop h₁ h₂ => hsame _ _ _ (ht'.mono h₁ h₂) hh
    | @frontier text rest cls hr hb =>
      obtain ⟨-, -, -, hrest', hn', hs'⟩ := Reads.internClass_get cls { c with rest }
      rw [hr]
      refine follows_frontier (class_of_extends hpre rfl) hb ?_
      have := hsame _ _ _ (ht.of_same hn' hs') hh
      rwa [Compiler.push, hrest'] at this
    | @backref digit rest slot hr hdigit hi hlt hclosed =>
      rw [hr]
      have ht' : S.Tracks ({ c with rest }.push (.backref slot)) caps pos := ht.of_same rfl rfl
      exact follows_backref ht hh hdigit hi hlt hclosed fun stop h₁ h₂ =>
        hsame _ _ _ (ht'.mono h₁ h₂) hh
    | endAnchor hr =>
      rw [hr, Reference.doMatch_endAnchor]
      refine follows_charge fun clock => ?_
      rw [wp_pure]
      split
      · exact ⟨caps, rfl, hlen.trans (hcomp.nil_of_rest rfl).2, hh⟩
      · rfl
    | @atom byte text rest cls hr ha hs =>
      obtain ⟨-, -, -, -, hn', hs'⟩ := Reads.internClass_get cls { c with rest }
      rw [hr]
      have ht' : S.Tracks ({ c with rest }.pushAtom cls) caps pos := ht.of_same hn' hs'
      refine follows_atom (class_of_extends hpre rfl) ht.here ha hs rfl (fun stop h₁ h₂ => ?_)
        fun hrep stop h₁ h₂ => ?_
      · have := hsame _ _ _ (ht'.mono h₁ h₂) hh
        rwa [Reads.pushAtom_rest] at this
      · have := hdeep (decide_eq_true hrep) _ _ _ (ht'.mono h₁ h₂) hh
        rwa [Reads.pushAtom_rest] at this

end Search

end Dellingr.Patterns
