import Dellingr.Lib.Relational
import Dellingr.Patterns.Reading

/-!
# Captures and backtracking

The slots of the captures are shared by the start positions of a search, and a branch that fails
leaves what it wrote in them. The matcher here does neither: it begins each start position with
fresh slots, and a branch that fails gives back the slots it was given (`restoring`). Its searches
end as those of the program do, with the same accounting (`strMatch_eq_freshMatch`).

Of the slots of the captures that were started, a failed branch may have changed the lengths of
those that the items still to be matched close (`Agree`). They close each such capture before they
refer to it, since the compiler turns a reference to an open capture into a failure
(`Compiled.open_of_mem`).
-/

namespace Dellingr.Patterns

open Effect

namespace Search

variable (S : Search)

/-- Give the slots back if nothing is found. -/
def restoring (m : Matcher (Option Nat)) : Matcher (Option Nat) := do
  let (slots, _) ← get
  match ← m with
  | some stop => return some stop
  | none =>
    modify fun (_, clock) => (slots, clock)
    return none

/-- Match items from a position on; what fails gives its slots back. -/
def freshItems : List Item → Nat → Nat → Matcher (Option Nat)
  | [], pos, _ => do
    S.charge
    return some pos
  | item :: rest, pos, depth => restoring do
    S.charge
    let recurse (pos : Nat) : Matcher (Option Nat) :=
      if maxCCalls ≤ depth + 1 then fail (.pattern .matchDepthExceeded)
      else freshItems rest pos (depth + 1)
    match item with
    | .captureStart slot =>
      setCapture slot ⟨pos, .unfinished⟩
      recurse pos
    | .captureEnd slot =>
      let capture ← getCapture slot
      let n ← demand (checkedSub pos capture.init)
      setCapture slot { capture with len := .len n }
      recurse pos
    | .positionCapture slot =>
      setCapture slot ⟨pos, .position⟩
      recurse pos
    | .balance opening closing =>
      match ← S.matchBalance pos opening closing with
      | some next => freshItems rest next depth
      | none => return none
    | .frontier cls =>
      let previous := if pos = 0 then 0 else S.subject[pos - 1]?.getD 0
      let current := S.subject[pos]?.getD 0
      if (← S.classContains cls previous) || !(← S.classContains cls current) then return none
      else freshItems rest pos depth
    | .backref slot =>
      let capture ← getCapture slot
      match capture.len with
      | .len n =>
        if ← S.sameBytes capture.init pos n then freshItems rest (pos + n) depth else return none
      | .position => return none
      | .unfinished => fail (.pattern (.invalidCaptureIndex slot))
    | .endAnchor => return if pos = S.subject.length then some pos else none
    | .fail error => fail (.pattern error)
    | .atom cls .one =>
      if ← S.singlematch pos cls then freshItems rest (pos + 1) depth else return none
    | .atom cls .optional =>
      if ← S.singlematch pos cls then
        match ← recurse (pos + 1) with
        | some result => return some result
        | none => freshItems rest pos depth
      else freshItems rest pos depth
    | .atom cls .zeroOrMoreGreedy =>
      if ← S.singlematch pos cls then S.maxExpand recurse pos cls
      else freshItems rest pos depth
    | .atom cls .oneOrMoreGreedy =>
      if ← S.singlematch pos cls then S.maxExpand recurse (pos + 1) cls else return none
    | .atom cls .zeroOrMoreMinimal =>
      if ← S.singlematch pos cls then S.minExpand recurse pos cls
      else freshItems rest pos depth

/-- Try the start positions from `pos` on, each with fresh slots. -/
def freshLoop : Nat → Nat → Matcher (Option (Nat × Nat))
  | n, pos => do
    modify fun (_, clock) => (.new, clock)
    match ← S.freshItems S.pattern.items pos 0 with
    | some stop => return some (pos, stop)
    | none =>
      if S.pattern.anchored ∨ pos = S.subject.length then return none
      else
        match n with
        | 0 => panic
        | n + 1 => freshLoop n (pos + 1)

/-- Search from a position on, with the captures of the match alone. -/
def freshMatch (init : Nat) (captures : CaptureSlots) :
    Effect Clock MatchError (Option (Nat × Nat) × CaptureSlots) :=
  if S.pattern.items = [] then return (some (init, init), captures)
  else do
    let (found, slots) ← withLocal .new (S.freshLoop (S.subject.length - init) init)
    match found with
    | some range =>
      let published := S.pattern.captures
      require (published ≤ slots.length ∧ published ≤ captures.length)
      return (some range, slots.take published ++ captures.drop published)
    | none => return (none, captures)

end Search

/-! ## Slots that agree -/

namespace Search

variable {S : Search} {items rest : List Item} {item : Item} {n i : Nat}
  {slots fresh : CaptureSlots} {clock : Clock} {pos depth cls : Nat}

/-- The slots of the captures that were started are those of the fresh matcher, but for the
    lengths of those that the items still close. -/
structure Agree (items : List Item) (n : Nat) (slots fresh : CaptureSlots) : Prop where
  length : slots.length = fresh.length
  capture : ∀ i < n, slots[i]? = fresh[i]? ∨
    .captureEnd i ∈ items ∧ slots[i]?.map Capture.init = fresh[i]?.map Capture.init

namespace Agree

theorem init (h : Agree items n slots fresh) (hi : i < n) :
    slots[i]?.map Capture.init = fresh[i]?.map Capture.init := by
  rcases h.capture i hi with heq | ⟨-, heq⟩
  · rw [heq]
  · exact heq

/-- An item that closes no capture is passed. -/
theorem tail (h : Agree (item :: rest) n slots fresh) (hitem : ∀ i, item ≠ .captureEnd i) :
    Agree rest n slots fresh where
  length := h.length
  capture i hi := by
    refine (h.capture i hi).imp_right fun ⟨hm, heq⟩ => ⟨?_, heq⟩
    exact (List.mem_cons.1 hm).resolve_left (hitem i).symm

theorem weaken (item : Item) (h : Agree rest n slots fresh) : Agree (item :: rest) n slots fresh where
  length := h.length
  capture i hi := (h.capture i hi).imp_right fun ⟨hm, heq⟩ => ⟨List.mem_cons_of_mem _ hm, heq⟩

/-- A capture is stored in the next slot. -/
theorem store (h : Agree rest n slots fresh) (capture : Capture) :
    Agree rest (n + 1) (slots.set n capture) (fresh.set n capture) where
  length := by rw [List.length_set, List.length_set, h.length]
  capture i hi := by
    by_cases heq : i = n
    · left
      rw [heq, List.getElem?_set, List.getElem?_set, if_pos rfl, if_pos rfl, h.length]
    · rw [List.getElem?_set_ne (Ne.symm heq), List.getElem?_set_ne (Ne.symm heq)]
      exact h.capture i (by omega)

/-- A branch that stored a capture in the next slot fails. -/
theorem of_store {capture : Capture} (h : Agree rest (n + 1) slots (fresh.set n capture)) :
    Agree (item :: rest) n slots fresh where
  length := by rw [h.length, List.length_set]
  capture i hi := by
    have := (h.weaken item).capture i (Nat.lt_succ_of_lt hi)
    rwa [List.getElem?_set_ne (by omega)] at this

/-- The slot of a capture is closed. -/
theorem close (h : Agree (.captureEnd i :: rest) n slots fresh) (capture : Capture) :
    Agree rest n (slots.set i capture) (fresh.set i capture) where
  length := by rw [List.length_set, List.length_set, h.length]
  capture j hj := by
    by_cases heq : j = i
    · left
      rw [heq, List.getElem?_set, List.getElem?_set, if_pos rfl, if_pos rfl, h.length]
    · rw [List.getElem?_set_ne (Ne.symm heq), List.getElem?_set_ne (Ne.symm heq)]
      refine (h.capture j hj).imp_right fun ⟨hm, hinit⟩ => ⟨?_, hinit⟩
      refine (List.mem_cons.1 hm).resolve_left fun hitem => heq ?_
      exact Item.captureEnd.inj hitem

/-- A branch that closed a capture fails. -/
theorem of_close {capture : Capture} (h : Agree rest n slots (fresh.set i capture))
    (hinit : fresh[i]?.map Capture.init = some capture.init) :
    Agree (.captureEnd i :: rest) n slots fresh where
  length := by rw [h.length, List.length_set]
  capture j hj := by
    by_cases heq : j = i
    · subst heq
      have hlt : j < fresh.length := by
        by_contra hge
        rw [List.getElem?_eq_none (Nat.le_of_not_lt hge)] at hinit
        cases hinit
      have hj' := h.init hj
      rw [List.getElem?_set_self hlt, Option.map_some] at hj'
      exact .inr ⟨List.mem_cons_self, hj'.trans hinit.symm⟩
    · have := (h.weaken (.captureEnd i)).capture j hj
      rwa [List.getElem?_set_ne (Ne.symm heq)] at this

end Agree

/-! ## Steps beside the slots -/

theorem blind_charge : Blind S.charge := by
  intro s s' clock
  refine rel_bind (rel_get (rel_bind (rel_modify ?_)))
  refine rel_ite (fun _ => rel_fail rfl) fun _ => rel_bind (rel_modify ?_)
  exact rel_ite (fun _ => rel_pure ⟨rfl, rfl, rfl, rfl⟩) fun _ => rel_fail rfl

theorem blind_classContains {byte : UInt8} : Blind (S.classContains cls byte) :=
  blind_demand.bind fun _ => blind_pure

theorem blind_singlematchByte {byte : Option UInt8} : Blind (S.singlematchByte byte cls) := by
  refine blind_charge.bind fun _ => ?_
  cases byte with
  | none => exact blind_pure
  | some byte => exact blind_classContains

theorem blind_balanceLoop {opening closing : UInt8} {bytes : List UInt8} {level cursor : Nat} :
    Blind (S.balanceLoop opening closing bytes level cursor) := by
  induction bytes generalizing level cursor with
  | nil => exact blind_pure
  | cons byte bytes ih =>
    exact blind_charge.bind fun _ => (blind_pure.ite ih).ite (ih.ite ih)

theorem blind_matchBalance {opening closing : UInt8} : Blind (S.matchBalance pos opening closing) :=
  blind_charge.bind fun _ => blind_balanceLoop.ite blind_pure

theorem blind_maxRun {bytes : List UInt8} {stop : Nat} : Blind (S.maxRun cls bytes stop) := by
  induction bytes generalizing stop with
  | nil => exact blind_singlematchByte.bind fun _ => blind_pure
  | cons byte bytes ih => exact blind_singlematchByte.bind fun _ => ih.ite blind_pure

theorem blind_sameBytes {init len : Nat} : Blind (S.sameBytes init pos len) := by
  induction len generalizing init pos with
  | zero => exact blind_pure
  | succ len ih =>
    rw [sameBytes]
    cases S.subject[pos]? with
    | none => exact blind_pure
    | some byte => exact blind_charge.bind fun _ => blind_demand.bind fun _ => blind_pure.ite ih

/-! ## Matches side by side -/

/-- How the matchers end: alike, and with the captures alike where they find a match. The slots
    that a failed match leaves agree with those it was given. -/
def EndsAlike (S : Search) (items : List Item) (n : Nat) (fresh : CaptureSlots) (r : Option Nat)
    (s : CaptureSlots × Clock) (r' : Option Nat) (t : CaptureSlots × Clock) : Prop :=
  r = r' ∧ s.2 = t.2 ∧
  match r with
  | none => t.1 = fresh ∧ Agree items n s.1 fresh
  | some _ => s.1.length = t.1.length ∧ ∀ i < S.pattern.captures, s.1[i]? = t.1[i]?

/-- Errors are raised at the same clock. -/
abbrev SameClock (s t : CaptureSlots × Clock) : Prop := s.2 = t.2

/-- Two matchers end alike from slots that agree. -/
abbrev MatchAlike (S : Search) (items : List Item) (n : Nat) (m m' : Matcher (Option Nat))
    (slots fresh : CaptureSlots) (clock : Clock) : Prop :=
  rel m m' (S.EndsAlike items n fresh) SameClock (slots, clock) (fresh, clock)

variable {m m' : Matcher (Option Nat)} {recurse recurse' : Nat → Matcher (Option Nat)}
  {rest' : List Item} {n' : Nat} {fresh' : CaptureSlots}

/-- Nothing is found, and the slots were not touched. -/
theorem EndsAlike.none (h : Agree items n slots fresh) :
    S.EndsAlike items n fresh none (slots, clock) none (fresh, clock) := ⟨rfl, rfl, rfl, h⟩

/-- What fails is given back its slots: the slots it leaves agree with those it was given. -/
theorem rel_restoring (rest' : List Item) (n' : Nat) (fresh' : CaptureSlots)
    (hback : ∀ slots, Agree rest' n' slots fresh' → Agree items n slots fresh)
    (h : rel m m' (S.EndsAlike rest' n' fresh') SameClock (slots, clock) (fresh, clock)) :
    S.MatchAlike items n m (restoring m') slots fresh clock := by
  simp only [MatchAlike, rel, restoring] at h ⊢
  rw [run_get_bind]
  cases hm' : m' (fresh, clock) with
  | ok r' t =>
    rw [run_bind_of_ok hm']
    cases hm : m (slots, clock) with
    | ok r s =>
      rw [hm, hm'] at h
      obtain ⟨rfl, hclock, hends⟩ := h
      cases r with
      | none => exact ⟨rfl, hclock, rfl, hback _ (hends.1 ▸ hends.2)⟩
      | some stop => exact ⟨rfl, hclock, hends⟩
    | _ =>
      rw [hm, hm'] at h
      cases h
  | fail e t =>
    rw [run_bind_of_fail hm']
    rw [hm'] at h
    cases hm : m (slots, clock) <;> rw [hm] at h <;> exact h
  | panic =>
    rw [run_bind_of_panic hm']
    rw [hm'] at h
    cases hm : m (slots, clock) <;> rw [hm] at h <;> exact h
  | timeout =>
    rw [run_bind_of_timeout hm']
    rw [hm'] at h
    cases hm : m (slots, clock) <;> rw [hm] at h <;> exact h

/-- What a continuation is known to do from slots that agree. -/
def ContinuesAlike (S : Search) (items : List Item) (n : Nat)
    (recurse recurse' : Nat → Matcher (Option Nat)) (fresh : CaptureSlots) : Prop :=
  ∀ pos slots clock, Agree items n slots fresh →
    S.MatchAlike items n (recurse pos) (recurse' pos) slots fresh clock

theorem rel_giveBack {len : Nat} (hr : S.ContinuesAlike items n recurse recurse' fresh)
    (ha : Agree items n slots fresh) :
    S.MatchAlike items n (giveBack recurse pos len) (giveBack recurse' pos len) slots fresh clock := by
  induction len generalizing slots clock with
  | zero => exact hr pos slots clock ha
  | succ len ih =>
    rw [giveBack, giveBack]
    refine rel_bind (rel_mono_ok (hr _ slots clock ha) ?_)
    rintro (_ | stop) ⟨slots', _⟩ _ ⟨_, clock'⟩ ⟨rfl, rfl, hends⟩
    · obtain ⟨rfl, ha'⟩ := hends
      exact ih ha'
    · exact rel_pure ⟨rfl, rfl, hends⟩

theorem rel_maxExpand (hr : S.ContinuesAlike items n recurse recurse' fresh)
    (ha : Agree items n slots fresh) :
    S.MatchAlike items n (S.maxExpand recurse pos cls) (S.maxExpand recurse' pos cls) slots fresh
      clock :=
  rel_bind (blind_maxRun.rel (fun _ _ => rel_giveBack hr ha) fun _ _ => id)

theorem rel_minLoop {bytes : List UInt8} (hr : S.ContinuesAlike items n recurse recurse' fresh)
    (ha : Agree items n slots fresh) :
    S.MatchAlike items n (S.minLoop recurse cls bytes pos) (S.minLoop recurse' cls bytes pos) slots
      fresh clock := by
  induction bytes generalizing pos slots clock with
  | nil =>
    rw [minLoop, minLoop]
    refine rel_bind (rel_mono_ok (hr _ slots clock ha) ?_)
    rintro (_ | stop) ⟨slots', _⟩ _ ⟨_, clock'⟩ ⟨rfl, rfl, hends⟩
    · obtain ⟨rfl, ha'⟩ := hends
      exact rel_bind (blind_singlematchByte.rel (fun _ _ => rel_pure (.none ha')) fun _ _ => id)
    · exact rel_pure ⟨rfl, rfl, hends⟩
  | cons byte bytes ih =>
    rw [minLoop, minLoop]
    refine rel_bind (rel_mono_ok (hr _ slots clock ha) ?_)
    rintro (_ | stop) ⟨slots', _⟩ _ ⟨_, clock'⟩ ⟨rfl, rfl, hends⟩
    · obtain ⟨rfl, ha'⟩ := hends
      refine rel_bind (blind_singlematchByte.rel (fun b clock => ?_) fun _ _ => id)
      exact rel_ite (fun _ => ih ha') fun _ => rel_pure (.none ha')
    · exact rel_pure ⟨rfl, rfl, hends⟩

theorem rel_setCapture {capture : Capture} {Q : Unit → CaptureSlots × Clock → Unit → CaptureSlots × Clock → Prop}
    (hl : slots.length = fresh.length) (hQ : Q () (slots.set i capture, clock) () (fresh.set i capture, clock)) :
    rel (setCapture i capture) (setCapture i capture) Q SameClock (slots, clock) (fresh, clock) := by
  have hi : i < slots.length ↔ i < fresh.length := by rw [hl]
  exact rel_bind (rel_get (rel_bind (rel_require hi fun _ => rel_modify hQ)))

theorem rel_getCapture {Q : Capture → CaptureSlots × Clock → Capture → CaptureSlots × Clock → Prop}
    (hinit : slots[i]?.map Capture.init = fresh[i]?.map Capture.init)
    (hQ : ∀ a b, slots[i]? = some a → fresh[i]? = some b → a.init = b.init → Q a (slots, clock) b (fresh, clock)) :
    rel (getCapture i) (getCapture i) Q SameClock (slots, clock) (fresh, clock) := by
  refine rel_bind (rel_get ?_)
  simp only
  cases hs : slots[i]? with
  | none =>
    rw [hs] at hinit
    rw [Option.map_eq_none_iff.1 hinit.symm]
    exact rel_panic
  | some a =>
    rw [hs] at hinit
    obtain ⟨b, hb, hab⟩ := Option.map_eq_some_iff.1 hinit.symm
    rw [hb]
    exact rel_pure (hQ a b hs hb hab.symm)

/-- Items end alike from slots that agree. -/
theorem rel_matchItems {c : Compiler}
    (h : Compiled S.pattern.classes S.pattern.captures c items) (hc : Reads.Nested c)
    (ha : Agree items c.captures slots fresh) :
    S.MatchAlike items c.captures (S.matchItems items pos depth) (S.freshItems items pos depth) slots
      fresh clock := by
  induction h generalizing slots fresh clock pos depth with
  | nil hr hn =>
    rw [matchItems, freshItems]
    refine rel_bind (blind_charge.rel (fun _ clock => rel_pure ⟨rfl, rfl, ha.length, ?_⟩) fun _ _ => id)
    intro i hi
    rcases ha.capture i (hn ▸ hi) with heq | ⟨hm, -⟩
    · exact heq
    · cases hm
  | fail hr he =>
    simp only [matchItems, freshItems]
    refine rel_restoring _ _ fresh (fun _ => id) ?_
    exact rel_bind (blind_charge.rel (fun _ clock => rel_fail rfl) fun _ _ => id)
  | @cons c c' item rest hread _ ht ih =>
    replace ih := fun {slots} {fresh} {clock} {pos} {depth} => @ih slots fresh clock pos depth (hread.nested hc)
    -- The rest of the items, matched one level deeper.
    have hrec : ∀ fresh, S.ContinuesAlike rest c'.captures
        (fun pos => if maxCCalls ≤ depth + 1 then fail (.pattern .matchDepthExceeded)
          else S.matchItems rest pos (depth + 1))
        (fun pos => if maxCCalls ≤ depth + 1 then fail (.pattern .matchDepthExceeded)
          else S.freshItems rest pos (depth + 1)) fresh :=
      fun fresh pos slots clock ha => rel_ite (fun _ => rel_fail rfl) fun _ => ih ha
    simp only [matchItems, freshItems]
    cases hread with
    | position hr hn =>
      refine rel_restoring rest (c.captures + 1) (fresh.set c.captures ⟨pos, .position⟩) (fun _ => Agree.of_store) ?_
      refine rel_bind (blind_charge.rel (fun _ clock => ?_) fun _ _ => id)
      refine rel_bind (rel_setCapture ha.length ?_)
      exact hrec _ pos _ clock ((ha.tail fun _ => nofun).store _)
    | start hr hp hn =>
      refine rel_restoring rest (c.captures + 1) (fresh.set c.captures ⟨pos, .unfinished⟩) (fun _ => Agree.of_store) ?_
      refine rel_bind (blind_charge.rel (fun _ clock => ?_) fun _ _ => id)
      refine rel_bind (rel_setCapture ha.length ?_)
      exact hrec _ pos _ clock ((ha.tail fun _ => nofun).store _)
    | @finish _ slot _ hr hs =>
      have hinit := ha.init (hc.below slot (by rw [hs]; exact List.mem_cons_self))
      cases hf : fresh[slot]? with
      | none =>
        -- There is no such slot on either side.
        refine rel_restoring rest c.captures fresh (fun _ => Agree.weaken _) ?_
        refine rel_bind (blind_charge.rel (fun _ clock => ?_) fun _ _ => id)
        exact rel_bind (rel_getCapture hinit fun _ _ _ hb _ => nomatch hf.symm.trans hb)
      | some b =>
        refine rel_restoring rest c.captures (fresh.set slot ⟨b.init, .len (pos - b.init)⟩)
          (fun _ h => h.of_close (by rw [hf]; rfl)) ?_
        refine rel_bind (blind_charge.rel (fun _ clock => ?_) fun _ _ => id)
        refine rel_bind (rel_getCapture hinit fun a b' _ hb hab => ?_)
        obtain rfl : b = b' := Option.some.inj (hf.symm.trans hb)
        rw [hab]
        refine rel_bind (rel_demand fun len hlen => rel_bind (rel_setCapture ha.length ?_))
        obtain rfl : len = pos - b.init := (checkedSub_eq_some.1 hlen).2.symm
        exact hrec _ pos _ clock (ha.close _)
    | balance hr =>
      refine rel_restoring rest c.captures fresh (fun _ => Agree.weaken _) ?_
      refine rel_bind (blind_charge.rel (fun _ clock => ?_) fun _ _ => id)
      refine rel_bind (blind_matchBalance.rel (fun r clock => ?_) fun _ _ => id)
      cases r with
      | none => exact rel_pure (.none (ha.tail fun _ => nofun))
      | some next => exact ih (ha.tail fun _ => nofun)
    | @frontier _ rest' cls hr hb =>
      have hn := (Reads.internClass_get cls { c with rest := rest' }).2.2.2.2.1
      rw [show (Compiler.push _ _).captures = c.captures from hn] at ih
      have htail := ha.tail fun _ => nofun
      refine rel_restoring rest c.captures fresh (fun _ => Agree.weaken _) ?_
      refine rel_bind (blind_charge.rel (fun _ clock => ?_) fun _ _ => id)
      refine rel_bind (blind_classContains.rel (fun _ clock => ?_) fun _ _ => id)
      refine rel_bind (blind_classContains.rel (fun _ clock => ?_) fun _ _ => id)
      exact rel_ite (fun _ => rel_pure (.none htail)) fun _ => ih htail
    | @backref _ _ slot hr hd hi hlt hs =>
      have htail := ha.tail fun _ => nofun
      refine rel_restoring rest c.captures fresh (fun _ => Agree.weaken _) ?_
      refine rel_bind (blind_charge.rel (fun _ clock => ?_) fun _ _ => id)
      refine rel_bind (rel_getCapture (ha.init hlt) fun a b hsa hsb _ => ?_)
      -- The capture is closed, so its slot is the one of the fresh matcher.
      have hsame : slots[slot]? = fresh[slot]? :=
        (htail.capture slot hlt).resolve_right fun h => hs (ht.open_of_mem h.1 hlt)
      obtain rfl : a = b := Option.some.inj (hsa.symm.trans (hsame.trans hsb))
      cases a.len with
      | len len =>
        refine rel_bind (blind_sameBytes.rel (fun _ clock => ?_) fun _ _ => id)
        exact rel_ite (fun _ => ih htail) fun _ => rel_pure (.none htail)
      | unfinished => exact rel_fail rfl
      | position => exact rel_pure (.none htail)
    | endAnchor hr =>
      have htail := ha.tail fun _ => nofun
      refine rel_restoring rest c.captures fresh (fun _ => Agree.weaken _) ?_
      refine rel_bind (blind_charge.rel (fun _ clock => ?_) fun _ _ => id)
      obtain ⟨rfl, hn⟩ := ht.nil_of_rest rfl
      by_cases hend : pos = S.subject.length
      · rw [if_pos hend]
        refine rel_pure ⟨rfl, rfl, ha.length, fun i hi => ?_⟩
        exact (htail.capture i (hn ▸ hi)).resolve_right fun h => nomatch h.1
      · rw [if_neg hend]
        exact rel_pure (.none htail)
    | @atom _ _ rest' cls hr hat hs =>
      have hn := (Reads.internClass_get cls { c with rest := rest' }).2.2.2.2.1
      rw [show (Compiler.pushAtom _ _).captures = c.captures from hn] at ih hrec
      have htail := ha.tail fun _ => nofun
      cases Compiler.repeatSuffix rest' <;>
        refine rel_restoring rest c.captures fresh (fun _ => Agree.weaken _)
          (rel_bind (blind_charge.rel (fun _ clock => rel_bind (blind_singlematchByte.rel
            (fun _ clock => rel_ite (fun _ => ?_) fun _ => ?_) fun _ _ => id)) fun _ _ => id))
      case one.refine_1 => exact ih htail
      case one.refine_2 => exact rel_pure (.none htail)
      case optional.refine_1 =>
        refine rel_bind (rel_mono_ok (hrec fresh _ _ _ htail) ?_)
        rintro (_ | stop) ⟨slots', _⟩ _ ⟨_, clock'⟩ ⟨rfl, rfl, hends⟩
        · obtain ⟨rfl, ha'⟩ := hends
          exact ih ha'
        · exact rel_pure ⟨rfl, rfl, hends⟩
      case optional.refine_2 => exact ih htail
      case zeroOrMoreGreedy.refine_1 => exact rel_maxExpand (hrec fresh) htail
      case zeroOrMoreGreedy.refine_2 => exact ih htail
      case oneOrMoreGreedy.refine_1 => exact rel_maxExpand (hrec fresh) htail
      case oneOrMoreGreedy.refine_2 => exact rel_pure (.none htail)
      case zeroOrMoreMinimal.refine_1 => exact rel_minLoop (hrec fresh) htail
      case zeroOrMoreMinimal.refine_2 => exact ih htail

/-! ## Searches -/

/-- How the searches end: alike, and with the captures alike where they find a match. -/
def FindsAlike (S : Search) (r : Option (Nat × Nat)) (s : CaptureSlots × Clock)
    (r' : Option (Nat × Nat)) (t : CaptureSlots × Clock) : Prop :=
  r = r' ∧ s.2 = t.2 ∧
    (r ≠ none → s.1.length = t.1.length ∧ ∀ i < S.pattern.captures, s.1[i]? = t.1[i]?)

/-- Every start position is tried alike, whatever the one before has left. -/
theorem rel_searchLoop {text : List UInt8} {len : Nat}
    (h : Compiled S.pattern.classes S.pattern.captures (.new text) S.pattern.items)
    (hl : slots.length = luaMaxCaptures) :
    rel (S.searchLoop len pos) (S.freshLoop len pos) S.FindsAlike SameClock (slots, clock)
      (fresh, clock) := by
  have hnested : Reads.Nested (.new text) := ⟨nofun, .nil⟩
  have hattempt : ∀ {slots : CaptureSlots} {pos clock}, slots.length = luaMaxCaptures →
      S.MatchAlike S.pattern.items 0 (S.matchItems S.pattern.items pos 0)
        (S.freshItems S.pattern.items pos 0) slots .new clock := fun hl =>
    rel_matchItems h hnested ⟨by rw [hl, CaptureSlots.new, List.length_replicate], fun _ hi => nomatch hi⟩
  induction len generalizing pos slots fresh clock with
  | zero =>
    rw [searchLoop, freshLoop]
    refine rel_modify_right (rel_bind (rel_mono_ok (hattempt hl) ?_))
    rintro (_ | stop) ⟨slots', _⟩ _ ⟨_, clock'⟩ ⟨rfl, rfl, hends⟩
    · exact rel_ite (fun _ => rel_pure ⟨rfl, rfl, fun h => absurd rfl h⟩) fun _ => rel_panic
    · exact rel_pure ⟨rfl, rfl, fun _ => hends⟩
  | succ len ih =>
    rw [searchLoop, freshLoop]
    refine rel_modify_right (rel_bind (rel_mono_ok (hattempt hl) ?_))
    rintro (_ | stop) ⟨slots', _⟩ _ ⟨_, clock'⟩ ⟨rfl, rfl, hends⟩
    · obtain ⟨rfl, ha⟩ := hends
      have hl' : slots'.length = luaMaxCaptures := by
        rw [ha.length, CaptureSlots.new, List.length_replicate]
      exact rel_ite (fun _ => rel_pure ⟨rfl, rfl, fun h => absurd rfl h⟩) fun _ => ih hl'
    · exact rel_pure ⟨rfl, rfl, fun _ => hends⟩

/-- Two tables of slots that are alike below a bound publish the same captures. -/
theorem take_eq_take {n : Nat} (h : ∀ i < n, slots[i]? = fresh[i]?) : slots.take n = fresh.take n := by
  refine List.ext_getElem? fun i => ?_
  rw [List.getElem?_take, List.getElem?_take]
  split
  · exact h i ‹_›
  · rfl

theorem strMatch_eq_freshMatch {text : List UInt8}
    (h : Compiled S.pattern.classes S.pattern.captures (.new text) S.pattern.items) (init : Nat)
    (captures : CaptureSlots) : S.strMatch init captures = S.freshMatch init captures := by
  funext clock
  have hnew : CaptureSlots.new.length = luaMaxCaptures := List.length_replicate
  refine eq_of_rel ?_
  rw [strMatch, freshMatch]
  refine rel_ite (fun _ => rel_pure ⟨rfl, rfl⟩) fun _ => rel_bind (rel_withLocal (rel_mono_ok (rel_searchLoop h hnew) ?_))
  rintro r ⟨slots', _⟩ _ ⟨fresh', clock'⟩ ⟨rfl, rfl, hends⟩
  cases r with
  | none => exact rel_pure ⟨rfl, rfl⟩
  | some range =>
    obtain ⟨hl, hslots⟩ := hends (Option.some_ne_none range)
    refine rel_bind (rel_require (by rw [show slots'.length = fresh'.length from hl]) fun _ => rel_pure ⟨?_, rfl⟩)
    simp only [take_eq_take hslots]

end Search

/-- The slots that the start positions of a search share, and that no branch gives back, cannot be
    told from fresh ones: every search of a compiled pattern ends with the same range and
    captures, or the same error, after the same steps. -/
theorem capture_slots_unobservable (subject pattern : List UInt8) (mode : AnchorMode)
    (interrupt : Nat → Bool) (init : Nat) (captures : CaptureSlots) :
    Search.strMatch ⟨subject, compile pattern mode, interrupt⟩ init captures =
      Search.freshMatch ⟨subject, compile pattern mode, interrupt⟩ init captures :=
  Search.strMatch_eq_freshMatch (compile_compiled pattern mode) init captures

end Dellingr.Patterns
