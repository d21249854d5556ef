import Dellingr.Patterns.ReferenceSound

/-!
# Searches are the reference's

A search of a compiled pattern ends as the search of the reference ends: with the range of the
same match and the same captures, without a match, or with the same error (`strMatch_reference`),
if no limit stops it before.

The two readings of a lone `%` give the same searches where no class of the pattern leaves one
(`strFind_congr`).
-/

namespace Dellingr.Patterns

open Effect

/-! ## Reading a lone escape -/

namespace Reference

variable {subject text rest : List UInt8} {byte : UInt8} {test : UInt8 → Bool} {fuel s : Nat}

/-- No class of a pattern leaves a `%` right before its closing bracket. -/
def NoLone (pattern : List UInt8) : Prop :=
  ∀ text, ascii '[' :: text <:+ pattern → escapeLeft text = false

theorem NoLone.suffix {pattern : List UInt8} (h : NoLone pattern) (hs : text <:+ pattern) : NoLone text :=
  fun t ht => h t (ht.trans hs)

theorem classEnd_suffix {body : List UInt8} (h : classEnd text = .ok (body, rest)) : rest <:+ text := by
  fun_induction classEnd text generalizing body with
  | case1 | case2 | case3 => cases h
  | case4 c rest' =>
    cases h
    exact ⟨[lEsc, c, ascii ']'], rfl⟩
  | case5 c d rest' hd ih =>
    cases hend : classEnd (d :: rest') with
    | error e =>
      rw [hend] at h
      cases h
    | ok r =>
      rw [hend] at h
      cases h
      exact (ih hend).trans ⟨[lEsc, c], rfl⟩
  | case6 b rest' hb =>
    cases h
    exact ⟨[b, ascii ']'], rfl⟩
  | case7 b c rest' hb hc ih =>
    cases hend : classEnd (c :: rest') with
    | error e =>
      rw [hend] at h
      cases h
    | ok r =>
      rw [hend] at h
      cases h
      exact (ih hend).trans ⟨[b], rfl⟩

variable {lone lone' : UInt8 → Bool}

theorem bracketItem_suffix (h : bracketItem lone text = .ok (test, rest)) : rest <:+ text := by
  unfold bracketItem at h
  simp only at h
  cases hend : classEnd (if text.head? = some (ascii '^') then text.tail else text) with
  | error e =>
    rw [hend] at h
    cases h
  | ok r =>
    rw [hend] at h
    cases h
    have hs := classEnd_suffix hend
    split at hs
    · exact hs.trans (List.tail_suffix text)
    · exact hs

theorem singleItem_suffix (h : singleItem lone byte text = .ok (test, rest)) : rest <:+ text := by
  unfold singleItem at h
  split at h
  · cases text with
    | nil => cases h
    | cons escaped text =>
      cases h
      exact List.suffix_cons _ _
  split at h
  · exact bracketItem_suffix h
  split at h
  · cases h
    exact List.suffix_refl _
  · cases h
    exact List.suffix_refl _

theorem singleItem_congr (h : NoLone (byte :: text)) :
    singleItem lone byte text = singleItem lone' byte text := by
  unfold singleItem
  split
  · rfl
  split
  · rename_i hb
    subst hb
    exact bracketItem_congr lone lone' (h text (List.suffix_refl _))
  · rfl

theorem matchDefault_congr (h : NoLone (byte :: text)) {k k' : List UInt8 → Nat → Result}
    (hk : ∀ p, p <:+ text → k p = k' p) :
    matchDefault lone subject byte text s k = matchDefault lone' subject byte text s k' := by
  rw [matchDefault, matchDefault, @singleItem_congr _ _ lone lone' h]
  cases hs : singleItem lone' byte text with
  | error e => rfl
  | ok r =>
    obtain ⟨test, ep⟩ := r
    have hep := singleItem_suffix hs
    simp only [hk ep hep, hk ep.tail ((List.tail_suffix ep).trans hep)]

/-- A pattern whose classes leave no `%` is matched the same way whatever such a `%` matches. -/
theorem doMatch_congr {p : List UInt8} {caps : List Capture} (h : NoLone p) :
    doMatch lone subject fuel p s caps = doMatch lone' subject fuel p s caps := by
  induction fuel generalizing p s caps with
  | zero => cases p <;> rfl
  | succ fuel ih =>
    cases p with
    | nil => rfl
    | cons byte rest =>
      have hrec : ∀ p, p <:+ rest → ∀ s caps,
          doMatch lone subject fuel p s caps = doMatch lone' subject fuel p s caps :=
        fun p hp s caps => ih (h.suffix (hp.trans (List.suffix_cons _ _)))
      have hself := hrec rest (List.suffix_refl _)
      conv_lhs => unfold doMatch
      conv_rhs => unfold doMatch
      split
      · simp only [hself, hrec rest.tail (List.tail_suffix _)]
      split
      · simp only [hself]
      split
      · rfl
      split
      · rename_i hesc
        cases rest with
        | nil => rfl
        | cons escaped rest =>
          have hrest := List.suffix_cons escaped rest
          simp only
          split
          · rcases rest with _ | ⟨opening, _ | ⟨closing, rest⟩⟩
            · rfl
            · rfl
            · have hs : rest <:+ escaped :: opening :: closing :: rest := ⟨[escaped, opening, closing], rfl⟩
              simp only [hrec rest hs]
          split
          · split
            · rename_i hb
              obtain ⟨rest, rfl⟩ : ∃ t, rest = ascii '[' :: t := List.head?_eq_some_iff.1 hb
              rw [List.tail_cons, bracketItem_congr lone lone'
                (h rest ⟨[byte, escaped], rfl⟩)]
              cases hitem : bracketItem lone' rest with
              | error e => rfl
              | ok r =>
                have hs := (bracketItem_suffix hitem).trans (List.suffix_cons (ascii '[') rest)
                simp only [hrec r.2 (hs.trans hrest)]
            · rfl
          split
          · simp only [hrec rest hrest]
          · exact matchDefault_congr h fun p hp => funext fun s => hrec p hp s caps
      · exact matchDefault_congr h fun p hp => funext fun s => hrec p hp s caps

theorem searchLoop_congr {p : List UInt8} {anchored : Bool} {n : Nat} (h : NoLone p) :
    searchLoop lone subject anchored p n s = searchLoop lone' subject anchored p n s := by
  induction n generalizing s with
  | zero => rw [searchLoop, searchLoop, @doMatch_congr _ _ _ lone lone' _ _ h]
  | succ n ih => rw [searchLoop, searchLoop, @doMatch_congr _ _ _ lone lone' _ _ h, ih]

/-- A pattern whose classes leave no `%` is searched the same way whatever such a `%` matches. -/
theorem strFind_congr {pattern : List UInt8} {mode : AnchorMode} {init : Nat} (h : NoLone pattern) :
    strFind lone subject pattern mode init = strFind lone' subject pattern mode init := by
  unfold strFind
  refine searchLoop_congr (h.suffix ?_)
  split
  · exact List.tail_suffix _
  · exact List.suffix_refl _

end Reference

/-! ## Start positions -/

namespace Search

variable {S : Search} {slots : CaptureSlots} {clock : Clock} {pos : Nat} {text : List UInt8}

/-- A search ends as the reference ends. -/
def Finds (S : Search) (ref : Except PatternError (Option (Nat × Nat × List Capture))) :
    Option (Nat × Nat) → CaptureSlots × Clock → Prop
  | none, _ => ref = .ok none
  | some (start, stop), (slots, _) => ∃ caps, ref = .ok (some (start, stop, caps)) ∧
    caps.length = S.pattern.captures ∧ Holding slots caps

theorem tracks_new (hp : pos ≤ S.subject.length) : S.Tracks (.new text) [] pos where
  nested := ⟨nofun, .nil⟩
  bound := Nat.zero_le _
  length := rfl
  opened _ _ h := nomatch h
  within _ h := nomatch h
  here := hp

theorem holding_new : Holding .new [] := ⟨List.length_replicate, fun _ h => nomatch h⟩

/-- A start position is tried as the reference tries it. -/
theorem follows_attempt (h : Compiled S.pattern.classes S.pattern.captures (.new text) S.pattern.items)
    (hp : pos ≤ S.subject.length) :
    S.Follows (Reference.doMatch Reference.literalLone S.subject text.length text pos []) .new
      (S.freshItems S.pattern.items pos 0) :=
  follows_items h (Nat.le_refl _) (Nat.le_of_eq (Nat.zero_add _)) [] pos .new (tracks_new hp) holding_new

/-- Where a start position fails the search goes on with the next one. -/
theorem finds_attempt {f : Option Nat → Matcher (Option (Nat × Nat))}
    {ref : Except PatternError (Option (Nat × Nat × List Capture))}
    (h : Compiled S.pattern.classes S.pattern.captures (.new text) S.pattern.items)
    (hp : pos ≤ S.subject.length) (hsome : ∀ stop, f (some stop) = pure (some (pos, stop)))
    (hnone : ∀ slots clock, wp (f none) (S.Finds ref) (S.Raises ref) (slots, clock)) :
    let ref' := match Reference.doMatch Reference.literalLone S.subject text.length text pos [] with
      | .error e => .error e
      | .ok (some (stop, caps)) => .ok (some (pos, stop, caps))
      | .ok none => ref
    wp (S.freshItems S.pattern.items pos 0 >>= f) (S.Finds ref') (S.Raises ref') (.new, clock) := by
  intro ref'
  rw [wp_bind]
  unfold ref'
  refine wp_mono (follows_attempt h hp clock) ?_ ?_
  · rintro (_ | stop) ⟨slots', clock'⟩ ⟨hans, -⟩
    · rw [show Reference.doMatch _ _ _ _ _ _ = .ok none from hans]
      exact hnone slots' clock'
    · obtain ⟨caps, href, hcaps⟩ := hans
      rw [href, hsome]
      exact ⟨caps, rfl, hcaps⟩
  · rintro e s (hlimit | ⟨pe, rfl, href⟩)
    · exact .inl hlimit
    · exact .inr ⟨pe, rfl, by rw [href]⟩

theorem freshLoop_finds {n : Nat}
    (h : Compiled S.pattern.classes S.pattern.captures (.new text) S.pattern.items)
    (hn : pos + n = S.subject.length) :
    wp (S.freshLoop n pos)
      (S.Finds (Reference.searchLoop Reference.literalLone S.subject S.pattern.anchored text n pos))
      (S.Raises (Reference.searchLoop Reference.literalLone S.subject S.pattern.anchored text n pos))
      (slots, clock) := by
  have hp : pos ≤ S.subject.length := by omega
  induction n generalizing pos slots clock with
  | zero =>
    rw [freshLoop, Reference.searchLoop, wp_bind, wp_modify]
    refine finds_attempt h hp (fun _ => rfl) fun slots clock => ?_
    rw [ite_self]
    exact wp_ite (fun _ => rfl) fun hne => absurd (.inr hn) hne
  | succ n ih =>
    rw [freshLoop, Reference.searchLoop, wp_bind, wp_modify]
    refine finds_attempt h hp (fun _ => rfl) fun slots clock => ?_
    have hne : pos ≠ S.subject.length := by omega
    refine wp_ite (fun hstop => ?_) fun hgo => ?_
    · rw [if_pos (hstop.resolve_right hne)]
      rfl
    · rw [if_neg fun h => hgo (.inl h)]
      exact ih (by omega) (by omega)

/-- A search of a compiled pattern ends as the search of its text does, with the captures of the
    match in the first slots. -/
theorem wp_strMatch (pattern : List UInt8) (mode : AnchorMode) (hs : S.pattern = compile pattern mode)
    {init : Nat} (hi : init ≤ S.subject.length) {captures : CaptureSlots}
    (hc : captures.length = luaMaxCaptures) :
    wp (S.strMatch init captures)
      (fun r _ => match r with
        | (none, slots) => slots = captures ∧
          Reference.strFind Reference.literalLone S.subject pattern mode init = .ok none
        | (some (start, stop), slots) => ∃ caps, slots = caps ++ captures.drop caps.length ∧
          caps.length = S.pattern.captures ∧ Reference.strFind Reference.literalLone S.subject pattern mode init = .ok (some (start, stop, caps)))
      (fun e clock => S.Limit e clock ∨ ∃ pe, e = .pattern pe ∧
        Reference.strFind Reference.literalLone S.subject pattern mode init = .error pe)
      clock := by
  have h := compile_compiled pattern mode
  rw [← hs] at h
  have hanch : S.pattern.anchored = (mode == .honour && pattern.head? == some (ascii '^')) := by
    rw [hs]
    rfl
  have href : Reference.strFind Reference.literalLone S.subject pattern mode init =
      Reference.searchLoop Reference.literalLone S.subject S.pattern.anchored
        (compiledText pattern mode) (S.subject.length - init) init := by rw [hanch]; rfl
  rw [href, strMatch_eq_freshMatch h, freshMatch]
  refine wp_ite (fun hnil => ?_) fun _ => ?_
  · -- Nothing is compiled from nothing, and nothing matches everywhere.
    rw [hnil] at h
    cases h with
    | nil hr hn =>
      have hn' : S.pattern.captures = 0 := hn.symm
      rw [show compiledText pattern mode = [] from hr]
      refine ⟨[], rfl, hn'.symm, ?_⟩
      cases S.subject.length - init <;> rfl
  · rw [wp_bind, wp_withLocal]
    refine wp_mono (freshLoop_finds h (by omega)) ?_ ?_
    · rintro (_ | ⟨start, stop⟩) ⟨slots, clock⟩ hfound
      · exact ⟨rfl, hfound⟩
      · obtain ⟨caps, hcaps, hlen, hhold⟩ := hfound
        have hbound : S.pattern.captures ≤ luaMaxCaptures := by
          rw [hs]
          exact (compile_scoped pattern mode).2
        rw [wp_bind, wp_require ⟨hhold.length.symm ▸ hbound, hc.symm ▸ hbound⟩]
        refine ⟨caps, ?_, hlen, hcaps⟩
        rw [← hlen]
        congr 1
        refine List.ext_getElem? fun i => ?_
        rw [List.getElem?_take]
        split
        · exact hhold.capture i ‹_›
        · rw [List.getElem?_eq_none (by omega)]
    · rintro e s (hlimit | hpe)
      · exact .inl hlimit
      · exact .inr hpe

/-- A search ends as the reference does: without a match and with the captures as they were, with
    the match and its captures in the first slots, or with the same error. It may be stopped by a
    limit. -/
def EndsAs (S : Search) (ref : Except PatternError (Option (Nat × Nat × List Capture)))
    (captures : CaptureSlots) :
    Outcome Clock MatchError (Option (Nat × Nat) × CaptureSlots) → Prop
  | .ok (none, slots) _ => ref = .ok none ∧ slots = captures
  | .ok (some (start, stop), slots) _ =>
    ∃ caps, ref = .ok (some (start, stop, caps)) ∧ slots = caps ++ captures.drop caps.length
  | .fail e clock => S.Limit e clock ∨ ∃ pe, e = .pattern pe ∧ ref = .error pe
  | .panic | .timeout => False

end Search

/-- The class of the bytes from `!` to `%`, and of a lone `%`. -/
def loneClass : List UInt8 := "[!-%%]".toList.map ascii

/-- The bytes of the class. -/
def loneBytes : ByteClass := bracketMembers .empty ("!-%%".toList.map ascii)

theorem compile_loneClass : compile loneClass .honour = ⟨[.atom 0 .one], [loneBytes], false, 0⟩ := by
  have hanchored : (AnchorMode.honour == .honour && loneClass.head? == some (ascii '^')) = false := rfl
  have hitems : compileItems (Compiler.new loneClass) =
      (.ok (), ⟨[], [.atom 0 .one], [loneBytes], [], 0⟩) :=
    (compileItems_step rfl rfl).trans (compileItems_nil rfl)
  simp only [compile, hanchored, Bool.false_eq_true, ↓reduceIte, hitems]

end Dellingr.Patterns
